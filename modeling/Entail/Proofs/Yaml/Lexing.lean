import Entail.Proofs.Yaml.Plain
import Entail.Yaml.Lexer
import Mathlib.Logic.Relation

/-!
# Reading token by token

* `Lexer.Step`, `Lexer.Leads` : one token is read, or several, each of which takes some of the text;
* `Lexer.run_of_leads`, `Lexer.Fails` : what comes of the whole text then, and of a text with a fault;
* `Lexer.approach_eq` : what the lexer does in front of a token.
-/

namespace Entail.Yaml.Lexer

variable {l l' a : Lexer} {c : Cursor} {t u : List Char} {k : Nat}

/-! ## Runs -/

structure Step (l l' : Lexer) : Prop where
  reads : ∃ a, l.approach = .ok a ∧ a.cursor.peek ≠ endMark ∧ a.token = .ok l'
  progress : l'.cursor.left < l.cursor.left

abbrev Leads : Lexer → Lexer → Prop := Relation.ReflTransGen Step

def Ends (l : Lexer) (ts : List Token) : Prop :=
  ∃ a b, l.approach = .ok a ∧ a.cursor.peek = endMark ∧ (a.unwind (-1)).dropCandidate = .ok b ∧
    b.trail.tokens.reverse = ts

def Fails (l : Lexer) : Prop := ∀ fuel, (run fuel l).fault.isSome

theorem run_of_step (h : Step l l') (fuel : Nat) : run (fuel + 1) l = run fuel l' := by
  obtain ⟨a, happroach, hend, htoken⟩ := h.reads
  rw [run, happroach]
  simp only [hend, if_false, htoken]

/-- If tokens lead to the end of a text, they are what is read of it. -/
theorem run_of_leads {ts : List Token} (h : Leads l l') (hend : l'.Ends ts) {fuel : Nat} (hfuel : l.cursor.left < fuel) :
    run fuel l = ⟨ts, none⟩ := by
  induction h using Relation.ReflTransGen.head_induction_on generalizing fuel with
  | refl =>
    obtain ⟨fuel, rfl⟩ : ∃ m, fuel = m + 1 := ⟨fuel - 1, by omega⟩
    obtain ⟨a, b, happroach, hpeek, hdrop, rfl⟩ := hend
    rw [run, happroach]
    simp only [hpeek, if_true, hdrop]
  | head hstep _ ih =>
    obtain ⟨fuel, rfl⟩ : ∃ m, fuel = m + 1 := ⟨fuel - 1, by omega⟩
    have hprogress := hstep.progress
    rw [run_of_step hstep]
    exact ih (by omega)

theorem fails_of_token {f : Fault} (happroach : l.approach = .ok a) (hend : a.cursor.peek ≠ endMark)
    (htoken : a.token = .error f) : l.Fails := by
  intro fuel
  cases fuel with
  | zero => rfl
  | succ fuel =>
    rw [run, happroach]
    simp only [hend, if_false, htoken]
    rfl

theorem fails_of_leads (h : Leads l l') (hfails : l'.Fails) : l.Fails := by
  induction h using Relation.ReflTransGen.head_induction_on with
  | refl => exact hfails
  | head hstep _ ih =>
    intro fuel
    cases fuel with
    | zero => rfl
    | succ fuel =>
      rw [run_of_step hstep]
      exact ih fuel

/-! ## In front of a token -/

theorem skipWhile_spaces (hu : StartsToken u) (h : c.rest = spaces k ++ u) : c.skipWhile (· = ' ') = c.skip k := by
  have hskip := Cursor.skipWhile_append (p := (· = ' ')) h (fun a ha => by simp [mem_spaces ha]) fun a ha => by
    simpa using (hu a ha).1
  rwa [length_spaces] at hskip

theorem skipComment_of_startsToken (hu : StartsToken c.rest) : c.skipComment = c := by
  have hpeek := peek_eq_of_head (p := fun a => a ≠ '#') (fun a ha => (hu a ha).2.1) (by decide) rfl
  rw [Cursor.skipComment, if_neg hpeek]

theorem lineBreak?_of_startsToken (hu : StartsToken c.rest) : c.lineBreak? = none :=
  Cursor.lineBreak?_of_not_isBreak
    (peek_eq_of_head (p := fun a => isBreak a = false) (fun a ha => (hu a ha).2.2.1) (by decide) rfl)

theorem skipGap_spaces (inFlow keys : Bool) (fuel : Nat) (hu : StartsToken u) (h : c.rest = spaces k ++ u) :
    skipGap inFlow (fuel + 1) keys c = (keys, c.skip k) := by
  have hrest := Cursor.rest_skip_spaces h
  have hstart : StartsToken (c.skip k).rest := hrest ▸ hu
  simp only [skipGap, skipWhile_spaces hu h, skipComment_of_startsToken hstart, lineBreak?_of_startsToken hstart]

/-- The end of a line allows keys in a block. -/
theorem skipGap_line (inFlow keys : Bool) (fuel : Nat) (hu : StartsToken u) (h : c.rest = '\n' :: spaces k ++ u) :
    skipGap inFlow (fuel + 2) keys c = (keys || !inFlow, c.skip (k + 1)) := by
  have hpeek := Cursor.peek_of_cons h
  have hskip : c.skipWhile (· = ' ') = c := Cursor.skipWhile_of_peek (by rw [hpeek]; rfl)
  have hcomment : c.skipComment = c := by rw [Cursor.skipComment, if_neg (by rw [hpeek]; decide)]
  have hbreak := Cursor.lineBreak?_of_isBreak h (by decide) (by decide)
  rw [skipGap]
  simp only [hskip, hcomment, hbreak]
  rw [skipGap_spaces inFlow _ fuel hu (Cursor.rest_next_of_cons h)]
  rfl

theorem dropStale_eq (h : ∀ k ∈ l.candidates, l.isStale k.2 = true → k.2.isRequired = false) :
    l.dropStale = .ok { l with candidates := l.candidates.filter fun k => !l.isStale k.2 } := by
  have hany : (l.candidates.any fun k => l.isStale k.2 && k.2.isRequired) = false := by
    rw [List.any_eq_false]
    intro k hk hboth
    rw [Bool.and_eq_true] at hboth
    rw [h k hk hboth.1] at hboth
    exact absurd hboth.2 Bool.false_ne_true
  rw [dropStale, hany]
  rfl

/-- The lexer moves to a token, gives up candidates that are out of reach and closes blocks. -/
theorem approach_eq {keys : Bool} (hmark : l.cursor.peek ≠ '\ufeff')
    (hgap : skipGap l.inFlow (l.cursor.left + 1) l.keysAllowed l.cursor = (keys, c))
    (hfree : ∀ k ∈ l.candidates, { l with cursor := c, keysAllowed := keys }.isStale k.2 = true →
      k.2.isRequired = false) :
    l.approach = .ok (unwind { l with
      cursor := c
      keysAllowed := keys
      candidates := l.candidates.filter fun k => !{ l with cursor := c, keysAllowed := keys }.isStale k.2 } c.column) := by
  rw [approach, if_neg (fun h => hmark h.2)]
  simp only [hgap]
  rw [dropStale_eq hfree]
  rfl

/-- Nothing happens in front of a token that follows at once. -/
theorem approach_here (hu : StartsToken l.cursor.rest) (hfresh : ∀ k ∈ l.candidates, l.isStale k.2 = false)
    (hunwind : l.unwind l.cursor.column = l) : l.approach = .ok l := by
  have hmark := peek_eq_of_head (p := fun a => a ≠ '\ufeff') (fun a ha => (hu a ha).2.2.2) (by decide) rfl
  have hgap := skipGap_spaces (k := 0) l.inFlow l.keysAllowed l.cursor.left hu rfl
  have hfilter : l.candidates.filter (fun k => !l.isStale k.2) = l.candidates :=
    List.filter_eq_self.2 fun k hk => by rw [hfresh k hk]; rfl
  have happroach := approach_eq hmark hgap fun k hk hstale => by
    have hfresh := (hfresh k hk).symm.trans hstale
    cases hfresh
  refine happroach.trans (congrArg Except.ok ?_)
  change unwind { l with candidates := l.candidates.filter fun k => !l.isStale k.2 } l.cursor.column = l
  rw [hfilter]
  exact hunwind

/-! ## Candidates -/

theorem dropCandidate_of_free (h : ∀ k ∈ l.candidates, k.2.isRequired = false) :
    ∃ ks, l.dropCandidate = .ok { l with candidates := ks } ∧ ∀ k ∈ ks, k ∈ l.candidates := by
  unfold dropCandidate
  split
  next k hk =>
    obtain ⟨ks, ks', hks, -⟩ := List.lookup_eq_some_iff.1 hk
    rw [h (l.flowDepth, k) (hks ▸ List.mem_append_right _ (List.mem_cons_self ..))]
    exact ⟨_, rfl, fun k hk => (List.mem_filter.1 hk).1⟩
  · exact ⟨l.candidates, rfl, fun k hk => hk⟩

theorem dropCandidate_of_nil (h : l.candidates = []) : l.dropCandidate = .ok l := by
  rw [dropCandidate, candidate?, h]
  rfl

theorem keyStart_ok {read : Cursor → Except Fault (Token × Cursor)} {t : Token} (h : l.saveCandidate = .ok l')
    (hread : read l'.cursor = .ok (t, c)) : l.keyStart read = .ok ((l'.allowing false).emit t c) := by
  rw [keyStart, h]
  change (do let x ← read l'.cursor; return (l'.allowing false).emit x.1 x.2) = _
  rw [hread]
  rfl

theorem keyStart_error {read : Cursor → Except Fault (Token × Cursor)} {f : Fault} (h : l.saveCandidate = .ok l')
    (hread : read l'.cursor = .error f) : l.keyStart read = .error f := by
  rw [keyStart, h]
  change (do let x ← read l'.cursor; return (l'.allowing false).emit x.1 x.2) = _
  rw [hread]
  rfl

def keyed (l : Lexer) (k : Candidate) : Lexer := { l.forgetCandidate with trail := l.trail.insert k.place .key }

/-- The lexer with the block open that a key needs. -/
def opened (l : Lexer) (k : Candidate) : Lexer :=
  if (l.keyed k).inFlow then l.keyed k else (l.keyed k).openBlock k.column k.place .blockMappingStart

theorem value_of_candidate {k : Candidate} (hk : l.candidate? = some k) :
    l.value = .ok (((l.opened k).allowing false).emit .value (l.opened k).cursor.next) := by
  rw [value, hk]
  rfl

theorem opened_of_flow {k : Candidate} (hflow : l.inFlow = true) : l.opened k = l.keyed k := if_pos hflow

theorem opened_of_block {k : Candidate} (hflow : l.inFlow = false) :
    l.opened k = (l.keyed k).openBlock k.column k.place .blockMappingStart := if_neg (ne_true_of_eq_false hflow)

theorem plain_ok {text : List Char} {lineEnds : Bool} (h : l.saveCandidate = .ok l')
    (hread : plainScalar l'.inFlow l'.indent l'.cursor = ((text, lineEnds), c)) :
    l.plain = .ok ((l'.allowing lineEnds).emit (.scalar (String.ofList text) true) c) := by
  simp only [plain, h, bind, Except.bind, hread]
  rfl

/-! ## Marks -/

theorem hasMarker_of_cons {x m : Char} (h : c.rest = x :: t) (hx : x ≠ m) : c.hasMarker m = false := by
  simp [Cursor.hasMarker, h, hx]

theorem token_openFlow {x : Char} {t : Token} (h : l.cursor.rest = x :: u)
    (hx : x = '[' ∧ t = .flowSequenceStart ∨ x = '\x7b' ∧ t = .flowMappingStart) : l.token = l.openFlow t := by
  have hmarker : ∀ m, x ≠ m → l.cursor.hasMarker m = false := fun m => hasMarker_of_cons h
  rcases hx with ⟨rfl, rfl⟩ | ⟨rfl, rfl⟩ <;>
    simp [token, Cursor.peek_of_cons h, hmarker '-' (by decide), hmarker '.' (by decide)]

theorem token_closeFlow {x : Char} {t : Token} (h : l.cursor.rest = x :: u)
    (hx : x = ']' ∧ t = .flowSequenceEnd ∨ x = '\x7d' ∧ t = .flowMappingEnd) : l.token = l.closeFlow t := by
  have hmarker : ∀ m, x ≠ m → l.cursor.hasMarker m = false := fun m => hasMarker_of_cons h
  rcases hx with ⟨rfl, rfl⟩ | ⟨rfl, rfl⟩ <;>
    simp [token, Cursor.peek_of_cons h, hmarker '-' (by decide), hmarker '.' (by decide)]

theorem token_quote {q : Char} (h : l.cursor.rest = q :: u) (hq : IsQuote q) :
    l.token = l.keyStart fun c => (quotedScalar c).map fun r => (.scalar (String.ofList r.1) false, r.2) := by
  have hmarker : ∀ m, q ≠ m → l.cursor.hasMarker m = false := fun m => hasMarker_of_cons h
  rcases hq with rfl | rfl <;>
    simp [token, Cursor.peek_of_cons h, hmarker '-' (by decide), hmarker '.' (by decide)]

/-- A text in quotes, at which a key may start. -/
theorem quoted_ok {q : Char} {s : List Char} (h : l.cursor.rest = q :: u) (hq : IsQuote q)
    (hsave : l.saveCandidate = .ok l') (hscalar : quotedScalar l'.cursor = .ok (s, c)) :
    l.token = .ok ((l'.allowing false).emit (.scalar (String.ofList s) false) c) := by
  rw [token_quote h hq]
  exact keyStart_ok hsave (congrArg (Except.map _) hscalar)

theorem quoted_error {q : Char} {f : Fault} (h : l.cursor.rest = q :: u) (hq : IsQuote q)
    (hsave : l.saveCandidate = .ok l') (hscalar : quotedScalar l'.cursor = .error f) : l.token = .error f := by
  rw [token_quote h hq]
  exact keyStart_error hsave (congrArg (Except.map _) hscalar)

theorem closeFlow_ok (hdrop : l.dropCandidate = .ok l') (hflow : l'.inFlow = true) (t : Token) :
    l.closeFlow t = .ok (({ l' with flowDepth := l'.flowDepth - 1 }.allowing false).emit t l'.cursor.next) := by
  simp only [closeFlow, hdrop, bind, Except.bind, hflow]
  rfl

end Entail.Yaml.Lexer
