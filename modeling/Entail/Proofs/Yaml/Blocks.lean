import Entail.Proofs.Shapes
import Entail.Proofs.Yaml.Lexing

/-!
# Reading blocks

* `Lexer.InBlock l keys column indent outer ts u` : outside of flows, with the block that is open and those around it,
  the tokens read and the text ahead;
* `Lexer.Faces` : in front of a token; what is indented further ends before it (`Faces.close`);
* `Lexer.Faces.key`, `entry`, `quoted`, `plain`, `brackets` : what the tokens of blocks do.
-/

namespace Entail.Yaml.Lexer

variable {l l' a b : Lexer} {keys : Bool} {n k column : Nat} {indent i : Int} {outer : List Int} {ts : List Token}
  {g s t u w : List Char} {x : Char}

/-- Outside of flows, where no key may have started. -/
structure InBlock (l : Lexer) (keys : Bool) (column : Nat) (indent : Int) (outer : List Int) (ts : List Token)
    (u : List Char) : Prop where
  depth : l.flowDepth = 0
  keys : l.keysAllowed = keys
  candidates : l.candidates = []
  trail : l.trail = ⟨ts.reverse, ts.length⟩
  fits : l.cursor.Fits
  rest : l.cursor.rest = u
  column : l.cursor.column = column
  indent : l.indent = indent
  outer : l.outer = outer

def Faces (l : Lexer) (keys : Bool) (column : Nat) (indent : Int) (outer : List Int) (ts : List Token)
    (u : List Char) : Prop :=
  ∃ b, InBlock b keys column indent outer ts u ∧ l.approach = .ok (b.unwind column) ∧ b.cursor.left ≤ l.cursor.left

/-! ## Trails -/

theorem trail_add (ts : List Token) (t : Token) :
    Trail.add ⟨ts.reverse, ts.length⟩ t = ⟨(ts ++ [t]).reverse, (ts ++ [t]).length⟩ := by
  rw [Trail.add, List.reverse_append, List.length_append]
  rfl

theorem insertIdx_length {α : Type} (xs ys : List α) (a : α) : (xs ++ ys).insertIdx xs.length a = xs ++ a :: ys := by
  induction xs with
  | nil => rfl
  | cons x xs ih => rw [List.cons_append, List.length_cons, List.insertIdx_succ_cons, ih, List.cons_append]

theorem trail_insert (ts ws : List Token) (t : Token) :
    Trail.insert ⟨(ts ++ ws).reverse, (ts ++ ws).length⟩ ts.length t =
      ⟨(ts ++ t :: ws).reverse, (ts ++ t :: ws).length⟩ := by
  have hinsert : (ts ++ ws).reverse.insertIdx ws.length t = (ts ++ t :: ws).reverse := by
    have hreverse := insertIdx_length ws.reverse ts.reverse t
    rw [List.length_reverse] at hreverse
    simp [hreverse]
  rw [Trail.insert, List.length_append, Nat.add_sub_cancel_left, hinsert, List.length_append, List.length_cons]
  rfl

/-! ## What is open -/

theorem closeBlocks_of_le (hi : i ≤ n) (outer : List Int) (ts : Trail) : closeBlocks n i outer ts = (i, outer, ts) := by
  cases outer with
  | nil => rfl
  | cons j outer => rw [closeBlocks, if_neg (Int.not_lt.2 hi)]

/-- Outside of flows blocks are closed. -/
theorem unwind_eq (hflow : l.inFlow = false) {n : Int} {outer' : List Int} {ts' : Trail}
    (hclose : closeBlocks n l.indent l.outer l.trail = (i, outer', ts')) :
    l.unwind n = { l with indent := i, outer := outer', trail := ts' } := by
  rw [unwind, hflow, hclose]
  rfl

theorem unwind_of_le (hflow : l.inFlow = false) (hi : l.indent ≤ n) : l.unwind n = l :=
  unwind_eq hflow (closeBlocks_of_le hi l.outer l.trail)

namespace InBlock

theorem inFlow (h : InBlock l keys column indent outer ts u) : l.inFlow = false := by simp [Lexer.inFlow, h.depth]

theorem of_eq {v : List Char} (h : InBlock l keys column indent outer ts u) (hu : u = v) :
    InBlock l keys column indent outer ts v := hu ▸ h

/-- A key may start where keys are allowed; it is required at the column of a block. -/
theorem saveCandidate (h : InBlock l true column indent outer ts u) : l.saveCandidate = .ok { l with
    candidates := [(0, ⟨ts.length, indent == (column : Int), l.cursor.index, l.cursor.line, column⟩)] } := by
  rw [Lexer.saveCandidate, h.keys, if_pos rfl, dropCandidate_of_nil h.candidates]
  change Except.ok { l with candidates := (l.flowDepth, (⟨l.trail.count, !l.inFlow && l.indent == (l.cursor.column : Int),
    l.cursor.index, l.cursor.line, l.cursor.column⟩ : Candidate)) :: l.candidates } = _
  rw [h.depth, h.inFlow, h.indent, h.column, h.candidates, h.trail, h.keys]
  rfl

theorem saveCandidate_of_not (h : InBlock l false column indent outer ts u) : l.saveCandidate = .ok l := by
  rw [Lexer.saveCandidate, h.keys, if_neg Bool.false_ne_true]

theorem start (text : List Char) : InBlock { cursor := .start text } true 0 (-1) [] [] text :=
  ⟨rfl, rfl, rfl, rfl, Nat.zero_add _, rfl, rfl, rfl, rfl⟩

/-- A token of one character. -/
theorem emit (h : InBlock l keys column indent outer ts (x :: u)) (hx : isBreak x = false ∧ x ≠ '\ufeff') (keys' : Bool)
    (t : Token) : InBlock ((l.allowing keys').emit t l.cursor.next) keys' (column + 1) indent outer (ts ++ [t]) u := by
  have htrail : l.trail.add t = _ := (congrArg (Trail.add · t) h.trail).trans (trail_add ts t)
  have hcolumn : l.cursor.next.column = column + 1 := by
    rw [(Cursor.next_of_not_isBreak h.rest hx.1).2 hx.2, h.column]
  exact ⟨h.depth, rfl, h.candidates, htrail, h.fits.next, Cursor.rest_next_of_cons h.rest, hcolumn, h.indent, h.outer⟩

/-! ## In front of a token -/

theorem faces (h : InBlock l keys column indent outer ts (g ++ u)) (keys' : Bool)
    (hgap : skipGap false (l.cursor.left + 1) keys l.cursor = (keys', l.cursor.skip g.length))
    (hmark : l.cursor.peek ≠ '\ufeff') : Faces l keys' (l.cursor.skip g.length).column indent outer ts u := by
  have hgap' : skipGap l.inFlow (l.cursor.left + 1) l.keysAllowed l.cursor = (keys', l.cursor.skip g.length) := by
    rw [h.inFlow, h.keys, hgap]
  have happroach := approach_eq hmark hgap' (by rw [h.candidates]; exact nofun)
  rw [h.candidates] at happroach
  refine ⟨_, ?_, happroach, ?_⟩
  · exact ⟨h.depth, rfl, rfl, h.trail, h.fits.skip _, Cursor.rest_skip_append h.rest, rfl, h.indent, h.outer⟩
  · change (l.cursor.skip g.length).left ≤ l.cursor.left
    rw [(h.fits.skip _).left_eq, Cursor.rest_skip_append h.rest, h.fits.left_eq, h.rest, List.length_append]
    omega

/-- On the line that is begun. -/
theorem faces_spaces (h : InBlock l keys column indent outer ts (spaces k ++ u)) (hu : StartsToken u) :
    Faces l keys (column + k) indent outer ts u := by
  have hgap := skipGap_spaces false keys l.cursor.left hu h.rest
  have hcolumn := Cursor.column_spaces h.rest
  rw [h.column] at hcolumn
  have hfaces := h.faces keys (by rw [length_spaces, hgap]) ?_
  · rwa [length_spaces, hcolumn] at hfaces
  · cases k with
    | zero => exact peek_eq_of_head (p := fun a => a ≠ '\ufeff') (fun a ha => (hu a ha).2.2.2) (by decide) h.rest
    | succ k =>
      rw [Cursor.peek_of_cons h.rest]
      decide

/-- On the next line. -/
theorem faces_line (h : InBlock l keys column indent outer ts ('\n' :: spaces k ++ u)) (hu : StartsToken u) :
    Faces l true k indent outer ts u := by
  obtain ⟨left, hleft⟩ : ∃ m, l.cursor.left = m + 1 := by
    rw [h.fits.left_eq, h.rest]
    exact ⟨_, rfl⟩
  have hgap := skipGap_line false keys left hu h.rest
  have hcolumn := Cursor.column_skip_line h.rest
  have hlength : ('\n' :: spaces k).length = k + 1 := by rw [List.length_cons, length_spaces]
  have hfaces := h.faces true (by rw [hlength, hleft, hgap, Bool.not_false, Bool.or_true]) ?_
  · rwa [hlength, hcolumn] at hfaces
  · rw [Cursor.peek_of_cons h.rest]
    decide

/-! ## Plain scalars -/

theorem isGap_ahead (h : InBlock a keys column indent outer ts (x :: u)) :
    isGap (a.cursor.ahead 1) = startsWithGap u := by
  rw [Cursor.ahead, h.rest, startsWithGap]
  cases u <;> rfl

theorem startsPlain_eq {following : Char} (hgap : isGap x = false) (hmark : isIndicator x = false)
    (hfirst : x = '?' ∨ x = ':' ∨ x = '-' → isGap following = false) : startsPlain false x following = true := by
  have hlist : ("-?:,[]\x7b\x7d#&*!|>'\"%@".toList.all fun y =>
      isIndicator y || y = '?' || y = ':' || y = '-') = true := by decide
  simp only [List.all_eq_true, Bool.or_eq_true, decide_eq_true_eq, or_assoc] at hlist
  have hquote : x ≠ '\x60' := by
    rintro rfl
    exact absurd hmark (by decide)
  by_cases hx : x = '?' ∨ x = ':' ∨ x = '-'
  · have hfollowing := hfirst hx
    rcases hx with rfl | rfl | rfl <;> simp [startsPlain, hfollowing]
  · have hmem : x ∉ "-?:,[]\x7b\x7d#&*!|>'\"%@".toList := by
      intro hmem
      rcases hlist x hmem with htrue | htrue
      · rw [hmark] at htrue
        cases htrue
      · exact hx htrue
    rw [startsPlain, hgap, decide_eq_false hmem, decide_eq_false hquote]
    rfl

/-- A plain scalar starts with a character that is no mark of its own. -/
theorem token_plain (h : InBlock a keys column indent outer ts (x :: u)) (hgap : isGap x = false)
    (hmark : isIndicator x = false) (hfirst : x = '?' ∨ x = ':' ∨ x = '-' → startsWithGap u = false)
    (hcolumn : column = 0 → x ≠ '-' ∧ x ≠ '.') : a.token = a.plain := by
  have hne : ∀ y, isIndicator y = true → x ≠ y := by
    rintro y hy rfl
    rw [hmark] at hy
    cases hy
  have hmarker : ∀ m, (m = '-' ∨ m = '.') → ¬ (column = 0 ∧ a.cursor.hasMarker m = true) := by
    rintro m hm ⟨hzero, htrue⟩
    have hxm : x ≠ m := by
      rcases hm with rfl | rfl
      · exact (hcolumn hzero).1
      · exact (hcolumn hzero).2
    rw [hasMarker_of_cons h.rest hxm] at htrue
    cases htrue
  have hblock : ∀ m, (m = '?' ∨ m = ':' ∨ m = '-') → ¬ (x = m ∧ startsWithGap u = true) := by
    rintro m hm ⟨rfl, htrue⟩
    rw [hfirst hm] at htrue
    cases htrue
  have hstarts : startsPlain false x (a.cursor.ahead 1) = true :=
    startsPlain_eq hgap hmark fun hx => h.isGap_ahead.trans (hfirst hx)
  simp only [token, Cursor.peek_of_cons h.rest, h.column, h.isGap_ahead, h.inFlow, Bool.false_eq_true, false_or,
    hmarker '-' (.inl rfl), hmarker '.' (.inr rfl), hne '%' (by decide), hne '[' (by decide), hne ']' (by decide),
    hne '\x7b' (by decide), hne '\x7d' (by decide), hne ',' (by decide), hne '*' (by decide), hne '&' (by decide),
    hne '!' (by decide), hne '|' (by decide), hne '>' (by decide), hne '\'' (by decide), hne '"' (by decide),
    hblock '-' (by simp), hblock '?' (by simp), hblock ':' (by simp), hstarts, false_and, if_false, or_self, if_true]

end InBlock

/-! ## Colons -/

/-- With a key a block starts, unless one is open at its column. -/
theorem inBlock_opened {t : Token} {k : Candidate}
    (h : InBlock { a with candidates := [] } false column i outer (ts ++ [t]) u)
    (hk : a.candidates = [(0, k)]) (hplace : k.place = ts.length) (hkcolumn : k.column = n) (hi : i ≤ n) :
    InBlock (a.opened k) false column n (if i < n then i :: outer else outer)
      (ts ++ (if i < n then [.blockMappingStart] else []) ++ [.key, t]) u := by
  have htrail : a.trail = ⟨(ts ++ [t]).reverse, (ts ++ [t]).length⟩ := h.trail
  have hdepth : a.flowDepth = 0 := h.depth
  have hflow : a.inFlow = false := h.inFlow
  -- the key token comes in front of the word
  have hkeyed : InBlock (a.keyed k) false column i outer (ts ++ [.key, t]) u := by
    refine ⟨h.depth, h.keys, ?_, ?_, h.fits, h.rest, h.column, h.indent, h.outer⟩
    · change a.candidates.filter (fun k => k.1 ≠ a.flowDepth) = []
      rw [hk, hdepth]
      rfl
    · rw [keyed, htrail, hplace]
      exact trail_insert ts [t] .key
  rw [opened_of_block hflow, openBlock, hkeyed.indent, hkeyed.outer, hkcolumn]
  split_ifs with hlt
  · refine ⟨hkeyed.depth, hkeyed.keys, hkeyed.candidates, ?_, hkeyed.fits, hkeyed.rest, hkeyed.column, rfl, rfl⟩
    rw [hkeyed.trail, hplace, trail_insert, List.append_assoc]
    rfl
  · obtain rfl : i = n := by omega
    rw [List.append_nil]
    exact hkeyed

/-- A colon behind a word makes a key of it. -/
theorem token_colon {t : Token} {k : Candidate}
    (h : InBlock { a with candidates := [] } false column i outer (ts ++ [t]) (':' :: u))
    (hk : a.candidates = [(0, k)]) (hplace : k.place = ts.length) (hkcolumn : k.column = n) (hi : i ≤ n)
    (hcolumn : 0 < column) (hu : startsWithGap u = true) :
    ∃ l', a.token = .ok l' ∧ InBlock l' false (column + 1) n (if i < n then i :: outer else outer)
      (ts ++ (if i < n then [.blockMappingStart] else []) ++ [.key, t, .value]) u := by
  have hdepth : a.flowDepth = 0 := h.depth
  have hrest : a.cursor.rest = ':' :: u := h.rest
  have hpos : ¬ a.cursor.column = 0 := by
    have hcol : a.cursor.column = column := h.column
    omega
  have hgap : isGap (a.cursor.ahead 1) = true := h.isGap_ahead.trans hu
  have htoken : a.token = a.value := by simp [token, Cursor.peek_of_cons hrest, hpos, hgap]
  have hcandidate : a.candidate? = some k := by
    rw [candidate?, hk, hdepth]
    rfl
  refine ⟨_, htoken.trans (value_of_candidate hcandidate), ?_⟩
  have hvalue := (inBlock_opened h hk hplace hkcolumn hi).emit (by decide) false .value
  rwa [List.append_assoc] at hvalue

namespace Faces

theorem of_eq {t : List Token} {v : List Char} (h : Faces l keys n i outer ts u) (hts : ts = t) (hu : u = v) :
    Faces l keys n i outer t v := hts ▸ hu ▸ h

/-- A block that is indented further ends. -/
theorem close (h : Faces l keys n i (indent :: outer) ts u) (hi : n < i) :
    Faces l keys n indent outer (ts ++ [.blockEnd]) u := by
  obtain ⟨b, hb, happroach, hleft⟩ := h
  have hclose : ∃ r : Int × List Int × Trail, closeBlocks n b.indent b.outer b.trail = r ∧
      closeBlocks n indent outer (b.trail.add .blockEnd) = r := by
    rw [hb.indent, hb.outer, closeBlocks, if_pos hi]
    exact ⟨_, rfl, rfl⟩
  obtain ⟨⟨i', outer', ts'⟩, hclose, hclose'⟩ := hclose
  refine ⟨{ b with indent := indent, outer := outer, trail := b.trail.add .blockEnd }, ?_, ?_, hleft⟩
  · exact ⟨hb.depth, hb.keys, hb.candidates, by rw [hb.trail, trail_add], hb.fits, hb.rest, hb.column, rfl, rfl⟩
  · rw [happroach, unwind_eq hb.inFlow hclose]
    exact congrArg Except.ok (unwind_eq (l := { b with indent := indent, outer := outer, trail := _ }) hb.inFlow
      hclose').symm

/-- Where no block ends, a token is read if it can be read where it stands. -/
theorem step (h : Faces l keys n i outer ts (x :: u)) (hi : i ≤ n) (hend : x ≠ endMark) {Q : Lexer → Prop}
    (htoken : ∀ a, InBlock a keys n i outer ts (x :: u) → ∃ l', a.token = .ok l' ∧ l'.cursor.left ≤ u.length ∧ Q l') :
    ∃ l', Step l l' ∧ Q l' := by
  obtain ⟨b, hb, happroach, hleft⟩ := h
  rw [unwind_of_le hb.inFlow (by rw [hb.indent]; exact hi)] at happroach
  obtain ⟨l', hl', hprogress, hQ⟩ := htoken b hb
  refine ⟨l', ⟨⟨b, happroach, by rwa [Cursor.peek_of_cons hb.rest], hl'⟩, ?_⟩, hQ⟩
  rw [hb.fits.left_eq, hb.rest, List.length_cons] at hleft
  omega

/-- At the end of the text the outermost block ends. -/
theorem ends (h : Faces l keys 0 0 [-1] ts []) : l.Ends (ts ++ [.blockEnd]) := by
  obtain ⟨b, hb, happroach, -⟩ := h
  rw [unwind_of_le hb.inFlow (by rw [hb.indent]; exact Int.le_refl _)] at happroach
  have hclose : closeBlocks (-1) b.indent b.outer b.trail = (-1, [], b.trail.add .blockEnd) := by
    rw [hb.indent, hb.outer]
    rfl
  have hdrop : (b.unwind (-1)).dropCandidate =
      .ok { b with indent := -1, outer := [], trail := b.trail.add .blockEnd } := by
    rw [unwind_eq hb.inFlow hclose]
    exact dropCandidate_of_nil hb.candidates
  refine ⟨b, _, happroach, Cursor.peek_of_nil hb.rest, hdrop, ?_⟩
  change (b.trail.add .blockEnd).tokens.reverse = _
  rw [hb.trail, trail_add, List.reverse_reverse]

/-! ## Keys -/

/-- A word starts where a key may start, and ends in front of a colon. -/
theorem word (h : Faces l true n i outer ts (w ++ ':' :: u)) (hi : i ≤ n) (hw : IsWord w)
    (hletters : ∀ c ∈ w, 'a' ≤ c ∧ c ≤ 'z') (hshort : w.length < keyReach) (hu : startsWithGap u = true) :
    ∃ l' k, Step l l' ∧ l'.approach = .ok l' ∧ l'.candidates = [(0, k)] ∧ k.place = ts.length ∧ k.column = n ∧
      InBlock { l' with candidates := [] } false (n + w.length) i outer (ts ++ [.scalar (String.ofList w) true])
        (':' :: u) := by
  obtain ⟨b, hb, happroach, hleft⟩ := h
  rw [unwind_of_le hb.inFlow (by rw [hb.indent]; exact hi)] at happroach
  obtain ⟨x, w', hcons⟩ := List.exists_cons_of_ne_nil hw.ne
  have hx : 'a' ≤ x ∧ x ≤ 'z' := hletters x (hcons ▸ List.mem_cons_self ..)
  have hb' : InBlock b true n i outer ts (x :: (w' ++ ':' :: u)) := by rwa [hcons] at hb
  have htoken : b.token = b.plain :=
    hb'.token_plain (Document.isGap_of_letter hx) (by simp [isIndicator, Document.ne_of_letter hx])
      (by simp [Document.ne_of_letter hx]) (by simp [Document.ne_of_letter hx])
  have hread : plainScalar b.inFlow b.indent b.cursor = ((w, false), b.cursor.skip w.length) := by
    rw [hb.inFlow]
    exact plainScalar_word hw b.indent hu hb.rest
  have hplain := plain_ok hb.saveCandidate hread
  have hword : ∀ c ∈ w, isBreak c = false ∧ c ≠ '\ufeff' := fun c hc =>
    ⟨isBreak_eq_false (hw.full c hc), Document.ne_of_letter (hletters c hc) (by decide)⟩
  have hrest := Cursor.rest_skip_append hb.rest
  have hcolumn : (b.cursor.skip w.length).column = n + w.length := by
    rw [Cursor.column_skip hb.rest hword, hb.column]
  have hskip := hb.fits.skip w.length
  refine ⟨_, _, ⟨⟨b, happroach, ?_, htoken.trans hplain⟩, ?_⟩, approach_here ?_ ?_ ?_, rfl, rfl, rfl, ?_⟩
  · rw [Cursor.peek_of_cons hb'.rest]
    exact Document.ne_of_letter hx (by decide)
  · change (b.cursor.skip w.length).left < l.cursor.left
    have hpos := List.length_pos_of_ne_nil hw.ne
    rw [hb.fits.left_eq, hb.rest, List.length_append] at hleft
    rw [hskip.left_eq, hrest]
    omega
  · change StartsToken (b.cursor.skip w.length).rest
    rw [hrest]
    exact startsToken_cons (by decide)
  · -- the word is short and stands on one line
    have hline := Cursor.line_skip hb.rest fun c hc => (hword c hc).1
    have hindex := Cursor.index_skip hb.rest
    intro k hk
    obtain rfl := List.mem_singleton.1 hk
    simp only [isStale, allowing, emit, hline, hindex, bne_self_eq_false, Bool.false_or, decide_eq_false_iff_not]
    omega
  · change unwind _ ((b.cursor.skip w.length).column : Int) = _
    rw [hcolumn]
    refine unwind_of_le hb.inFlow ?_
    change b.indent ≤ _
    rw [hb.indent]
    omega
  · have htrail := congrArg (Trail.add · (.scalar (String.ofList w) true)) hb.trail
    exact ⟨hb.depth, rfl, rfl, htrail.trans (trail_add _ _), hskip, hrest, hcolumn, hb.indent, hb.outer⟩

/-- A word and a colon are a key. -/
theorem key (h : Faces l true n i outer ts (w ++ ':' :: u)) (hi : i ≤ n) (hw : IsWord w)
    (hletters : ∀ c ∈ w, 'a' ≤ c ∧ c ≤ 'z') (hshort : w.length < keyReach) (hu : startsWithGap u = true) :
    ∃ l', Leads l l' ∧ InBlock l' false (n + w.length + 1) n (if i < n then i :: outer else outer)
      (ts ++ (if i < n then [.blockMappingStart] else []) ++ [.key, .scalar (String.ofList w) true, .value]) u := by
  obtain ⟨l₁, k, hstep, happroach, hk, hplace, hcolumn, h₁⟩ := h.word hi hw hletters hshort hu
  have hpos : 0 < n + w.length := Nat.add_pos_right _ (List.length_pos_of_ne_nil hw.ne)
  obtain ⟨l₂, htoken, h₂⟩ := token_colon h₁ hk hplace hcolumn hi hpos hu
  refine ⟨l₂, .tail (.single hstep) ⟨⟨l₁, happroach, ?_, htoken⟩, ?_⟩, h₂⟩
  · have hpeek : l₁.cursor.peek = ':' := Cursor.peek_of_cons h₁.rest
    rw [hpeek]
    decide
  · have hleft : l₁.cursor.left = u.length + 1 := by rw [Cursor.Fits.left_eq h₁.fits, h₁.rest, List.length_cons]
    rw [h₂.fits.left_eq, h₂.rest, hleft]
    exact Nat.lt_succ_self _

/-! ## Entries -/

/-- A hyphen in the column of the list. -/
theorem entry (h : Faces l true n n outer ts ('-' :: ' ' :: u)) :
    ∃ l', Step l l' ∧ InBlock l' true (n + 1) n outer (ts ++ [.blockEntry]) (' ' :: u) := by
  refine h.step (Int.le_refl _) (by decide) fun a ha => ?_
  have hmarker : ∀ m, a.cursor.hasMarker m = false := by
    intro m
    simp only [Cursor.hasMarker, ha.rest, List.take_succ_cons, Bool.and_eq_false_iff, decide_eq_false_iff_not]
    refine .inl ?_
    rintro ⟨⟩
  have hgap : isGap (a.cursor.ahead 1) = true := ha.isGap_ahead
  have htoken : a.token = a.blockEntry := by
    simp [token, Cursor.peek_of_cons ha.rest, hmarker, hgap]
  have hopen : a.openHere .blockSequenceStart = .ok a := by
    rw [openHere, ha.inFlow, ha.keys, openBlock, ha.indent, ha.column, if_neg (Int.lt_irrefl _)]
    rfl
  have hentry : a.blockEntry = .ok ((a.allowing true).emit .blockEntry a.cursor.next) := by
    simp only [blockEntry, hopen, bind, Except.bind, dropCandidate_of_nil ha.candidates]
    rfl
  have hemit := ha.emit (by decide) true .blockEntry
  refine ⟨_, htoken.trans hentry, ?_, hemit⟩
  rw [hemit.fits.left_eq, hemit.rest]

/-! ## Values -/

/-- A text in quotes. -/
theorem quoted {q : Char} {e r : List Char} (h : Faces l false column i outer ts (q :: e ++ q :: u)) (hq : IsQuote q)
    (he : Quotes q e (some r)) (hu : u.head? ≠ some q) (hi : i ≤ column) :
    ∃ l', Step l l' ∧ ∃ column', InBlock l' false column' i outer (ts ++ [.scalar (String.ofList r) false]) u := by
  refine h.step hi (by rcases hq with rfl | rfl <;> decide) fun a ha => ?_
  have hscalar : quotedScalar a.cursor = .ok (r, a.cursor.skip (e.length + 2)) := he.scalar ha.fits ha.rest hu
  have hrest : a.cursor.rest = (q :: e ++ [q]) ++ u := by rw [ha.rest, List.append_assoc]; rfl
  have hskip := Cursor.rest_skip_append hrest
  rw [List.length_append, List.length_cons, List.length_singleton] at hskip
  have hfits := ha.fits.skip (e.length + 2)
  have htrail := (congrArg (Trail.add · (.scalar (String.ofList r) false)) ha.trail).trans (trail_add _ _)
  refine ⟨_, quoted_ok ha.rest hq ha.saveCandidate_of_not hscalar, ?_, (a.cursor.skip (e.length + 2)).column,
    ha.depth, rfl, ha.candidates, htrail, hfits, hskip, rfl, ha.indent, ha.outer⟩
  change (a.cursor.skip (e.length + 2)).left ≤ _
  rw [hfits.left_eq, hskip, List.append_eq, List.length_append, List.length_cons]
  omega

/-- A plain text, after which a key may start on the next line. -/
theorem plain (hs : allowsPlain s = true) {m : Nat}
    (h : Faces l false column n outer ts (foldedChars (n + 2) false m none s ++ ('\n' :: spaces k ++ u)))
    (hcolumn : n < column) (hk : k ≤ n) (hu : LineStart u) :
    ∃ l', Step l l' ∧ Faces l' true k n outer (ts ++ [.scalar (String.ofList s) true]) u := by
  obtain ⟨x, r, rfl, hstart⟩ := allowsPlain_start hs
  obtain ⟨m', hfolded⟩ := hstart.folded (n + 2) m
  have h' : Faces l false column n outer ts
      (x :: (foldedChars (n + 2) false m' (some x) r ++ ('\n' :: spaces k ++ u))) := by
    rwa [hfolded] at h
  refine h'.step (by omega) (ne_of_isGap_eq_false hstart.full (by decide)) fun a ha => ?_
  have htoken : a.token = a.plain := by
    refine ha.token_plain hstart.full hstart.mark (fun hx => ?_) (fun hzero => by omega)
    exact (startsWithGap_folded hstart.chars (v := spaces k ++ u)).trans (hstart.first hx)
  have hrest : a.cursor.rest = foldedChars (n + 2) false m none (x :: r) ++ ('\n' :: spaces k ++ u) := by
    rw [ha.rest, hfolded]
    rfl
  have hread := (congrArg₂ (plainScalar · · a.cursor) ha.inFlow ha.indent).trans
    (plainScalar_folded hs (by omega) (by omega) hu ha.fits (by rw [ha.column]; omega) hrest)
  have hskip := Cursor.rest_skip_append hrest
  have hcolumn' := Cursor.column_skip_line hskip
  have hrest' : ((a.cursor.skip (foldedChars (n + 2) false m none (x :: r)).length).skip (k + 1)).rest = u := by
    have hline := Cursor.rest_skip_append (t := '\n' :: spaces k) hskip
    rwa [List.length_cons, length_spaces] at hline
  rw [Cursor.skip_skip] at hcolumn' hrest'
  have hfits := ha.fits.skip ((foldedChars (n + 2) false m none (x :: r)).length + (k + 1))
  have htrail := (congrArg (Trail.add · (.scalar (String.ofList (x :: r)) true)) ha.trail).trans (trail_add _ _)
  have hblock : InBlock ((a.allowing true).emit (.scalar (String.ofList (x :: r)) true)
      (a.cursor.skip ((foldedChars (n + 2) false m none (x :: r)).length + (k + 1)))) true k n outer
      (ts ++ [.scalar (String.ofList (x :: r)) true]) (spaces 0 ++ u) :=
    ⟨ha.depth, rfl, ha.candidates, htrail, hfits, hrest', hcolumn', ha.indent, ha.outer⟩
  refine ⟨_, htoken.trans (plain_ok ha.saveCandidate_of_not hread), ?_, hblock.faces_spaces hu.head⟩
  rw [hblock.fits.left_eq, hblock.rest, List.length_append, List.length_append]
  simp only [List.length_append, List.length_cons, length_spaces]
  omega

/-- A list without items. -/
theorem brackets (h : Faces l false column i outer ts ('[' :: ']' :: u)) (hi : i ≤ column) :
    ∃ l', Leads l l' ∧
      ∃ column', InBlock l' false column' i outer (ts ++ [.flowSequenceStart, .flowSequenceEnd]) u := by
  obtain ⟨l₁, hstep, b, hb, rfl⟩ : ∃ l₁, Step l l₁ ∧ ∃ b, InBlock b false column i outer ts ('[' :: ']' :: u) ∧
      l₁ = ({ b with flowDepth := b.flowDepth + 1 }.allowing true).emit .flowSequenceStart b.cursor.next := by
    refine h.step hi (by decide) fun a ha => ?_
    refine ⟨_, ?_, ?_, a, ha, rfl⟩
    · rw [token_openFlow ha.rest (.inl ⟨rfl, rfl⟩), openFlow, ha.saveCandidate_of_not]
      rfl
    · change a.cursor.next.left ≤ _
      rw [ha.fits.next.left_eq, Cursor.rest_next_of_cons ha.rest]
  -- inside the flow
  have hrest : b.cursor.next.rest = ']' :: u := Cursor.rest_next_of_cons hb.rest
  have hfits := hb.fits.next
  have hblock := (hb.emit (by decide) true .flowSequenceStart).emit (by decide) false .flowSequenceEnd
  rw [List.append_assoc] at hblock
  refine ⟨_, .tail (.single hstep) ⟨⟨_, approach_here ?_ ?_ ?_, ?_, ?_⟩, ?_⟩, _, hblock⟩
  · change StartsToken b.cursor.next.rest
    rw [hrest]
    exact startsToken_cons (by decide)
  · change ∀ k ∈ b.candidates, _
    rw [hb.candidates]
    exact nofun
  · rfl
  · change b.cursor.next.peek ≠ _
    rw [Cursor.peek_of_cons hrest]
    decide
  · refine (token_closeFlow hrest (.inl ⟨rfl, rfl⟩)).trans ((closeFlow_ok (dropCandidate_of_nil ?_) ?_ _).trans ?_)
    · exact hb.candidates
    · rfl
    · rfl
  · rw [hblock.fits.left_eq, hblock.rest]
    change _ < b.cursor.next.left
    rw [hfits.left_eq, hrest, List.length_cons]
    omega

end Faces

end Entail.Yaml.Lexer
