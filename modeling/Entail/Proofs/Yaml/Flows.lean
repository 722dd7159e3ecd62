import Entail.Proofs.Yaml.Lexing

/-!
# Reading flows

* `Lexer.InFlow l depth keys ts u` : between two tokens of a flow, with the tokens read and the text ahead;
* `Lexer.InFlow.opens`, `closes`, `entry`, `text`, `key` : what each token does;
* `Lexer.Goes l K Q` : the lexer comes to a state with `Q` if `K` holds, and to a fault if not.
-/

namespace Entail.Yaml.Lexer

variable {l l' a : Lexer} {depth k : Nat} {keys : Bool} {ts : List Token} {u g : List Char} {x : Char}

/-! ## Outcomes -/

/-- Under a condition the lexer comes to a state of a kind, and else to a fault. -/
def Goes (l : Lexer) (K : Prop) (Q : Lexer → Prop) : Prop := (K ∧ ∃ l', Leads l l' ∧ Q l') ∨ (¬ K ∧ l.Fails)

namespace Goes

variable {K K' : Prop} {Q Q' : Lexer → Prop}

theorem refl (hK : K) (h : Q l) : l.Goes K Q := .inl ⟨hK, l, .refl, h⟩

theorem of_leads (h : Leads l l') (h' : l'.Goes K Q) : l.Goes K Q := by
  rcases h' with ⟨hK, l'', hleads, hQ⟩ | ⟨hK, hfails⟩
  · exact .inl ⟨hK, l'', h.trans hleads, hQ⟩
  · exact .inr ⟨hK, fails_of_leads h hfails⟩

theorem bind (h : l.Goes K Q) (h' : ∀ l', Q l' → l'.Goes K' Q') : l.Goes (K ∧ K') Q' := by
  rcases h with ⟨hK, l', hleads, hQ⟩ | ⟨hK, hfails⟩
  · rcases of_leads hleads (h' l' hQ) with ⟨hK', hrest⟩ | ⟨hK', hfails⟩
    · exact .inl ⟨⟨hK, hK'⟩, hrest⟩
    · exact .inr ⟨fun h => hK' h.2, hfails⟩
  · exact .inr ⟨fun h => hK h.1, hfails⟩

theorem mono (h : l.Goes K Q) (hK : K ↔ K') (hQ : ∀ l', Q l' → Q' l') : l.Goes K' Q' := by
  rcases h with ⟨hk, l', hleads, hq⟩ | ⟨hk, hfails⟩
  · exact .inl ⟨hK.1 hk, l', hleads, hQ l' hq⟩
  · exact .inr ⟨mt hK.2 hk, hfails⟩

end Goes

/-! ## Between tokens -/

/-- Between two tokens of a flow: no block is open, and no candidate is required. -/
structure InFlow (l : Lexer) (depth : Nat) (keys : Bool) (ts : List Token) (u : List Char) : Prop where
  depth : l.flowDepth = depth
  keys : l.keysAllowed = keys
  trail : l.trail = ⟨ts.reverse, ts.length⟩
  fits : l.cursor.Fits
  rest : l.cursor.rest = u
  free : ∀ k ∈ l.candidates, k.2.isRequired = false
  indent : l.indent = -1
  outer : l.outer = []

def IsFlowGap (depth : Nat) (g : List Char) : Prop := ∃ k, g = spaces k ∨ depth ≠ 0 ∧ g = '\n' :: spaces k

theorem IsFlowGap.none (depth : Nat) : IsFlowGap depth [] := ⟨0, .inl rfl⟩

theorem IsFlowGap.space (depth : Nat) : IsFlowGap depth [' '] := ⟨1, .inl rfl⟩

theorem IsFlowGap.line (depth k : Nat) : IsFlowGap (depth + 1) ('\n' :: spaces k) := ⟨k, .inr ⟨Nat.succ_ne_zero _, rfl⟩⟩

theorem unwind_of_outer (hindent : l.indent = -1) (houter : l.outer = []) (column : Int) : l.unwind column = l := by
  unfold unwind
  split
  · rfl
  · rw [hindent, houter, closeBlocks, ← hindent, ← houter]

namespace InFlow

theorem of_eq {t : List Token} {v : List Char} (h : InFlow l depth keys ts u) (hts : ts = t) (hu : u = v) :
    InFlow l depth keys t v := hts ▸ hu ▸ h

theorem skipGap_eq (h : InFlow l depth keys ts (g ++ u)) (hg : IsFlowGap depth g) (hu : StartsToken u) :
    skipGap l.inFlow (l.cursor.left + 1) l.keysAllowed l.cursor = (keys, l.cursor.skip g.length) ∧
      l.cursor.peek ≠ '\ufeff' := by
  obtain ⟨k, rfl | ⟨hdepth, rfl⟩⟩ := hg
  · rw [skipGap_spaces _ _ _ hu h.rest, h.keys, length_spaces]
    refine ⟨rfl, ?_⟩
    cases k with
    | zero => exact peek_eq_of_head (p := fun a => a ≠ '\ufeff') (fun a ha => (hu a ha).2.2.2) (by decide) h.rest
    | succ k =>
      rw [Cursor.peek_of_cons h.rest]
      decide
  · obtain ⟨left, hleft⟩ : ∃ m, l.cursor.left = m + 1 := by
      rw [h.fits.left_eq, h.rest]
      exact ⟨_, rfl⟩
    have hflow : l.inFlow = true := by simpa [inFlow, h.depth] using hdepth
    rw [hleft, skipGap_line _ _ _ hu h.rest, h.keys, hflow, Bool.not_true, Bool.or_false, List.length_cons,
      length_spaces]
    refine ⟨rfl, ?_⟩
    rw [Cursor.peek_of_cons h.rest]
    decide

/-- The lexer moves to a token, and keeps the candidates that are in reach. -/
theorem approach (h : InFlow l depth keys ts (g ++ u)) (hg : IsFlowGap depth g) (hu : StartsToken u) :
    ∃ a, l.approach = .ok a ∧ InFlow a depth keys ts u ∧ a.cursor = l.cursor.skip g.length ∧
      a.candidates = l.candidates.filter fun k => !a.isStale k.2 := by
  obtain ⟨hgap, hmark⟩ := h.skipGap_eq hg hu
  have happroach := approach_eq hmark hgap fun k hk _ => h.free k hk
  have hunwind := fun (b : Lexer) (hindent : b.indent = -1) (houter : b.outer = []) =>
    unwind_of_outer hindent houter (l.cursor.skip g.length).column
  refine ⟨_, happroach.trans (congrArg Except.ok (hunwind _ h.indent h.outer)), ?_, rfl, rfl⟩
  exact ⟨h.depth, rfl, h.trail, h.fits.skip _, Cursor.rest_skip_append h.rest,
    fun k hk => h.free k (List.mem_filter.1 hk).1, h.indent, h.outer⟩

/-- One token is read if it can be read where it starts. -/
theorem step (h : InFlow l depth keys ts (g ++ x :: u)) (hg : IsFlowGap depth g) (hx : StartsToken (x :: u))
    (hend : x ≠ endMark) {Q : Lexer → Prop}
    (htoken : ∀ a, InFlow a depth keys ts (x :: u) → ∃ l', a.token = .ok l' ∧ l'.cursor.left ≤ u.length ∧ Q l') :
    ∃ l', Step l l' ∧ Q l' := by
  obtain ⟨a, happroach, ha, -⟩ := h.approach hg hx
  obtain ⟨l', hl', hleft, hQ⟩ := htoken a ha
  refine ⟨l', ⟨⟨a, happroach, by rwa [Cursor.peek_of_cons ha.rest], hl'⟩, ?_⟩, hQ⟩
  rw [h.fits.left_eq, h.rest, List.length_append, List.length_cons]
  omega

/-- A key may be noted to start here, and is never required. -/
theorem saveCandidate (h : InFlow a depth keys ts u) :
    ∃ ks, a.saveCandidate = .ok { a with candidates := ks } ∧ (∀ k ∈ ks, k.2.isRequired = false) ∧
      (keys = true → ∃ k ks', ks = (a.flowDepth, k) :: ks' ∧ k.place = ts.length ∧ k.index = a.cursor.index ∧
        k.line = a.cursor.line) := by
  unfold Lexer.saveCandidate
  split
  · obtain ⟨ks, hdrop, hks⟩ := dropCandidate_of_free h.free
    rw [hdrop]
    have hrequired : (!a.inFlow && a.indent == (a.cursor.column : Int)) = false := by
      have hne : (-1 : Int) ≠ (a.cursor.column : Int) := by omega
      rw [h.indent, beq_eq_false_iff_ne.2 hne, Bool.and_false]
    refine ⟨_, rfl, List.forall_mem_cons.2 ⟨hrequired, fun k hk => h.free k (hks k hk)⟩, fun _ => ?_⟩
    exact ⟨_, ks, rfl, congrArg Trail.count h.trail, rfl, rfl⟩
  next hkeys =>
    refine ⟨a.candidates, rfl, h.free, fun htrue => ?_⟩
    rw [h.keys] at hkeys
    exact absurd htrue hkeys

theorem left_next (h : InFlow a depth keys ts (x :: u)) : a.cursor.next.left = u.length := by
  rw [h.fits.next.left_eq, Cursor.rest_next_of_cons h.rest]

theorem trail_add (h : InFlow a depth keys ts u) (t : Token) :
    a.trail.add t = ⟨(ts ++ [t]).reverse, (ts ++ [t]).length⟩ := by
  rw [h.trail, Trail.add, List.reverse_append, List.length_append]
  rfl

/-! ## The ends of the text -/

theorem start (text : List Char) : InFlow { cursor := .start text } 0 true [] text :=
  ⟨rfl, rfl, rfl, Nat.zero_add _, rfl, nofun, rfl, rfl⟩

theorem ends (h : InFlow l 0 keys ts []) : l.Ends ts := by
  obtain ⟨a, happroach, ha, -⟩ := approach (g := []) h (.none 0) startsToken_nil
  obtain ⟨ks, hdrop, -⟩ := dropCandidate_of_free ha.free
  have htrail : a.trail.tokens.reverse = ts := by rw [ha.trail, List.reverse_reverse]
  refine ⟨a, { a with candidates := ks }, happroach, Cursor.peek_of_nil ha.rest, ?_, htrail⟩
  rw [unwind_of_outer ha.indent ha.outer, hdrop]

/-! ## Marks -/

/-- A mark that opens a flow. -/
theorem opens (h : InFlow l depth keys ts (g ++ x :: u)) (hg : IsFlowGap depth g) {t : Token}
    (hx : x = '[' ∧ t = .flowSequenceStart ∨ x = '\x7b' ∧ t = .flowMappingStart) :
    ∃ l', Step l l' ∧ InFlow l' (depth + 1) true (ts ++ [t]) u := by
  have hstart : StartsToken (x :: u) ∧ x ≠ endMark := by
    rcases hx with ⟨rfl, -⟩ | ⟨rfl, -⟩
    · exact ⟨startsToken_cons (by decide), by decide⟩
    · exact ⟨startsToken_cons (by decide), by decide⟩
  refine h.step hg hstart.1 hstart.2 fun a ha => ?_
  obtain ⟨ks, hsave, hfree, -⟩ := ha.saveCandidate
  rw [token_openFlow ha.rest hx, openFlow, hsave]
  refine ⟨_, rfl, Nat.le_of_eq ha.left_next, ?_⟩
  exact ⟨congrArg (· + 1) ha.depth, rfl, ha.trail_add t, ha.fits.next, Cursor.rest_next_of_cons ha.rest, hfree,
    ha.indent, ha.outer⟩

/-- A mark that closes a flow. -/
theorem closes (h : InFlow l (depth + 1) keys ts (g ++ x :: u)) (hg : IsFlowGap (depth + 1) g) {t : Token}
    (hx : x = ']' ∧ t = .flowSequenceEnd ∨ x = '\x7d' ∧ t = .flowMappingEnd) :
    ∃ l', Step l l' ∧ InFlow l' depth false (ts ++ [t]) u := by
  have hstart : StartsToken (x :: u) ∧ x ≠ endMark := by
    rcases hx with ⟨rfl, -⟩ | ⟨rfl, -⟩
    · exact ⟨startsToken_cons (by decide), by decide⟩
    · exact ⟨startsToken_cons (by decide), by decide⟩
  refine h.step hg hstart.1 hstart.2 fun a ha => ?_
  obtain ⟨ks, hdrop, hks⟩ := dropCandidate_of_free ha.free
  have hflow : a.inFlow = true := by simp [inFlow, ha.depth]
  rw [token_closeFlow ha.rest hx, closeFlow_ok hdrop hflow]
  refine ⟨_, rfl, Nat.le_of_eq ha.left_next, ?_⟩
  exact ⟨by rw [ha.depth]; rfl, rfl, ha.trail_add t, ha.fits.next, Cursor.rest_next_of_cons ha.rest,
    fun k hk => ha.free k (hks k hk), ha.indent, ha.outer⟩

/-- The comma between items and entries of a flow. -/
theorem entry (h : InFlow l depth keys ts (',' :: u)) :
    ∃ l', Step l l' ∧ InFlow l' depth true (ts ++ [.flowEntry]) u := by
  refine step (g := []) h (.none depth) (startsToken_cons (by decide)) (by decide) fun a ha => ?_
  have htoken : a.token = a.flowEntry := by
    have hmarker : ∀ m, ',' ≠ m → a.cursor.hasMarker m = false := fun m => hasMarker_of_cons ha.rest
    simp [token, Cursor.peek_of_cons ha.rest, hmarker '-' (by decide), hmarker '.' (by decide)]
  obtain ⟨ks, hdrop, hks⟩ := dropCandidate_of_free ha.free
  rw [htoken, flowEntry, hdrop]
  refine ⟨_, rfl, Nat.le_of_eq ha.left_next, ?_⟩
  exact ⟨ha.depth, rfl, ha.trail_add _, ha.fits.next, Cursor.rest_next_of_cons ha.rest,
    fun k hk => ha.free k (hks k hk), ha.indent, ha.outer⟩

/-! ## Texts -/

/-- A text is read, and a key may start with it. -/
theorem token_text {s e : List Char} (h : InFlow a depth keys ts ('"' :: e ++ '"' :: u)) (he : Quotes '"' e (some s))
    (hu : u.head? ≠ some '"') :
    ∃ l', a.token = .ok l' ∧ l'.cursor = a.cursor.skip (e.length + 2) ∧
      InFlow l' depth false (ts ++ [.scalar (String.ofList s) false]) u ∧
      (keys = true → ∃ k ks, l'.candidates = (l'.flowDepth, k) :: ks ∧ k.place = ts.length ∧ k.index = a.cursor.index ∧
        k.line = a.cursor.line) := by
  obtain ⟨ks, hsave, hfree, hkeys⟩ := h.saveCandidate
  have hscalar : quotedScalar a.cursor = .ok (s, a.cursor.skip (e.length + 2)) := he.scalar h.fits h.rest hu
  have hrest : a.cursor.rest = ('"' :: e ++ ['"']) ++ u := by rw [h.rest, List.append_assoc]; rfl
  have hskip := Cursor.rest_skip_append hrest
  rw [List.length_append, List.length_cons, List.length_singleton] at hskip
  refine ⟨_, quoted_ok h.rest (.inl rfl) hsave hscalar, rfl, ?_, hkeys⟩
  exact ⟨h.depth, rfl, h.trail_add _, h.fits.skip _, hskip, hfree, h.indent, h.outer⟩

theorem text {s e : List Char} (h : InFlow l depth keys ts (g ++ ('"' :: e ++ '"' :: u))) (hg : IsFlowGap depth g)
    (he : Quotes '"' e (some s)) (hu : u.head? ≠ some '"') :
    ∃ l', Step l l' ∧ InFlow l' depth false (ts ++ [.scalar (String.ofList s) false]) u := by
  refine h.step hg (startsToken_cons (by decide)) (by decide) fun a ha => ?_
  obtain ⟨l', htoken, -, hl', -⟩ := ha.token_text he hu
  refine ⟨l', htoken, ?_, hl'⟩
  rw [hl'.fits.left_eq, hl'.rest, List.append_eq, List.length_append, List.length_cons]
  omega

/-- A text that cannot be read is a fault. -/
theorem fails {e : List Char} (h : InFlow l depth keys ts (g ++ ('"' :: e ++ '"' :: u))) (hg : IsFlowGap depth g)
    (he : Quotes '"' e none) (hu : u.head? ≠ some '"') : l.Fails := by
  obtain ⟨a, happroach, ha, -⟩ := h.approach hg (startsToken_cons (by decide))
  obtain ⟨ks, hsave, -, -⟩ := ha.saveCandidate
  obtain ⟨f, hscalar⟩ : ∃ f, quotedScalar a.cursor = .error f := he.scalar ha.fits ha.rest hu
  refine fails_of_token (f := f) happroach ?_ ?_
  · rw [Cursor.peek_of_cons ha.rest]
    decide
  · exact quoted_error ha.rest (.inl rfl) hsave hscalar

/-! ## Keys -/

/-- The colon behind a text that started where a key may start. -/
theorem token_colon {w : Token} (h : InFlow a (depth + 1) keys (ts ++ [w]) (':' :: u)) {k : Candidate}
    {ks : List (Nat × Candidate)} (hk : a.candidates = (a.flowDepth, k) :: ks) (hplace : k.place = ts.length) :
    ∃ l', a.token = .ok l' ∧ InFlow l' (depth + 1) false (ts ++ [.key, w, .value]) u := by
  have hflow : a.inFlow = true := by simp [inFlow, h.depth]
  have htoken : a.token = a.value := by
    have hmarker : ∀ m, ':' ≠ m → a.cursor.hasMarker m = false := fun m => hasMarker_of_cons h.rest
    simp [token, Cursor.peek_of_cons h.rest, hmarker '-' (by decide), hmarker '.' (by decide), hflow]
  have hcandidate : a.candidate? = some k := by simp [candidate?, hk]
  have hinsert : a.trail.insert k.place .key = ⟨w :: .key :: ts.reverse, ts.length + 2⟩ := by
    rw [h.trail, Trail.insert, hplace, List.reverse_append, List.length_append, List.length_singleton,
      Nat.add_sub_cancel_left]
    rfl
  have hvalue := value_of_candidate hcandidate
  rw [opened_of_flow hflow] at hvalue
  refine ⟨_, htoken.trans hvalue, h.depth, rfl, ?_, h.fits.next, Cursor.rest_next_of_cons h.rest, ?_, h.indent, h.outer⟩
  · change (a.trail.insert k.place .key).add .value = _
    rw [hinsert, Trail.add, List.reverse_append, List.length_append]
    rfl
  · exact fun k hk => h.free k (List.mem_filter.1 hk).1

/-- A text and a colon are a key. -/
theorem key {s e : List Char} (h : InFlow l (depth + 1) true ts (g ++ ('"' :: e ++ '"' :: ':' :: u)))
    (hg : IsFlowGap (depth + 1) g) (he : Quotes '"' e (some s)) (hline : ∀ b ∈ e, isBreak b = false)
    (hlength : e.length < keyReach - 1) :
    ∃ l', Leads l l' ∧ InFlow l' (depth + 1) false (ts ++ [.key, .scalar (String.ofList s) false, .value]) u := by
  obtain ⟨a, happroach, ha, -⟩ := h.approach hg (startsToken_cons (by decide))
  obtain ⟨l₁, htoken, hcursor, hl₁, hcandidate⟩ := ha.token_text he (by simp)
  obtain ⟨k, ks, hks, hplace, hindex, hkline⟩ := hcandidate rfl
  have hstep : Step l l₁ := by
    refine ⟨⟨a, happroach, ?_, htoken⟩, ?_⟩
    · rw [Cursor.peek_of_cons ha.rest]
      decide
    · rw [hl₁.fits.left_eq, hl₁.rest, h.fits.left_eq, h.rest]
      simp only [List.length_append, List.length_cons]
      omega
  obtain ⟨b, happroach', hb, hbcursor, hbcandidates⟩ :=
    approach (g := []) hl₁ (.none _) (startsToken_cons (by decide))
  have hrest : a.cursor.rest = ('"' :: e ++ ['"']) ++ ':' :: u := by rw [ha.rest, List.append_assoc]; rfl
  have hlength' : ('"' :: e ++ ['"']).length = e.length + 2 := by simp
  -- The key is short and ends on its line.
  have hfresh : b.isStale k = false := by
    have hbline : b.cursor.line = a.cursor.line := by
      rw [hbcursor, hcursor, List.length_nil, Cursor.skip_zero, ← hlength']
      refine Cursor.line_skip hrest fun y hy => ?_
      simp only [List.cons_append, List.mem_cons, List.mem_append, List.not_mem_nil, or_false] at hy
      rcases hy with rfl | hy | rfl
      · decide
      · exact hline y hy
      · decide
    have hbindex : b.cursor.index = a.cursor.index + (e.length + 2) := by
      rw [hbcursor, hcursor, List.length_nil, Cursor.skip_zero, ← hlength']
      exact Cursor.index_skip hrest
    simp only [isStale, hbline, hbindex, hkline, hindex, keyReach] at hlength ⊢
    simp
    omega
  have hbdepth : b.flowDepth = l₁.flowDepth := hb.depth.trans hl₁.depth.symm
  have hhead : b.candidates = (b.flowDepth, k) :: ks.filter fun k => !b.isStale k.2 := by
    rw [hbcandidates, hks, List.filter_cons_of_pos (by simp [hfresh]), hbdepth]
  obtain ⟨l₂, htoken', hl₂⟩ := hb.token_colon hhead hplace
  refine ⟨l₂, .tail (.single hstep) ⟨⟨b, happroach', ?_, htoken'⟩, ?_⟩, hl₂⟩
  · rw [Cursor.peek_of_cons hb.rest]
    decide
  · rw [hl₂.fits.left_eq, hl₂.rest, hl₁.fits.left_eq, hl₁.rest, List.length_cons]
    omega

end InFlow

end Entail.Yaml.Lexer
