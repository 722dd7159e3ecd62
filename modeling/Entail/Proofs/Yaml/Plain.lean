import Entail.Proofs.Yaml.Styles

/-!
# Plain texts are read back

* `IsWord w` : a run of a plain scalar;
* `PlainText n t s` : the text `t`, of words with spaces or folds between them, reads as `s` (`PlainText.read`);
* `plainText_folded` : a text that is written plain is such a text;
* `plainScalar_folded`, `plainScalar_word` : a plain scalar up to the end of its lines, or up to the colon of a key.
-/

namespace Entail.Yaml

variable {c : Cursor} {s t u v w : List Char} {n k : Nat}

/-! ## Words and gaps -/

/-- A run of a plain scalar: no gap, no hash mark in front and no colon at the end. -/
structure IsWord (w : List Char) : Prop where
  ne : w ≠ []
  full : ∀ a ∈ w, isGap a = false
  hash : w.head? ≠ some '#'
  colon : w.getLast? ≠ some ':'

/-- A run ends before a gap, and before the colon of a key. -/
theorem plainRun_word (hw : ∀ a ∈ w, isGap a = false) (hcolon : w.getLast? ≠ some ':') (hu : plainRun false u = []) :
    plainRun false (w ++ u) = w := by
  induction w with
  | nil => exact hu
  | cons a w ih =>
    obtain ⟨ha, hw⟩ := List.forall_mem_cons.1 hw
    have hmark : (a = ':' && isGap ((w ++ u).headD endMark)) = false := by
      cases w with
      | nil =>
        have hne : a ≠ ':' := fun h => hcolon (congrArg some h)
        simp [hne]
      | cons b w => simp [hw b (List.mem_cons_self ..)]
    have hcolon' : w.getLast? ≠ some ':' := by
      cases w with
      | nil => simp
      | cons b w => simpa using hcolon
    rw [List.cons_append, plainRun]
    simp only [ha, hmark, Bool.false_and, Bool.or_false, Bool.false_eq_true, if_false]
    rw [ih hw hcolon']

theorem plainRun_of_isGap {a : Char} (ha : isGap a = true) : plainRun false (a :: u) = [] := by simp [plainRun, ha]

theorem plainRun_colon (hu : startsWithGap u = true) : plainRun false (':' :: u) = [] := by
  unfold startsWithGap at hu
  unfold plainRun
  simp only [hu]
  rfl

/-- What follows the indentation of a line: a token, but no line that separates documents. -/
structure LineStart (u : List Char) : Prop where
  head : StartsToken u
  line : separates u = false

theorem LineStart.nil : LineStart [] := ⟨by simp [StartsToken], rfl⟩

theorem separates_spaces (hu : separates u = false) (k : Nat) : separates (spaces k ++ u) = false := by
  cases k with
  | zero => exact hu
  | succ k => exact separates_eq_false (by decide) (by decide)

theorem peek_eq_of_head {p : Char → Prop} (hu : ∀ a ∈ u.head?, p a) (hend : p endMark) (h : c.rest = u) : p c.peek := by
  rw [Cursor.peek_eq, h]
  cases u with
  | nil => exact hend
  | cons a u => exact hu a rfl

theorem plainBreaks_spaces (hu : ∀ a ∈ u.head?, a ≠ ' ' ∧ isBreak a = false) (h : c.rest = spaces k ++ u) {fuel : Nat}
    (hfuel : k < fuel) : plainBreaks fuel c = some ([], c.skip k) := by
  induction k generalizing c fuel with
  | zero =>
    obtain ⟨fuel, rfl⟩ : ∃ m, fuel = m + 1 := ⟨fuel - 1, by omega⟩
    obtain ⟨hspace, hbreak⟩ := peek_eq_of_head hu ⟨by decide, by decide⟩ h
    rw [plainBreaks, if_neg hspace, Cursor.lineBreak?_of_not_isBreak hbreak]
    rfl
  | succ k ih =>
    obtain ⟨fuel, rfl⟩ : ∃ m, fuel = m + 1 := ⟨fuel - 1, by omega⟩
    rw [plainBreaks, if_pos (Cursor.peek_of_cons h), ih (Cursor.rest_next_of_cons h) (by omega)]
    rfl

/-- Spaces between words. -/
theorem plainGap_spaces (hu : ∀ a ∈ u.head?, a ≠ ' ' ∧ isBreak a = false) (h : c.rest = spaces k ++ u) :
    plainGap c = (spaces k, false, c.skip k) := by
  have hrun : c.run (· = ' ') = spaces k := by
    refine Cursor.run_append h (fun a ha => by simp [mem_spaces ha]) fun a ha => ?_
    simpa using (hu a ha).1
  have hbreak := peek_eq_of_head (p := fun a => isBreak a = false) (fun a ha => (hu a ha).2) (by decide)
    (Cursor.rest_skip_spaces h)
  simp only [plainGap, hrun, length_spaces, Cursor.lineBreak?_of_not_isBreak hbreak]

/-- The end of a line and the spaces in front of the next. -/
theorem plainGap_line (hc : c.Fits) (hu : ∀ a ∈ u.head?, a ≠ ' ' ∧ isBreak a = false)
    (hline : separates (spaces k ++ u) = false) (h : c.rest = '\n' :: spaces k ++ u) :
    plainGap c = ([' '], true, c.skip (k + 1)) := by
  have hnext : c.next.rest = spaces k ++ u := Cursor.rest_next_of_cons h
  have hrun : c.run (· = ' ') = [] := by rw [Cursor.run, h]; rfl
  have hleft : k < c.next.left + 1 := by
    rw [hc.next.left_eq, hnext, List.length_append, length_spaces]
    omega
  have hbreak := Cursor.lineBreak?_of_isBreak h (by decide) (by decide)
  have hsep : c.next.atSeparator = false := by rw [Cursor.atSeparator_eq, hnext, hline]
  simp only [plainGap, hrun, List.length_nil, Cursor.skip_zero, hbreak, hsep, Bool.false_eq_true, if_false,
    plainBreaks_spaces hu hnext hleft]
  rfl

/-! ## Plain scalars -/

/-- Words with spaces between them; a space may be written as a break of the line and an indentation. -/
inductive PlainText (n : Nat) : List Char → List Char → Prop
  | word {w : List Char} (hw : IsWord w) : PlainText n w w
  | spaced {w t s : List Char} (hw : IsWord w) (m : Nat) (h : PlainText n t s) :
      PlainText n (w ++ (spaces (m + 1) ++ t)) (w ++ (spaces (m + 1) ++ s))
  | folded {w t s : List Char} (hw : IsWord w) (h : PlainText n t s) :
      PlainText n (w ++ ('\n' :: spaces n ++ t)) (w ++ (' ' :: s))

namespace PlainText

theorem exists_word (h : PlainText n t s) : ∃ a v, t = a :: v ∧ isGap a = false ∧ a ≠ '#' := by
  have hword : ∀ {w u : List Char}, IsWord w → ∃ a v, w ++ u = a :: v ∧ isGap a = false ∧ a ≠ '#' := by
    intro w u hw
    obtain ⟨a, w, rfl⟩ := List.exists_cons_of_ne_nil hw.ne
    exact ⟨a, w ++ u, rfl, hw.full a (List.mem_cons_self ..), fun h => hw.hash (congrArg some h)⟩
  cases h with
  | word hw => simpa using hword (u := []) hw
  | spaced hw m h => exact hword hw
  | folded hw h => exact hword hw

theorem head? (h : PlainText n t s) (u : List Char) : ∀ a ∈ (t ++ u).head?, a ≠ ' ' ∧ isBreak a = false := by
  obtain ⟨a, v, rfl, hgap, -⟩ := h.exists_word
  intro b hb
  obtain rfl : a = b := by simpa using hb
  exact ⟨ne_of_isGap_eq_false hgap rfl, isBreak_eq_false hgap⟩

end PlainText

/-- A word and the gap behind it. -/
theorem plainRuns_word {ind : Int} {fuel : Nat} {gap gap' : List Char} {b b' : Bool} {e : Cursor} (hw : IsWord w)
    (h : c.rest = w ++ u) (hu : plainRun false u = []) (hgap : plainGap (c.skip w.length) = (gap', b', e)) :
    plainRuns false ind (fuel + 1) gap b c =
      if gap'.isEmpty || e.peek = '#' || (e.column : Int) < ind then ((gap ++ w, b'), e)
      else
        let r := plainRuns false ind fuel gap' b' e
        ((gap ++ w ++ r.1.1, r.1.2), r.2) := by
  have hpeek : c.peek ≠ '#' := by
    obtain ⟨a, w, rfl⟩ := List.exists_cons_of_ne_nil hw.ne
    rw [Cursor.peek_of_cons h]
    exact fun ha => hw.hash (congrArg some ha)
  have hrun : (if c.peek = '#' then [] else plainRun false c.rest) = w := by
    rw [if_neg hpeek, h, plainRun_word hw.full hw.colon hu]
  have hne : w.isEmpty = false := by simpa using hw.ne
  rw [plainRuns]
  simp only [hrun, hne, Bool.false_eq_true, if_false, hgap, Bool.not_false, Bool.true_and]

/-- A word and a gap before more of the scalar. -/
theorem plainRuns_gap {ind : Int} {fuel m : Nat} {g : List Char} {b' : Bool} {e : Cursor} (hw : IsWord w)
    (hg : plainRun false (g ++ (t ++ u)) = []) (h : c.rest = w ++ (g ++ (t ++ u)))
    (hgap : plainGap (c.skip w.length) = (spaces (m + 1), b', (c.skip w.length).skip g.length))
    (ht : PlainText n t s) (hcolumn : ind ≤ ((c.skip w.length).skip g.length).column)
    (hread : plainRuns false ind fuel (spaces (m + 1)) b' ((c.skip w.length).skip g.length) =
      ((spaces (m + 1) ++ s, true), e)) (gap : List Char) (b : Bool) :
    plainRuns false ind (fuel + 1) gap b c = ((gap ++ (w ++ (spaces (m + 1) ++ s)), true), e) := by
  obtain ⟨a, v, rfl, hfull, hhash⟩ := ht.exists_word
  have hpeek := Cursor.peek_of_cons (Cursor.rest_skip_append (Cursor.rest_skip_append h))
  rw [plainRuns_word hw h hg hgap, if_neg]
  · simp only [hread, List.append_assoc]
  · simp [hpeek, hhash, hcolumn, spaces_succ]

/-- A plain scalar ends before a line that is indented less than its further lines. -/
theorem PlainText.read (h : PlainText n t s) {ind : Int} (hn : ind ≤ n) (hk : (k : Int) < ind) (hu : LineStart u)
    (hc : c.Fits) (hrest : c.rest = t ++ ('\n' :: spaces k ++ u)) (hcolumn : ind ≤ c.column) (fuel : Nat)
    (hfuel : t.length < fuel) (gap : List Char) (b : Bool) :
    plainRuns false ind fuel gap b c = ((gap ++ s, true), c.skip (t.length + (k + 1))) := by
  have hend : ∀ a ∈ u.head?, a ≠ ' ' ∧ isBreak a = false := fun a ha => ⟨(hu.head a ha).1, (hu.head a ha).2.2.1⟩
  have hword : ∀ {w : List Char}, IsWord w → ∀ a ∈ w, isBreak a = false := fun hw a ha =>
    isBreak_eq_false (hw.full a ha)
  induction h generalizing c fuel gap b with
  | @word w hw =>
    obtain ⟨fuel, rfl⟩ : ∃ m, fuel = m + 1 := ⟨fuel - 1, by omega⟩
    have hskip := Cursor.rest_skip_append hrest
    have hgap := plainGap_line (hc.skip _) hend (separates_spaces hu.line k) hskip
    have hline := Cursor.column_skip_line hskip
    rw [Cursor.skip_skip] at hgap hline
    rw [plainRuns_word hw hrest (plainRun_of_isGap (by decide)) hgap, if_pos]
    simp [hline, hk]
  | @spaced w t s hw m h ih =>
    obtain ⟨fuel, rfl⟩ : ∃ m, fuel = m + 1 := ⟨fuel - 1, by omega⟩
    rw [List.append_assoc, List.append_assoc] at hrest
    have hskip := Cursor.rest_skip_append hrest
    have hskip' := Cursor.rest_skip_append hskip
    have hgap := plainGap_spaces (h.head? _) hskip
    have hle := Cursor.column_le_skip hrest (hword hw)
    have hle' := Cursor.column_le_skip hskip fun a ha => by rw [mem_spaces ha]; decide
    rw [List.length_append, List.length_append] at hfuel
    have hrec := ih (c := (c.skip w.length).skip (spaces (m + 1)).length) ((hc.skip _).skip _) hskip' (by omega)
      fuel (by rw [length_spaces] at hfuel; omega) (spaces (m + 1)) false
    rw [plainRuns_gap hw (plainRun_of_isGap (by decide)) hrest (by rw [hgap, length_spaces]) h (by omega) hrec gap b,
      Cursor.skip_skip, Cursor.skip_skip, List.length_append, List.length_append, Nat.add_assoc, Nat.add_assoc]
  | @folded w t s hw h ih =>
    obtain ⟨fuel, rfl⟩ : ∃ m, fuel = m + 1 := ⟨fuel - 1, by omega⟩
    rw [List.append_assoc, List.append_assoc] at hrest
    have hskip := Cursor.rest_skip_append hrest
    have hskip' := Cursor.rest_skip_append hskip
    have hlength : ('\n' :: spaces n).length = n + 1 := by rw [List.length_cons, length_spaces]
    obtain ⟨a, v, ha, hfull, -⟩ := h.exists_word
    have hsep : separates (spaces n ++ (t ++ ('\n' :: spaces k ++ u))) = false := by
      obtain ⟨n, rfl⟩ : ∃ m, n = m + 1 := ⟨n - 1, by omega⟩
      exact separates_eq_false (by decide) (by decide)
    have hgap := plainGap_line (hc.skip _) (h.head? _) hsep hskip
    have hline := Cursor.column_skip_line hskip
    rw [List.length_append, List.length_append] at hfuel
    have hrec := ih (c := (c.skip w.length).skip ('\n' :: spaces n).length) ((hc.skip _).skip _) hskip'
      (by rw [hlength, hline]; exact hn) fuel (by rw [hlength] at hfuel; omega) (spaces 1) true
    have hread := plainRuns_gap (m := 0) hw (plainRun_of_isGap (by decide)) hrest
      (by rw [hgap, hlength]; rfl) h (by rw [hlength, hline]; exact hn) hrec gap b
    rw [hread, Cursor.skip_skip, Cursor.skip_skip, List.length_append, List.length_append, Nat.add_assoc, Nat.add_assoc]
    rfl

/-! ## Texts that are written plain -/

/-- No word of a text without inner marks ends with a colon. -/
theorem hasInnerMark_word {b : Char} (hw : ∀ a ∈ w, isGap a = false) (hne : w ≠ []) (hv : startsWithGap v = true)
    (h : hasInnerMark b (w ++ v) = false) : w.getLast? ≠ some ':' ∧ ∃ a, hasInnerMark a v = false := by
  induction w generalizing b with
  | nil => exact absurd rfl hne
  | cons c w ih =>
    simp only [List.cons_append, hasInnerMark, Bool.or_eq_false_iff, Bool.and_eq_false_iff] at h
    obtain ⟨⟨hcolon, -⟩, hrest⟩ := h
    cases w with
    | nil =>
      refine ⟨fun hlast => ?_, c, hrest⟩
      obtain rfl : c = ':' := by simpa using hlast
      rcases hcolon with hcolon | hcolon
      · exact absurd hcolon (by decide)
      · exact absurd (hv.symm.trans hcolon) (by decide)
    | cons d w =>
      obtain ⟨hlast, a, ha⟩ := ih (List.forall_mem_cons.1 hw).2 (List.cons_ne_nil _ _) hrest
      exact ⟨by rwa [List.getLast?_cons_cons], a, ha⟩

theorem hasInnerMark_spaces {b : Char} {m : Nat} (h : hasInnerMark b (spaces (m + 1) ++ v) = false) :
    hasInnerMark ' ' v = false := by
  induction m generalizing b with
  | zero =>
    simp only [spaces_succ, List.cons_append, hasInnerMark, Bool.or_eq_false_iff] at h
    exact h.2
  | succ m ih =>
    rw [spaces_succ, List.cons_append, hasInnerMark, Bool.or_eq_false_iff] at h
    exact ih h.2

/-- Words are written as they are. -/
theorem foldedChars_word (indent column : Nat) (before : Option Char) (hw : ∀ a ∈ w, isGap a = false) (v : List Char) :
    ∃ column' before', foldedChars indent false column before (w ++ v) =
      w ++ foldedChars indent false column' before' v := by
  induction w generalizing column before with
  | nil => exact ⟨column, before, rfl⟩
  | cons a w ih =>
    obtain ⟨ha, hw⟩ := List.forall_mem_cons.1 hw
    have hkept := isKeptBreak_eq_false ha
    obtain ⟨column', hchar⟩ := foldedChars_char indent column false before (ne_of_isGap_eq_false ha rfl) hkept (w ++ v)
    obtain ⟨column'', before'', hrest⟩ := ih column' (some a) hw
    refine ⟨column'', before'', ?_⟩
    rw [List.cons_append, hchar, hrest]
    simp

/-- A text starts with a word up to its first space. -/
theorem exists_word (hs : ∀ a ∈ s, a = ' ' ∨ isGap a = false) :
    ∃ w v, s = w ++ v ∧ (∀ a ∈ w, isGap a = false) ∧ ∀ a ∈ v.head?, a = ' ' := by
  induction s with
  | nil => exact ⟨[], [], rfl, by simp, by simp⟩
  | cons a s ih =>
    obtain ⟨ha, hs⟩ := List.forall_mem_cons.1 hs
    rcases ha with rfl | ha
    · exact ⟨[], ' ' :: s, rfl, by simp, by simp⟩
    · obtain ⟨w, v, rfl, hw, hv⟩ := ih hs
      exact ⟨a :: w, v, rfl, List.forall_mem_cons.2 ⟨ha, hw⟩, hv⟩

/-- A text without inner marks starts with a word, behind which there are spaces unless it ends. -/
theorem exists_isWord {b : Char} (hne : s ≠ []) (hs : ∀ a ∈ s, a = ' ' ∨ isGap a = false)
    (hhead : s.head? ≠ some ' ' ∧ s.head? ≠ some '#') (hmark : hasInnerMark b s = false) :
    ∃ w m r d, s = w ++ (spaces m ++ r) ∧ IsWord w ∧ r.head? ≠ some ' ' ∧ (m = 0 → r = []) ∧
      hasInnerMark d (spaces m ++ r) = false := by
  obtain ⟨w, v, rfl, hw, hv⟩ := exists_word hs
  have hwne : w ≠ [] := by
    rintro rfl
    obtain ⟨a, v, rfl⟩ := List.exists_cons_of_ne_nil hne
    obtain rfl := hv a rfl
    exact hhead.1 rfl
  have hgap : startsWithGap v = true := by
    cases v with
    | nil => rfl
    | cons a v =>
      obtain rfl := hv a rfl
      rfl
  obtain ⟨hcolon, d, hrest⟩ := hasInnerMark_word hw hwne hgap hmark
  have hhash : w.head? ≠ some '#' := by
    obtain ⟨a, w, rfl⟩ := List.exists_cons_of_ne_nil hwne
    exact hhead.2
  obtain ⟨m, r, rfl, hr⟩ := exists_spaces v
  refine ⟨w, m, r, d, rfl, ⟨hwne, hw, hhash, hcolon⟩, hr, ?_, hrest⟩
  rintro rfl
  cases r with
  | nil => rfl
  | cons a r => exact absurd (congrArg some (hv a rfl)) hr

/-- What follows the spaces behind a word. -/
theorem spaces_before {m : Nat} {d : Char} {r : List Char} (hlast : (w ++ (spaces (m + 1) ++ r)).getLast? ≠ some ' ')
    (hmark : hasInnerMark d (spaces (m + 1) ++ r) = false) :
    r ≠ [] ∧ r.head? ≠ some '#' ∧ r.getLast? ≠ some ' ' ∧ hasInnerMark ' ' r = false := by
  have hne : r ≠ [] := by
    rintro rfl
    rw [List.append_nil, spaces_succ, List.getLast?_append_cons, ← spaces_succ, spaces,
      List.getLast?_replicate] at hlast
    exact hlast rfl
  have hmark' := hasInnerMark_spaces hmark
  refine ⟨hne, ?_, ?_, hmark'⟩
  · obtain ⟨a, r, rfl⟩ := List.exists_cons_of_ne_nil hne
    intro ha
    obtain rfl : a = '#' := by simpa using ha
    simp [hasInnerMark, isGap, isSpaceOrEnd] at hmark'
  · rwa [List.getLast?_append_of_ne_nil _ (List.append_ne_nil_of_right_ne_nil _ hne),
      List.getLast?_append_of_ne_nil _ hne] at hlast

/-- A text without inner marks that neither starts nor ends with a space is written as words. -/
theorem plainText_folded (column : Nat) (before : Option Char) {b : Char} (size : Nat) (hsize : s.length ≤ size)
    (hne : s ≠ []) (hs : ∀ a ∈ s, a = ' ' ∨ isGap a = false) (hhead : s.head? ≠ some ' ' ∧ s.head? ≠ some '#')
    (hlast : s.getLast? ≠ some ' ') (hmark : hasInnerMark b s = false) :
    PlainText n (foldedChars n false column before s) s := by
  induction size generalizing s column before b with
  | zero => exact absurd (List.eq_nil_of_length_eq_zero (Nat.le_zero.1 hsize)) hne
  | succ size ih =>
    obtain ⟨w, m, r, d, rfl, hword, hr, hend, hrest⟩ := exists_isWord hne hs hhead hmark
    obtain ⟨column', before', hfolded⟩ := foldedChars_word n column before hword.full (spaces m ++ r)
    rw [hfolded]
    cases m with
    | zero =>
      obtain rfl := hend rfl
      rw [show spaces 0 ++ [] = [] from rfl, foldedChars, List.append_nil]
      exact .word hword
    | succ m =>
      obtain ⟨hrne, hhash, hlast', hmark'⟩ := spaces_before hlast hrest
      have hlength : r.length ≤ size := by
        rw [List.length_append, List.length_append, length_spaces] at hsize
        omega
      have hchars : ∀ a ∈ r, a = ' ' ∨ isGap a = false := fun a ha =>
        hs a (List.mem_append_right _ (List.mem_append_right _ ha))
      obtain ⟨g, column'', hgap, hg⟩ := foldedChars_spaces n column' false before' m hr
      have htext := ih column'' (some ' ') hlength hrne hchars ⟨hr, hhash⟩ hlast' hmark'
      rw [hgap]
      rcases hg with rfl | ⟨rfl, -, rfl⟩
      · exact .spaced hword m htext
      · exact .folded hword htext

/-! ## Plain scalars as a whole -/

/-- What a text that is written plain is made of. -/
theorem allowsPlain_cases (h : allowsPlain s = true) :
    Kind.ofPlain (String.ofList s) = .str ∧ s ≠ [] ∧ (∀ a ∈ s, a = ' ' ∨ isGap a = false) ∧ s.head? ≠ some ' ' ∧
      s.getLast? ≠ some ' ' ∧ hasBlockMark s = false := by
  simp only [allowsPlain, Bool.and_eq_true, Bool.not_eq_true', Bool.or_eq_false_iff, decide_eq_true_eq,
    decide_eq_false_iff_not, Bool.not_eq_false'] at h
  obtain ⟨⟨⟨⟨⟨hhead, hlast⟩, hbreaks⟩, hun⟩, hmark⟩, hkind⟩ := h
  rw [List.any_eq_false] at hbreaks
  rw [List.all_eq_true] at hun
  refine ⟨hkind, ?_, fun a ha => ?_, hhead, hlast, hmark⟩
  · rintro rfl
    exact absurd hkind (by decide)
  · by_cases hspace : a = ' '
    · exact .inl hspace
    · exact .inr (isGap_of_isUnescaped (hun a ha) hspace (by simpa using hbreaks a ha))

/-- How a text that is written plain starts. -/
structure PlainStart (x : Char) (r : List Char) : Prop where
  full : isGap x = false
  token : x ≠ '#' ∧ x ≠ '\ufeff'
  mark : isIndicator x = false
  first : x = '?' ∨ x = ':' ∨ x = '-' → startsWithGap r = false
  chars : ∀ a ∈ r, a = ' ' ∨ isGap a = false

theorem allowsPlain_start (h : allowsPlain s = true) : ∃ x r, s = x :: r ∧ PlainStart x r := by
  obtain ⟨-, hne, hs, hhead, -, hmark⟩ := allowsPlain_cases h
  obtain ⟨x, r, rfl⟩ := List.exists_cons_of_ne_nil hne
  obtain ⟨hx, hr⟩ := List.forall_mem_cons.1 hs
  simp only [hasBlockMark, Bool.or_eq_false_iff, Bool.and_eq_false_iff] at hmark
  obtain ⟨-, ⟨hindicator, hfirst⟩, -⟩ := hmark
  have hshown : isUnescaped x = true := by
    simp only [allowsPlain, Bool.and_eq_true, Bool.not_eq_true', Bool.or_eq_false_iff] at h
    simpa using (List.all_eq_true.1 (by simpa using h.1.1.2) x (List.mem_cons_self ..))
  refine ⟨x, r, rfl, ⟨?_, ⟨?_, ?_⟩, hindicator, fun hx => ?_, hr⟩⟩
  · rcases hx with rfl | hx
    · exact absurd rfl hhead
    · exact hx
  · rintro rfl
    exact absurd hindicator (by decide)
  · rintro rfl
    exact absurd hshown (by decide)
  · rcases hfirst with hfalse | hfalse
    · rcases hx with rfl | rfl | rfl <;> simp at hfalse
    · exact hfalse

theorem PlainStart.folded {x : Char} {r : List Char} (h : PlainStart x r) (n m : Nat) :
    ∃ m', foldedChars n false m none (x :: r) = x :: foldedChars n false m' (some x) r := by
  obtain ⟨m', hfolded⟩ := foldedChars_char n m false none (ne_of_isGap_eq_false h.full rfl)
    (isKeptBreak_eq_false h.full) r
  exact ⟨m', by rw [hfolded]; rfl⟩

theorem startsWithGap_folded {r v : List Char} {before : Option Char} {m : Nat}
    (hr : ∀ a ∈ r, a = ' ' ∨ isGap a = false) :
    startsWithGap (foldedChars n false m before r ++ '\n' :: v) = startsWithGap r := by
  cases r with
  | nil => rfl
  | cons a r =>
    rcases hr a (List.mem_cons_self ..) with rfl | ha
    · rw [foldedChars, if_pos rfl]
      split_ifs
      · rfl
      · rfl
    · obtain ⟨m', hfolded⟩ := foldedChars_char n m false before (ne_of_isGap_eq_false ha rfl)
        (isKeptBreak_eq_false ha) r
      rw [hfolded]
      rfl

/-- A text that is written plain is read back where a line ends behind it. -/
theorem plainScalar_folded (h : allowsPlain s = true) {indent : Int} {column : Nat} (hn : indent < n)
    (hk : (k : Int) ≤ indent) (hu : LineStart u) (hc : c.Fits) (hcolumn : indent < c.column)
    (hrest : c.rest = foldedChars n false column none s ++ ('\n' :: spaces k ++ u)) :
    plainScalar false indent c = ((s, true), c.skip ((foldedChars n false column none s).length + (k + 1))) := by
  obtain ⟨-, hne, hs, hhead, hlast, hmark⟩ := allowsPlain_cases h
  obtain ⟨a, r, rfl⟩ := List.exists_cons_of_ne_nil hne
  simp only [hasBlockMark, Bool.or_eq_false_iff, Bool.and_eq_false_iff] at hmark
  obtain ⟨-, ⟨hindicator, hfirst⟩, hinner⟩ := hmark
  have hhash : a ≠ '#' := by
    rintro rfl
    exact absurd hindicator (by decide)
  have hmarks : hasInnerMark 'a' (a :: r) = false := by
    have hcolon : (a = ':' && startsWithGap r) = false := by
      rcases hfirst with hfirst | hfirst
      · simp only [decide_eq_false_iff_not] at hfirst
        simp [hfirst]
      · simp [hfirst]
    simp [hasInnerMark, hcolon, hhash, hinner]
  have htext : PlainText n (foldedChars n false column none (a :: r)) (a :: r) :=
    plainText_folded _ _ _ (Nat.le_refl _) hne hs ⟨hhead, fun h => hhash (Option.some.inj h)⟩ hlast hmarks
  have hleft : (foldedChars n false column none (a :: r)).length < c.left + 1 := by
    rw [hc.left_eq, hrest, List.length_append]
    omega
  exact htext.read (by omega) (by omega) hu hc hrest (by omega) _ hleft [] false

/-- A word in front of the colon of a key. -/
theorem plainScalar_word (hw : IsWord w) (indent : Int) (hu : startsWithGap u = true)
    (hrest : c.rest = w ++ ':' :: u) : plainScalar false indent c = ((w, false), c.skip w.length) := by
  have hskip := Cursor.rest_skip_append hrest
  have hgap := plainGap_spaces (k := 0) (u := ':' :: u) (by simp [isBreak]) hskip
  rw [plainScalar, plainRuns_word hw hrest (plainRun_colon hu) hgap, if_pos]
  · rfl
  · rfl

end Entail.Yaml
