import Entail.Proofs.Yaml.Quoted
import Mathlib.Algebra.Group.Nat.Defs
import Mathlib.Data.List.Chain

/-!
# Texts in quotes are read back

* `quotes_escaped` : a text between double quotes reads as it is, wherever it is folded;
* `exists_readsFolded` : a text between apostrophes reads as it is unless it holds the line break NEL, which reads as
  a line feed;
* `Shrinks s r K` : what is read is no longer than what was written, and is the same exactly if `K` holds.
-/

namespace Entail

namespace Text

/-! ## Codes -/

theorem digitValue?_hexDigit (upper : Bool) {n : Nat} (h : n < 16) : digitValue? 16 (hexDigit upper n) = some n := by
  revert n
  cases upper <;> decide

theorem length_hexadecimal (upper : Bool) (width n : Nat) : (hexadecimal upper width n).length = width := by
  induction width generalizing n with
  | zero => rfl
  | succ width ih => rw [hexadecimal, List.length_append, ih, List.length_singleton]

/-- The digits of a number that has not too many are read as the number. -/
theorem ofDigits?_hexadecimal (upper : Bool) (width : Nat) {n : Nat} (h : n < 16 ^ width) :
    ofDigits? 16 (hexadecimal upper width n) = some n := by
  induction width generalizing n with
  | zero =>
    obtain rfl : n = 0 := by simpa using h
    rfl
  | succ width ih =>
    have hdiv : n / 16 < 16 ^ width := by
      rw [Nat.pow_succ] at h
      omega
    have hfold := ih hdiv
    unfold ofDigits? at hfold ⊢
    rw [hexadecimal, List.foldl_append, hfold]
    have hdigit := digitValue?_hexDigit upper (Nat.mod_lt n (by decide : 16 > 0))
    simp only [List.foldl_cons, List.foldl_nil, hdigit]
    have hn : n / 16 * 16 + n % 16 = n := Nat.div_add_mod' n 16
    exact congrArg some hn

end Text

namespace Yaml

variable {s t : List Char} {mark : Char} {o : Option (List Char)}

/-! ## Spaces -/

theorem isRawGap_spaces {n : Nat} : ∀ a ∈ spaces n, isRawGap a = true := fun a ha => by rw [mem_spaces ha]; decide

/-- Spaces in front of a run stand for themselves. -/
theorem Quotes.spaces (hmark : IsQuote mark) (n : Nat) (ht : ∀ a ∈ t.head?, isGap a = false) (h : Quotes mark t o) :
    Quotes mark (spaces n ++ t) (o.map (Yaml.spaces n ++ ·)) := by
  have hgap := h.gap (g := Yaml.spaces n) hmark isRawGap_spaces ht
  have hlast : (Yaml.spaces n).getLast?.any isBreak = false := by
    cases n with
    | zero => rfl
    | succ n => exact not_isBreak_spaces n
  rwa [hlast, Bool.false_and, if_neg Bool.false_ne_true, foldedGap_spaces] at hgap

/-! ## Double quotes -/

/-- A character behind a backslash reads as itself. -/
theorem quotes_escapeChars (c : Char) (h : Quotes '"' t o) : Quotes '"' (escapeChars c ++ t) (o.map (c :: ·)) := by
  unfold escapeChars
  split
  next x hx =>
    refine Quotes.letter ?_ h
    unfold escapeLetter? at hx
    split at hx <;> first | (cases hx; rfl) | cases hx
  · have hcode : ∀ (a : Char) (width : Nat), codeWidth? a = some width → escapedChar? a = none →
        c.toNat < 16 ^ width → Quotes '"' ('\\' :: a :: Text.hexadecimal true width c.toNat ++ t) (o.map (c :: ·)) := by
      intro a width hwidth ha hlt
      refine Quotes.code ?_ ha (Text.ofDigits?_hexadecimal true width hlt) h
      rw [hwidth, Text.length_hexadecimal]
    split_ifs with h1 h2
    · exact hcode 'x' 2 rfl rfl h1
    · exact hcode 'u' 4 rfl rfl h2
    · exact hcode 'U' 8 rfl rfl (Nat.lt_trans (Quotes.toNat_lt_codePointBound c) (by decide))

theorem isGap_of_shown {c : Char} (hc : isEscaped c = false) (hspace : c ≠ ' ') : isGap c = false := by
  simp only [isEscaped, Bool.or_eq_false_iff, Bool.not_eq_false', decide_eq_false_iff_not] at hc
  obtain ⟨⟨⟨⟨hshown, -⟩, -⟩, hline⟩, hparagraph⟩ := hc
  have hne : ∀ x, isShown x = false → c ≠ x := fun x hx heq => by rw [heq, hx] at hshown; cases hshown
  simp [isGap, isSpaceOrEnd, isBreakOrEnd, isBreak, hspace, hline, hparagraph, hne '\n' (by decide),
    hne '\r' (by decide), hne '\u0085' (by decide), hne endMark (by decide), hne '\t' (by decide)]

/-- A character that is shown inside double quotes. -/
theorem quotes_shown {c : Char} (hc : isEscaped c = false) (hspace : c ≠ ' ') (h : Quotes '"' t o) :
    Quotes '"' (c :: t) (o.map (c :: ·)) := by
  have hgap := isGap_of_shown hc hspace
  simp only [isEscaped, Bool.or_eq_false_iff, decide_eq_false_iff_not] at hc
  by_cases hapostrophe : c = '\''
  · exact h.other (.inl ⟨rfl, hapostrophe⟩)
  · exact h.text (by simp [isQuotedText, hgap, hapostrophe, hc])

/-- The line is broken behind a backslash. What follows must start a run; a space gets a backslash of its own. -/
theorem quotes_escapedBreak {indent : Nat} (hindent : 0 < indent) {c : Char}
    (hrun : c ≠ ' ' → Quotes '"' t (some s) ∧ ∀ a ∈ t.head?, isGap a = false)
    (hspace : c = ' ' → ∃ u r, t = ' ' :: u ∧ s = ' ' :: r ∧ Quotes '"' u (some r)) :
    Quotes '"' ((escapedBreak indent (some c)).1 ++ t) (some s) := by
  obtain ⟨n, rfl⟩ : ∃ n, indent = n + 1 := ⟨indent - 1, by omega⟩
  by_cases hc : c = ' '
  · obtain ⟨u, r, rfl, rfl, h⟩ := hspace hc
    have hletter : Quotes '"' ('\\' :: ' ' :: u) (some (' ' :: r)) := h.letter rfl
    have hfold := hletter.fold n fun a ha => by cases ha; decide
    simpa [escapedBreak, hc] using hfold
  · obtain ⟨h, ht⟩ := hrun hc
    simpa [escapedBreak, hc] using h.fold n ht

theorem escapeChars_eq_cons (c : Char) : ∃ e, escapeChars c = '\\' :: e := by
  unfold escapeChars
  split
  · exact ⟨_, rfl⟩
  · split_ifs <;> exact ⟨_, rfl⟩

/-- What is written of a text that starts with no space starts with no gap. -/
theorem head?_escapedChars {c : Char} (hc : c ≠ ' ') (indent column : Nat) (isFirst afterEscape : Bool) (r : List Char) :
    ∀ a ∈ (escapedChars indent column isFirst afterEscape (c :: r)).head?, isGap a = false := by
  intro a ha
  obtain ⟨e, he⟩ := escapeChars_eq_cons c
  simp only [escapedChars, he] at ha
  split_ifs at ha with h1 h2 h3
  · obtain rfl : '\\' = a := by simpa using ha
    decide
  · obtain rfl : '\\' = a := by simpa using ha
    decide
  · obtain rfl : '\\' = a := by simpa [escapedBreak] using ha
    decide
  · obtain rfl : c = a := by simpa using ha
    exact isGap_of_shown (by simpa using h1) hc

/-- Spaces and a text between double quotes, however far the line has come. -/
theorem quotes_escaped_tail {indent : Nat} (hindent : 0 < indent) (hfold : indent < foldColumn) (s : List Char) :
    (∀ m column isFirst afterEscape,
      Quotes '"' (spaces m ++ escapedChars indent column isFirst afterEscape s) (some (spaces m ++ s))) ∧
      ∀ m column isFirst afterEscape,
        Quotes '"' (spaces m ++ escapedChars indent column isFirst afterEscape s.tail) (some (spaces m ++ s.tail)) := by
  induction s with
  | nil =>
    have hnil : ∀ m column isFirst afterEscape,
        Quotes '"' (spaces m ++ escapedChars indent column isFirst afterEscape []) (some (spaces m ++ [])) :=
      fun m _ _ _ => (Quotes.nil (.inl rfl)).spaces (.inl rfl) m (by simp)
    exact ⟨hnil, hnil⟩
  | cons c s ih =>
    obtain ⟨ih, ihtail⟩ := ih
    refine ⟨fun m column isFirst afterEscape => ?_, ih⟩
    have htext : ∀ column isFirst afterEscape, Quotes '"' (escapedChars indent column isFirst afterEscape s) (some s) :=
      ih 0
    by_cases hc : c = ' '
    · subst hc
      have hshown : isEscaped ' ' = false := by decide
      simp only [escapedChars, hshown, Bool.false_eq_true, if_false]
      split_ifs
      · refine Quotes.spaces (o := some (' ' :: s)) (.inl rfl) m (fun a ha => ?_) ?_
        · cases ha
          decide
        · exact quotes_escapedBreak hindent (absurd rfl) fun _ => ⟨_, _, rfl, rfl, htext _ _ _⟩
      · have hspaces := ih (m + 1) (column + 1) false false
        rwa [spaces, List.replicate_succ', List.append_assoc, List.append_assoc] at hspaces
    · refine Quotes.spaces (o := some (c :: s)) (.inl rfl) m (head?_escapedChars hc _ _ _ _ _) ?_
      simp only [escapedChars]
      split_ifs with h1 h2 h3
      · obtain ⟨d, r, rfl⟩ : ∃ d r, s = d :: r := List.exists_cons_of_ne_nil (by rintro rfl; simp at h2)
        rw [List.append_assoc]
        refine quotes_escapeChars c (quotes_escapedBreak hindent (fun hd => ⟨htext _ _ _, ?_⟩) fun hd => ?_)
        · exact head?_escapedChars hd _ _ _ _ _
        · subst hd
          refine ⟨escapedChars indent (indent + 1 + 1) false false r, r, ?_, rfl, ihtail 0 _ _ _⟩
          have hshown : isEscaped ' ' = false := by decide
          have hcolumn : ¬ foldColumn < indent + 1 := by omega
          simp [escapedChars, escapedBreak, hshown, hcolumn]
      · exact quotes_escapeChars c (htext _ _ _)
      · have hshown : isEscaped c = false := by simpa using h1
        refine quotes_escapedBreak hindent (fun _ => ⟨quotes_shown hshown hc (htext _ _ _), ?_⟩) fun h => absurd h hc
        intro a ha
        cases ha
        exact isGap_of_shown hshown hc
      · exact quotes_shown (by simpa using h1) hc (htext _ _ _)

/-- A text between double quotes reads as it is. -/
theorem quotes_escaped {indent : Nat} (hindent : 0 < indent) (hfold : indent < foldColumn) (column : Nat)
    (s : List Char) : Quotes '"' (escapedChars indent column true false s) (some s) :=
  (quotes_escaped_tail hindent hfold s).1 0 column true false

/-! ## What is lost of a text -/

/-- What is read is not longer than what was written, and the same exactly under a condition. -/
structure Shrinks (s r : List Char) (K : Prop) : Prop where
  length : r.length ≤ s.length
  same : r = s ↔ K

namespace Shrinks

variable {r s' r' : List Char} {K K' : Prop}

theorem refl (s : List Char) (h : K) : Shrinks s s K := ⟨Nat.le_refl _, by simp [h]⟩

theorem append (h : Shrinks s r K) (h' : Shrinks s' r' K') : Shrinks (s ++ s') (r ++ r') (K ∧ K') where
  length := by
    have hlength := h.length
    have hlength' := h'.length
    rw [List.length_append, List.length_append]
    omega
  same := by
    rw [← h.same, ← h'.same]
    constructor
    · intro heq
      have hlength := congrArg List.length heq
      have hle := h.length
      have hle' := h'.length
      rw [List.length_append, List.length_append] at hlength
      exact List.append_inj heq (by omega)
    · rintro ⟨rfl, rfl⟩
      rfl

theorem congr (h : Shrinks s r K) (hK : K ↔ K') : Shrinks s r K' := ⟨h.length, h.same.trans hK⟩

end Shrinks

/-! ## Apostrophes -/

section
variable {indent column : Nat} {doubled : Bool} {before : Option Char}

theorem isGap_of_isKeptBreak {c : Char} (h : isKeptBreak c = true) : isGap c = true ∧ c ≠ ' ' := by
  simp only [isKeptBreak, Bool.or_eq_true, decide_eq_true_eq] at h
  rcases h with ((rfl | rfl) | rfl) | rfl <;> decide

theorem isKeptBreak_eq_false {a : Char} (h : isGap a = false) : isKeptBreak a = false := by
  cases hb : isKeptBreak a with
  | false => rfl
  | true =>
    rw [(isGap_of_isKeptBreak hb).1] at h
    cases h

theorem isRawGap_of_isKeptBreak {c : Char} (h : isKeptBreak c = true) : isRawGap c = true ∧ isBreak c = true := by
  simp only [isKeptBreak, Bool.or_eq_true, decide_eq_true_eq] at h
  rcases h with ((rfl | rfl) | rfl) | rfl <;> decide

/-- A character that is no space and no break. -/
theorem foldedChars_char (indent column : Nat) (doubled : Bool) (before : Option Char) {c : Char} (hc : c ≠ ' ')
    (hb : isKeptBreak c = false) (rest : List Char) :
    ∃ column', foldedChars indent doubled column before (c :: rest) =
      (if doubled ∧ c = '\'' then [c, c] else [c]) ++ foldedChars indent doubled column' (some c) rest := by
  simp only [foldedChars, hc, hb, if_false, Bool.false_eq_true]
  split_ifs
  · exact ⟨_, rfl⟩
  · exact ⟨_, rfl⟩

/-- Behind a space, spaces are written as they are. -/
theorem foldedChars_spaces_after (m : Nat) :
    foldedChars indent doubled column (some ' ') (spaces m ++ s) =
      spaces m ++ foldedChars indent doubled (column + m) (some ' ') s := by
  induction m generalizing column with
  | zero => rfl
  | succ m ih =>
    have hlone : isLoneSpace (some ' ') (spaces m ++ s) = false := by
      unfold isLoneSpace
      split
      next b c r hb hr => cases hb; rfl
      · rfl
    rw [spaces_succ, List.cons_append, foldedChars]
    simp only [if_true, hlone, Bool.false_eq_true, false_and, if_false]
    rw [ih, Nat.add_right_comm, Nat.add_assoc]
    rfl

/-- Spaces are written as they are, but one that stands alone may be written as a break of the line. -/
theorem foldedChars_spaces (indent column : Nat) (doubled : Bool) (before : Option Char) (m : Nat)
    (hs : s.head? ≠ some ' ') :
    ∃ g column', foldedChars indent doubled column before (spaces (m + 1) ++ s) =
        g ++ foldedChars indent doubled column' (some ' ') s ∧
      (g = spaces (m + 1) ∨ m = 0 ∧ s ≠ [] ∧ g = '\n' :: spaces indent) := by
  rw [spaces_succ, List.cons_append, foldedChars, if_pos rfl]
  split_ifs with hfold
  · cases m with
    | zero =>
      refine ⟨'\n' :: spaces indent, indent, rfl, .inr ⟨rfl, ?_, rfl⟩⟩
      rintro rfl
      obtain ⟨hlone, -⟩ := hfold
      cases before <;> cases hlone
    | succ m =>
      obtain ⟨hlone, -⟩ := hfold
      cases before with
      | none => cases hlone
      | some b => simp [isLoneSpace, spaces_succ] at hlone
  · exact ⟨spaces (m + 1), column + 1 + m, by rw [foldedChars_spaces_after]; rfl, .inl rfl⟩

def startsWithBreak (s : List Char) : Bool := (s.head?.map isKeptBreak).getD false

theorem foldedChars_break {b : Char} (hb : isKeptBreak b = true) :
    foldedChars indent doubled column before (b :: s) =
      (if !(before.map isKeptBreak).getD false ∧ b = '\n' then ['\n'] else []) ++
        b :: (if !startsWithBreak s then spaces indent else []) ++
        foldedChars indent doubled (if !startsWithBreak s then indent else 0) (some b) s := by
  rw [foldedChars, if_neg (isGap_of_isKeptBreak hb).2, if_pos hb]
  rfl

/-- Line breaks, of which the first stands behind another one or not. A line feed that is the first is written
twice. -/
theorem foldedChars_breaks (indent column : Nat) (doubled : Bool) (before : Option Char) {b : Char} {bs : List Char}
    (hb : ∀ a ∈ b :: bs, isKeptBreak a = true) (hs : startsWithBreak s = false) :
    ∃ y, isKeptBreak y = true ∧ foldedChars indent doubled column before (b :: bs ++ s) =
      (if !(before.map isKeptBreak).getD false ∧ b = '\n' then ['\n'] else []) ++
        (b :: bs ++ (spaces indent ++ foldedChars indent doubled indent (some y) s)) := by
  induction bs generalizing b before column with
  | nil =>
    have hkept := hb b (List.mem_cons_self ..)
    refine ⟨b, hkept, ?_⟩
    rw [List.cons_append, List.nil_append, foldedChars_break hkept, hs]
    simp
  | cons b' bs ih =>
    obtain ⟨hkept, hrest⟩ := List.forall_mem_cons.1 hb
    obtain ⟨y, hy, hfolded⟩ := ih 0 (some b) hrest
    have hnext : startsWithBreak (b' :: bs ++ s) = true := hrest b' (List.mem_cons_self ..)
    refine ⟨y, hy, ?_⟩
    rw [List.cons_append, foldedChars_break hkept, hnext]
    simp only [Bool.not_true, Bool.false_eq_true, if_false, hfolded, Option.map_some, hkept, Option.getD_some, false_and]
    simp

/-! ### Reading folded gaps -/

theorem nel_not_mem_map (bs : List Char) : '\u0085' ∉ bs.map readBreak := by
  intro h
  obtain ⟨b, -, hb⟩ := List.mem_map.1 h
  unfold readBreak at hb
  split_ifs at hb with hnel
  · exact absurd hb (by decide)
  · exact hnel hb

theorem map_readBreak_eq_iff (bs : List Char) : bs.map readBreak = bs ↔ '\u0085' ∉ bs := by
  constructor
  · intro h
    rw [← h]
    exact nel_not_mem_map bs
  · intro h
    have hid : bs.map readBreak = bs.map id :=
      List.map_congr_left fun b hb => if_neg fun hnel : b = '\u0085' => h (hnel ▸ hb)
    rw [hid, List.map_id]

/-- Breaks that start with one that is no line feed stay what they are, but for NEL. -/
theorem shrinks_foldBreaks {b : Char} (bs : List Char) (hb : b ≠ '\n') :
    Shrinks (b :: bs) (foldBreaks (readBreak b) (bs.map readBreak)) ('\u0085' ∉ b :: bs) := by
  by_cases hnel : b = '\u0085'
  · subst hnel
    have hread : foldBreaks (readBreak '\u0085') (bs.map readBreak) = if bs = [] then [' '] else bs.map readBreak := by
      cases bs <;> rfl
    have hmem : ¬ '\u0085' ∉ '\u0085' :: bs := by simp
    rw [hread]
    split_ifs with hbs
    · subst hbs
      exact ⟨Nat.le_refl _, by simp⟩
    · refine ⟨by simp, ⟨fun h => absurd (h ▸ nel_not_mem_map bs) hmem, fun h => absurd h hmem⟩⟩
  · have hread : readBreak b = b := if_neg hnel
    rw [foldBreaks, hread, if_pos hb]
    refine ⟨by simp, ?_⟩
    rw [List.cons.injEq, map_readBreak_eq_iff]
    simp [Ne.symm hnel]

/-- The breaks of a run as they are written between apostrophes: a line feed in front stands twice. -/
def writtenBreaks (b : Char) (bs : List Char) : List Char := (if b = '\n' then ['\n'] else []) ++ b :: bs

theorem isKeptBreak_writtenBreaks {b : Char} {bs : List Char} (hb : ∀ a ∈ b :: bs, isKeptBreak a = true) :
    ∀ a ∈ writtenBreaks b bs, isKeptBreak a = true := by
  rw [writtenBreaks, List.forall_mem_append]
  refine ⟨fun a ha => ?_, hb⟩
  split_ifs at ha
  · rw [List.mem_singleton.1 ha]
    decide
  · cases ha

theorem filter_writtenBreaks {b : Char} {bs : List Char} (hb : ∀ a ∈ b :: bs, isKeptBreak a = true) :
    (writtenBreaks b bs).filter isBreak = writtenBreaks b bs :=
  List.filter_eq_self.2 fun a ha => (isRawGap_of_isKeptBreak (isKeptBreak_writtenBreaks hb a ha)).2

theorem foldedGap_writtenBreaks {b : Char} {bs : List Char} (hb : ∀ a ∈ b :: bs, isKeptBreak a = true) (n : Nat) :
    foldedGap (writtenBreaks b bs ++ spaces n) = foldedGap (writtenBreaks b bs) := by
  obtain ⟨a, as, hcons⟩ : ∃ a as, writtenBreaks b bs = a :: as := by
    unfold writtenBreaks
    split_ifs
    · exact ⟨_, _, rfl⟩
    · exact ⟨_, _, rfl⟩
  rw [foldedGap, foldedGap, List.filter_append, filter_spaces, List.append_nil, filter_writtenBreaks hb, hcons]

theorem shrinks_writtenBreaks {b : Char} {bs : List Char} (hb : ∀ a ∈ b :: bs, isKeptBreak a = true) :
    Shrinks (b :: bs) (foldedGap (writtenBreaks b bs)) ('\u0085' ∉ b :: bs) := by
  rw [foldedGap, filter_writtenBreaks hb, writtenBreaks]
  by_cases hfeed : b = '\n'
  · subst hfeed
    have hread : foldBreaks (readBreak '\n') (('\n' :: bs).map readBreak) = ('\n' :: bs).map readBreak := rfl
    simp only [if_true, List.cons_append, List.nil_append]
    rw [hread]
    exact ⟨by simp, map_readBreak_eq_iff _⟩
  · simp only [hfeed, if_false, List.nil_append]
    exact shrinks_foldBreaks bs hfeed

theorem foldedGap_lineFeed (n : Nat) : foldedGap ('\n' :: spaces n) = spaces 1 := by
  have hread := foldedGap_breaks (g := spaces n) 0 (b := '\n') rfl
  rw [filter_spaces] at hread
  exact hread

theorem not_isBreak_append (l : List Char) {n : Nat} (hn : 0 < n) : (l ++ spaces n).getLast?.any isBreak = false := by
  obtain ⟨n, rfl⟩ : ∃ m, n = m + 1 := ⟨n - 1, by omega⟩
  rw [spaces_succ, List.getLast?_append_cons, ← spaces_succ]
  exact not_isBreak_spaces n

/-! ### Texts between apostrophes -/

/-- Two characters of which not one is a space and the other a break. -/
def Apart (isFolded : Char → Bool) (a b : Char) : Prop :=
  ¬ (a = ' ' ∧ isFolded b = true) ∧ ¬ (isFolded a = true ∧ b = ' ')

theorem isChain_of_hasSpaceAtBreak (h : hasSpaceAtBreak s = false) : s.IsChain (Apart isKeptBreak) := by
  induction s with
  | nil => exact .nil
  | cons a s ih =>
    cases s with
    | nil => exact .singleton a
    | cons b s =>
      simp only [hasSpaceAtBreak, List.tail_cons, List.zip_cons_cons, List.any_cons, Bool.or_eq_false_iff] at h ih
      refine .cons_cons ⟨fun hab => ?_, fun hab => ?_⟩ (ih h.2)
      · simp [hab.1, hab.2] at h
      · simp [hab.1, hab.2] at h

/-- A text starts with all the spaces that it starts with. -/
theorem exists_spaces (s : List Char) : ∃ m r, s = spaces m ++ r ∧ r.head? ≠ some ' ' := by
  induction s with
  | nil => exact ⟨0, [], rfl, by simp⟩
  | cons a s ih =>
    by_cases ha : a = ' '
    · obtain ⟨m, r, rfl, hr⟩ := ih
      exact ⟨m + 1, r, by rw [ha, spaces_succ, List.cons_append], hr⟩
    · exact ⟨0, a :: s, rfl, by simpa using ha⟩

/-- A text starts with all the line breaks that it starts with. -/
theorem exists_breaks (s : List Char) :
    ∃ bs r, s = bs ++ r ∧ (∀ a ∈ bs, isKeptBreak a = true) ∧ startsWithBreak r = false := by
  induction s with
  | nil => exact ⟨[], [], rfl, by simp, rfl⟩
  | cons a s ih =>
    cases ha : isKeptBreak a with
    | true =>
      obtain ⟨bs, r, rfl, hbs, hr⟩ := ih
      exact ⟨a :: bs, r, rfl, List.forall_mem_cons.2 ⟨ha, hbs⟩, hr⟩
    | false => exact ⟨[], a :: s, rfl, by simp, ha⟩

theorem isGap_of_isUnescaped {c : Char} (h : isUnescaped c = true) (hspace : c ≠ ' ') (hb : isKeptBreak c = false) :
    isGap c = false := by
  simp only [isKeptBreak, Bool.or_eq_false_iff, decide_eq_false_iff_not] at hb
  have hne : ∀ x, isUnescaped x = false → c ≠ x := fun x hx heq => by rw [heq, hx] at h; cases h
  simp [isGap, isSpaceOrEnd, isBreakOrEnd, isBreak, hspace, hb, hne '\r' (by decide), hne endMark (by decide),
    hne '\t' (by decide)]

/-- What is written of a text that starts with a run. -/
theorem head?_foldedChars (hs : s.head? ≠ some ' ') (hb : startsWithBreak s = false)
    (hun : ∀ a ∈ s, isUnescaped a = true) :
    ∀ a ∈ (foldedChars indent doubled column before s).head?, isGap a = false := by
  intro a ha
  cases s with
  | nil => cases ha
  | cons c s =>
    have hc : c ≠ ' ' := fun h => hs (congrArg some h)
    obtain ⟨column', hfolded⟩ := foldedChars_char indent column doubled before hc hb s
    rw [hfolded] at ha
    obtain rfl : c = a := by split_ifs at ha <;> simpa using ha
    exact isGap_of_isUnescaped (hun c (List.mem_cons_self ..)) hc hb

/-- A character of a run between apostrophes. -/
theorem quotes_char {c : Char} (hc : isGap c = false) (h : Quotes '\'' t o) :
    Quotes '\'' ((if true = true ∧ c = '\'' then [c, c] else [c]) ++ t) (o.map (c :: ·)) := by
  by_cases hapostrophe : c = '\''
  · subst hapostrophe
    simpa using h.doubled
  · have hwritten : (if true = true ∧ c = '\'' then [c, c] else [c]) = [c] := by simp [hapostrophe]
    rw [hwritten]
    by_cases hother : c = '"' ∨ c = '\\'
    · exact h.other (.inr ⟨rfl, hother⟩)
    · exact h.text (by simpa [isQuotedText, hc, hapostrophe] using hother)

/-- A gap between apostrophes that ends with spaces. -/
theorem quotes_gap {g r : List Char} (hg : ∀ a ∈ g, isRawGap a = true) (hlast : g.getLast?.any isBreak = false)
    (ht : ∀ a ∈ t.head?, isGap a = false) (h : Quotes '\'' t (some r)) :
    Quotes '\'' (g ++ t) (some (foldedGap g ++ r)) := by
  have hgap := h.gap (.inr rfl) hg ht
  rwa [hlast, Bool.false_and, if_neg Bool.false_ne_true] at hgap

/-- What is written of spaces is a gap that reads as them. -/
theorem foldedGap_of_spaces {g u : List Char} {m : Nat} (hindent : 0 < indent)
    (hg : g = spaces (m + 1) ∨ m = 0 ∧ u ≠ [] ∧ g = '\n' :: spaces indent) :
    (∀ a ∈ g, isRawGap a = true) ∧ g.getLast?.any isBreak = false ∧ foldedGap g = spaces (m + 1) := by
  rcases hg with rfl | ⟨rfl, -, rfl⟩
  · exact ⟨isRawGap_spaces, not_isBreak_spaces m, foldedGap_spaces _⟩
  · exact ⟨List.forall_mem_cons.2 ⟨by decide, isRawGap_spaces⟩, not_isBreak_append ['\n'] hindent,
      foldedGap_lineFeed indent⟩

theorem nel_not_mem_append {u v : List Char} : '\u0085' ∉ u ++ v ↔ '\u0085' ∉ u ∧ '\u0085' ∉ v := by
  rw [List.mem_append, not_or]

/-- No break follows spaces, and no space follows breaks. -/
theorem startsWithBreak_of_isChain {u v : List Char} (h : (u ++ v).IsChain (Apart isKeptBreak))
    (hu : u.getLast? = some ' ') : startsWithBreak v = false := by
  obtain ⟨-, -, hjoint⟩ := List.isChain_append.1 h
  cases v with
  | nil => rfl
  | cons x v =>
    by_contra hx
    exact (hjoint ' ' hu x rfl).1 ⟨rfl, by simpa [startsWithBreak] using hx⟩

theorem head?_of_isChain {b : Char} {u v : List Char} (h : (u ++ v).IsChain (Apart isKeptBreak))
    (hu : u.getLast? = some b) (hb : isKeptBreak b = true) : v.head? ≠ some ' ' := by
  obtain ⟨-, -, hjoint⟩ := List.isChain_append.1 h
  intro hv
  exact (hjoint b hu ' ' hv).2 ⟨hb, rfl⟩

/-- However it is folded between apostrophes, a text reads as another one. -/
structure ReadsFolded (s r : List Char) : Prop where
  shrinks : Shrinks s r ('\u0085' ∉ s)
  quotes : ∀ {indent column : Nat} {before : Option Char}, 0 < indent →
    (startsWithBreak s = true → (before.map isKeptBreak).getD false = false) →
      Quotes '\'' (foldedChars indent true column before s) (some r)

namespace ReadsFolded

variable {u r : List Char}

theorem nil : ReadsFolded [] [] := ⟨.refl _ (by simp), fun _ _ => .nil (.inr rfl)⟩

theorem spaces (m : Nat) (hu : u.head? ≠ some ' ') (hbreak : startsWithBreak u = false)
    (hun : ∀ a ∈ u, isUnescaped a = true) (h : ReadsFolded u r) :
    ReadsFolded (Yaml.spaces (m + 1) ++ u) (Yaml.spaces (m + 1) ++ r) where
  shrinks := by
    have hnel : '\u0085' ∉ Yaml.spaces (m + 1) := fun h => absurd (mem_spaces h) (by decide)
    have hspaces : Shrinks (Yaml.spaces (m + 1)) (Yaml.spaces (m + 1)) ('\u0085' ∉ Yaml.spaces (m + 1)) := .refl _ hnel
    exact (hspaces.append h.shrinks).congr nel_not_mem_append.symm
  quotes {indent column before} hindent _ := by
    obtain ⟨g, column', hfolded, hg⟩ := foldedChars_spaces indent column true before m hu
    obtain ⟨hraw, hend, hread⟩ := foldedGap_of_spaces hindent hg
    have hrest : Quotes '\'' (foldedChars indent true column' (some ' ') u) (some r) :=
      h.quotes hindent fun h => by rw [hbreak] at h; cases h
    rw [hfolded, ← hread]
    exact quotes_gap hraw hend (head?_foldedChars hu hbreak hun) hrest

theorem breaks {b : Char} {bs : List Char} (hkept : ∀ a ∈ b :: bs, isKeptBreak a = true)
    (hu : u.head? ≠ some ' ') (hbreak : startsWithBreak u = false) (hun : ∀ a ∈ u, isUnescaped a = true)
    (h : ReadsFolded u r) : ReadsFolded (b :: bs ++ u) (foldedGap (writtenBreaks b bs) ++ r) where
  shrinks := ((shrinks_writtenBreaks hkept).append h.shrinks).congr nel_not_mem_append.symm
  quotes {indent column before} hindent hbefore := by
    obtain ⟨y, -, hfolded⟩ := foldedChars_breaks indent column true before hkept hbreak
    have hrest : Quotes '\'' (foldedChars indent true indent (some y) u) (some r) :=
      h.quotes hindent fun h => by rw [hbreak] at h; cases h
    have hraw : ∀ a ∈ writtenBreaks b bs ++ Yaml.spaces indent, isRawGap a = true := List.forall_mem_append.2
      ⟨fun a ha => (isRawGap_of_isKeptBreak (isKeptBreak_writtenBreaks hkept a ha)).1, isRawGap_spaces⟩
    rw [hfolded, hbefore (hkept b (List.mem_cons_self ..)), ← foldedGap_writtenBreaks hkept indent]
    have hgap := quotes_gap hraw (not_isBreak_append _ hindent) (head?_foldedChars hu hbreak hun) hrest
    simpa [writtenBreaks] using hgap

theorem char {c : Char} (hc : isGap c = false) (h : ReadsFolded u r) : ReadsFolded (c :: u) (c :: r) where
  shrinks := by
    have hnel : c ≠ '\u0085' := fun h => by rw [h] at hc; cases hc
    have hone : Shrinks [c] [c] ('\u0085' ∉ [c]) := .refl _ (by simpa using hnel.symm)
    exact (hone.append h.shrinks).congr (nel_not_mem_append (u := [c])).symm
  quotes {indent column before} hindent _ := by
    have hspace : c ≠ ' ' := ne_of_isGap_eq_false hc (by decide)
    obtain ⟨column', hfolded⟩ := foldedChars_char indent column true before hspace (isKeptBreak_eq_false hc) u
    have hbefore : ((some c).map isKeptBreak).getD false = false := isKeptBreak_eq_false hc
    rw [hfolded]
    exact quotes_char hc (h.quotes hindent fun _ => hbefore)

end ReadsFolded

/-- A text that can stand between apostrophes is read, and as it is unless it holds NEL. -/
theorem exists_readsFolded (n : Nat) (hn : s.length ≤ n) (hs : s.IsChain (Apart isKeptBreak))
    (hun : ∀ a ∈ s, isUnescaped a = true) : ∃ r, ReadsFolded s r := by
  induction n generalizing s with
  | zero =>
    obtain rfl : s = [] := List.eq_nil_of_length_eq_zero (Nat.le_zero.1 hn)
    exact ⟨[], .nil⟩
  | succ n ih =>
    cases s with
    | nil => exact ⟨[], .nil⟩
    | cons c s =>
      by_cases hc : c = ' '
      · -- spaces up to a run or to the end
        obtain ⟨m, u, rfl, hu⟩ := exists_spaces s
        have hsplit : c :: (spaces m ++ u) = spaces (m + 1) ++ u := by rw [hc, spaces_succ, List.cons_append]
        rw [hsplit] at hn hs hun ⊢
        have hlast : (spaces (m + 1)).getLast? = some ' ' := by rw [spaces, List.getLast?_replicate]; rfl
        have hun' : ∀ a ∈ u, isUnescaped a = true := fun a ha => hun a (List.mem_append_right _ ha)
        obtain ⟨r, hr⟩ := ih (by rw [List.length_append, length_spaces] at hn; omega) hs.right_of_append hun'
        exact ⟨_, hr.spaces m hu (startsWithBreak_of_isChain hs hlast) hun'⟩
      · cases hb : isKeptBreak c with
        | true =>
          -- breaks up to a run or to the end
          obtain ⟨bs, u, rfl, hbs, hu⟩ := exists_breaks s
          rw [← List.cons_append] at hn hs hun ⊢
          have hkept : ∀ a ∈ c :: bs, isKeptBreak a = true := List.forall_mem_cons.2 ⟨hb, hbs⟩
          have hhead : u.head? ≠ some ' ' :=
            head?_of_isChain hs (List.getLast?_eq_some_getLast (List.cons_ne_nil _ _)) (hkept _ (List.getLast_mem _))
          have hun' : ∀ a ∈ u, isUnescaped a = true := fun a ha => hun a (List.mem_append_right _ ha)
          obtain ⟨r, hr⟩ := ih (by rw [List.length_append, List.length_cons] at hn; omega) hs.right_of_append hun'
          exact ⟨_, hr.breaks hkept hhead hu hun'⟩
        | false =>
          obtain ⟨hc', hun'⟩ := List.forall_mem_cons.1 hun
          obtain ⟨r, hr⟩ := ih (s := s) (by rw [List.length_cons] at hn; omega) (List.IsChain.tail hs) hun'
          exact ⟨_, hr.char (isGap_of_isUnescaped hc' hc hb)⟩

end

end Yaml

end Entail
