import Entail.Json.Printer
import Entail.Proofs.Yaml.Styles
import Entail.Yaml.Lexer

/-!
# Texts of one notation read as texts of another

A text that is written as JSON is read as a scalar between double quotes, whose lines are folded.

* `Json.isWhole s` : no line of the text looks like one that separates documents;
* `Json.Smooth s` : the text holds neither NEL nor a space beside another line break;
* `Json.quotes_text` : a text that is whole is read, and as it is exactly if it is smooth; any other is not read.
-/

namespace Entail.Document.Json

open Yaml (Quotes Shrinks Apart isGap isBreak isRawGap separates foldedGap IsQuote)

variable {s t g : List Char} {o : Option (List Char)} {c : Char}

/-! ## Characters -/

/-- The line breaks that are written as they are. -/
def isRawBreak (c : Char) : Bool := c = '\u0085' || c = '\u2028' || c = '\u2029'

/-- The characters that are written as they are and read as gaps. -/
def isLoose (c : Char) : Bool := c = ' ' || isRawBreak c

def startsSeparator (s : List Char) : Bool := Yaml.startsLikeSeparator s && (s.drop 3).head?.any isLoose

def isWhole : List Char → Bool
  | [] => true
  | c :: s => !(isRawBreak c && startsSeparator s) && isWhole s

/-- Whether a text keeps its line breaks and its spaces when its lines are folded. -/
structure Smooth (s : List Char) : Prop where
  nel : '\u0085' ∉ s
  apart : s.IsChain (Apart isRawBreak)

theorem isRawGap_of_isLoose (h : isLoose c = true) : isRawGap c = true ∧ (c ≠ ' ' → isBreak c = true) := by
  simp only [isLoose, isRawBreak, Bool.or_eq_true, decide_eq_true_eq] at h
  rcases h with rfl | (rfl | rfl) | rfl <;> decide

theorem isBreak_eq (h : isLoose c = true) : isBreak c = isRawBreak c := by
  simp only [isLoose, isRawBreak, Bool.or_eq_true, decide_eq_true_eq] at h
  rcases h with rfl | (rfl | rfl) | rfl <;> decide

theorem textChar_of_isLoose (h : isLoose c = true) : textChar c = [c] := by
  simp only [isLoose, isRawBreak, Bool.or_eq_true, decide_eq_true_eq] at h
  rcases h with rfl | (rfl | rfl) | rfl <;> rfl

theorem isGap_eq_false (hloose : isLoose c = false) (hlt : ¬ c < ' ') : isGap c = false := by
  have hne : ∀ x, x < ' ' → c ≠ x := fun x hx heq => hlt (heq ▸ hx)
  simp only [isLoose, isRawBreak, Bool.or_eq_false_iff, decide_eq_false_iff_not] at hloose
  simp [isGap, Yaml.isSpaceOrEnd, Yaml.isBreakOrEnd, isBreak, hloose, hne '\n' (by decide), hne '\r' (by decide),
    hne '\t' (by decide), hne Yaml.endMark (by decide)]

/-- What is written of a character that is no gap starts with the character or with a backslash. -/
theorem textChar_eq_cons (h : isLoose c = false) :
    ∃ a e, textChar c = a :: e ∧ isGap a = false ∧ (a = c ∧ e = [] ∨ a = '\\') := by
  unfold textChar
  split_ifs with h1 h2 h3 h4 h5 h6 h7
  any_goals exact ⟨'\\', _, rfl, by decide, .inr rfl⟩
  exact ⟨c, [], rfl, isGap_eq_false h h7, .inl ⟨rfl, rfl⟩⟩

/-- A character that is no gap reads as itself. -/
theorem quotes_textChar (hloose : isLoose c = false) (h : Quotes '"' t o) :
    Quotes '"' (textChar c ++ t) (o.map (c :: ·)) := by
  unfold textChar
  split_ifs with h1 h2 h3 h4 h5 h6 h7
  · rcases h1 with rfl | rfl <;> exact h.letter rfl
  · subst h2; exact h.letter rfl
  · subst h3; exact h.letter rfl
  · subst h4; exact h.letter rfl
  · subst h5; exact h.letter rfl
  · subst h6; exact h.letter rfl
  · have hlt : c.toNat < 16 ^ 4 := Nat.lt_trans (show c.toNat < 32 from h7) (by decide)
    refine h.code ?_ rfl (Text.ofDigits?_hexadecimal false 4 hlt)
    rw [Text.length_hexadecimal]
    rfl
  · have hgap := isGap_eq_false hloose h7
    by_cases hapostrophe : c = '\''
    · exact h.other (.inl ⟨rfl, hapostrophe⟩)
    · exact h.text (by simpa [Yaml.isQuotedText, hgap, hapostrophe] using h1)

/-! ## Separators -/

/-- A text as it is written in front of its closing mark. -/
def closed (s : List Char) : List Char := s.flatMap textChar ++ ['"']

theorem closed_cons (c : Char) (s : List Char) : closed (c :: s) = textChar c ++ closed s := by
  simp [closed, List.append_assoc]

theorem isGap_closed (s : List Char) : isGap ((closed s).headD Yaml.endMark) = s.head?.any isLoose := by
  cases s with
  | nil => rfl
  | cons c s =>
    rw [closed_cons]
    cases hloose : isLoose c with
    | true =>
      rw [textChar_of_isLoose hloose]
      simpa [hloose] using Yaml.isGap_of_isRawGap (isRawGap_of_isLoose hloose).1
    | false =>
      obtain ⟨a, e, hchar, hgap, -⟩ := textChar_eq_cons hloose
      simp [hchar, hgap, hloose]

/-- Hyphens and points are written as they are, and no other character is written as one. -/
theorem take_closed {m : Char} (hm : m = '-' ∨ m = '.') (k : Nat) (s : List Char) :
    (closed s).take k = List.replicate k m ↔ s.take k = List.replicate k m := by
  induction k generalizing s with
  | zero => simp
  | succ k ih =>
    cases s with
    | nil => rcases hm with rfl | rfl <;> simp [closed, List.replicate_succ]
    | cons c s =>
      rw [closed_cons]
      by_cases hc : c = m
      · have hchar : textChar c = [c] := by rcases hm with rfl | rfl <;> (subst hc; rfl)
        simp [hchar, List.replicate_succ, ih]
      · have hhead : ∃ a e, textChar c = a :: e ∧ a ≠ m := by
          cases hloose : isLoose c with
          | true => exact ⟨c, [], textChar_of_isLoose hloose, hc⟩
          | false =>
            obtain ⟨a, e, hchar, -, ⟨rfl, -⟩ | rfl⟩ := textChar_eq_cons hloose
            · exact ⟨a, e, hchar, hc⟩
            · exact ⟨'\\', e, hchar, by rcases hm with rfl | rfl <;> decide⟩
        obtain ⟨a, e, hchar, ha⟩ := hhead
        simp [hchar, List.replicate_succ, hc, ha]

theorem drop_closed {m : Char} (hm : m = '-' ∨ m = '.') {k : Nat} (h : s.take k = List.replicate k m) :
    (closed s).drop k = closed (s.drop k) := by
  have hchar : textChar m = [m] := by rcases hm with rfl | rfl <;> rfl
  have hchars : ∀ k, (List.replicate k m).flatMap textChar = List.replicate k m := by
    intro k
    induction k with
    | zero => rfl
    | succ k ih => rw [List.replicate_succ, List.flatMap_cons, ih, hchar, List.singleton_append]
  have hsplit : closed s = List.replicate k m ++ closed (s.drop k) := by
    conv => lhs; rw [← List.take_append_drop k s, h]
    rw [closed, List.flatMap_append, hchars, List.append_assoc]
    rfl
  rw [hsplit, List.drop_left' List.length_replicate]

/-- A text is written with a separator in front exactly if it starts with one. -/
theorem separates_closed (s : List Char) : separates (closed s) = startsSeparator s := by
  have hgap : ∀ t : List Char, t.getD 3 Yaml.endMark = (t.drop 3).headD Yaml.endMark := by
    intro t
    rw [List.getD_eq_getElem?_getD, List.headD_eq_head?_getD, List.head?_drop]
  have hmark : ∀ m, m = '-' ∨ m = '.' → ((closed s).take 3 = [m, m, m] ↔ s.take 3 = [m, m, m]) ∧
      (s.take 3 = [m, m, m] → isGap ((closed s).getD 3 Yaml.endMark) = (s.drop 3).head?.any isLoose) := by
    intro m hm
    refine ⟨take_closed hm 3 s, fun h => ?_⟩
    rw [hgap, drop_closed hm h, isGap_closed]
  obtain ⟨hyphens, hyphensGap⟩ := hmark '-' (.inl rfl)
  obtain ⟨points, pointsGap⟩ := hmark '.' (.inr rfl)
  unfold separates startsSeparator Yaml.startsLikeSeparator
  by_cases h : s.take 3 = ['-', '-', '-']
  · simpa [hyphens.2 h, h] using hyphensGap h
  · by_cases h' : s.take 3 = ['.', '.', '.']
    · simpa [points.2 h', h'] using pointsGap h'
    · simp [mt hyphens.1 h, mt points.1 h', h, h']

/-! ## Smooth texts -/

theorem isLoose_of_isRawBreak (h : isRawBreak c = true) : isLoose c = true := by simp [isLoose, h]

/-- A character that is no gap keeps what is smooth on either side of it apart. -/
theorem smooth_append_cons (hc : isLoose c = false) : Smooth (g ++ c :: s) ↔ Smooth g ∧ Smooth s := by
  have hspace : c ≠ ' ' := by
    rintro rfl
    exact absurd hc (by decide)
  have hbreak : isRawBreak c = false := by
    cases hb : isRawBreak c with
    | false => rfl
    | true => rw [isLoose_of_isRawBreak hb] at hc; exact hc
  have hnel : c ≠ '\u0085' := by
    rintro rfl
    exact absurd hc (by decide)
  have hcons : (c :: s).IsChain (Apart isRawBreak) ↔ s.IsChain (Apart isRawBreak) := by
    have hapart : ∀ y ∈ s.head?, Apart isRawBreak c y := by
      refine fun y _ => ⟨fun h => hspace h.1, fun h => ?_⟩
      rw [hbreak] at h
      exact absurd h.1 Bool.false_ne_true
    rw [List.isChain_cons]
    exact and_iff_right hapart
  have hjoint : ∀ x ∈ g.getLast?, ∀ y ∈ (c :: s).head?, Apart isRawBreak x y := by
    intro x _ y hy
    obtain rfl : c = y := by simpa using hy
    refine ⟨fun h => ?_, fun h => hspace h.2⟩
    rw [hbreak] at h
    exact absurd h.2 Bool.false_ne_true
  constructor
  · rintro ⟨hnel', hchain⟩
    obtain ⟨hg, hs, -⟩ := List.isChain_append.1 hchain
    rw [List.mem_append, List.mem_cons, not_or, not_or] at hnel'
    exact ⟨⟨hnel'.1, hg⟩, ⟨hnel'.2.2, hcons.1 hs⟩⟩
  · rintro ⟨⟨hnelg, hg⟩, ⟨hnels, hs⟩⟩
    refine ⟨?_, List.isChain_append.2 ⟨hg, hcons.2 hs, hjoint⟩⟩
    rw [List.mem_append, List.mem_cons, not_or, not_or]
    exact ⟨hnelg, hnel.symm, hnels⟩

theorem isWhole_append_cons (hg : ∀ a ∈ g, isLoose a = true) (hc : isLoose c = false) :
    isWhole (g ++ c :: s) = (!(g.getLast?.any isRawBreak && startsSeparator (c :: s)) && isWhole s) := by
  have hcbreak : isRawBreak c = false := by
    cases hb : isRawBreak c with
    | false => rfl
    | true => rw [isLoose_of_isRawBreak hb] at hc; exact hc
  induction g with
  | nil => simp [isWhole, hcbreak]
  | cons a g ih =>
    obtain ⟨ha, hg⟩ := List.forall_mem_cons.1 hg
    cases g with
    | nil => simp [isWhole, hcbreak]
    | cons b g =>
      have hb := hg b (List.mem_cons_self ..)
      have hseparator : startsSeparator (b :: g ++ c :: s) = false := by
        have hne : b ≠ '-' ∧ b ≠ '.' := by
          constructor <;> (rintro rfl; exact absurd hb (by decide))
        simp [startsSeparator, Yaml.startsLikeSeparator, hne]
      rw [List.cons_append, isWhole, hseparator, ih hg, List.getLast?_cons_cons]
      simp

/-! ## Gaps -/

theorem ne_space_of_isRawBreak (h : isRawBreak c = true) : c ≠ ' ' := by
  rintro rfl
  exact absurd h (by decide)

/-- Spaces alone, or breaks alone, are smooth but for NEL. -/
theorem isChain_of_forall (h : (∀ a ∈ g, a = ' ') ∨ ∀ a ∈ g, isRawBreak a = true) : g.IsChain (Apart isRawBreak) := by
  refine List.Pairwise.isChain (List.pairwise_of_forall_mem_list fun a ha b hb => ?_)
  rcases h with h | h
  · rw [h a ha, h b hb]
    exact ⟨fun hab => absurd hab.2 (by decide), fun hab => absurd hab.1 (by decide)⟩
  · exact ⟨fun hab => ne_space_of_isRawBreak (h a ha) hab.1, fun hab => ne_space_of_isRawBreak (h b hb) hab.2⟩

/-- A smooth gap is of one kind. -/
theorem forall_of_isChain (hg : ∀ a ∈ g, isLoose a = true) (h : g.IsChain (Apart isRawBreak)) :
    (∀ a ∈ g, a = ' ') ∨ ∀ a ∈ g, isRawBreak a = true := by
  induction g with
  | nil => exact .inl (by simp)
  | cons a g ih =>
    obtain ⟨ha, hg⟩ := List.forall_mem_cons.1 hg
    obtain ⟨hjoint, hchain⟩ := List.isChain_cons.1 h
    cases g with
    | nil =>
      rw [isLoose, Bool.or_eq_true, decide_eq_true_eq] at ha
      simpa using ha
    | cons b g =>
      have hab := hjoint b rfl
      rw [isLoose, Bool.or_eq_true, decide_eq_true_eq] at ha
      rcases ih hg hchain with hspaces | hbreaks
      · refine .inl (List.forall_mem_cons.2 ⟨?_, hspaces⟩)
        by_contra hspace
        exact hab.2 ⟨ha.resolve_left hspace, hspaces b (List.mem_cons_self ..)⟩
      · refine .inr (List.forall_mem_cons.2 ⟨?_, hbreaks⟩)
        by_contra hbreak
        exact hab.1 ⟨ha.resolve_right hbreak, hbreaks b (List.mem_cons_self ..)⟩

/-- A gap reads as it is exactly if it is smooth. -/
theorem shrinks_foldedGap (hg : ∀ a ∈ g, isLoose a = true) : Shrinks g (foldedGap g) (Smooth g) := by
  have hfilter : g.filter isBreak = g.filter isRawBreak := List.filter_congr fun a ha => isBreak_eq (hg a ha)
  have hspace : ∀ a ∈ g, ¬ isRawBreak a = true → a = ' ' := fun a ha hb => by
    have hloose := hg a ha
    rw [isLoose, Bool.or_eq_true, decide_eq_true_eq] at hloose
    exact hloose.resolve_right hb
  rw [foldedGap, hfilter]
  cases hbreaks : g.filter isRawBreak with
  | nil =>
    have hnone : ∀ a ∈ g, ¬ isRawBreak a = true := List.filter_eq_nil_iff.1 hbreaks
    exact .refl g ⟨fun h => hnone _ h (by decide), isChain_of_forall (.inl fun a ha => hspace a ha (hnone a ha))⟩
  | cons b bs =>
    have hb : isRawBreak b = true := (List.mem_filter.1 (hbreaks ▸ List.mem_cons_self ..)).2
    have hfold := Yaml.shrinks_foldBreaks (b := b) bs (by rintro rfl; exact absurd hb (by decide))
    by_cases hall : ∀ a ∈ g, isRawBreak a = true
    · obtain rfl : g = b :: bs := by rw [← hbreaks, List.filter_eq_self.2 hall]
      exact hfold.congr ⟨fun h => ⟨h, isChain_of_forall (.inr hall)⟩, fun h => h.nel⟩
    · -- a space is swallowed
      have hlt : (b :: bs).length < g.length := by
        rw [← hbreaks]
        exact List.length_filter_lt_length_iff_exists.2 (by simpa using hall)
      have hmem : b ∈ g := (List.mem_filter.1 (hbreaks ▸ List.mem_cons_self ..)).1
      have hnot : ¬ Smooth g := fun h => by
        rcases forall_of_isChain hg h.apart with hspaces | hbreaks'
        · exact ne_space_of_isRawBreak hb (hspaces b hmem)
        · exact hall hbreaks'
      have hlength : (Yaml.foldBreaks (Yaml.readBreak b) (bs.map Yaml.readBreak)).length < g.length :=
        Nat.lt_of_le_of_lt hfold.length hlt
      exact ⟨Nat.le_of_lt hlength, fun h => absurd (congrArg List.length h) (Nat.ne_of_lt hlength),
        fun h => absurd h hnot⟩

/-! ## Texts -/

theorem isWhole_of_isLoose (hg : ∀ a ∈ g, isLoose a = true) : isWhole g = true := by
  induction g with
  | nil => rfl
  | cons a g ih =>
    obtain ⟨-, hg⟩ := List.forall_mem_cons.1 hg
    have hseparator : startsSeparator g = false := by
      cases g with
      | nil => rfl
      | cons b g =>
        have hb := hg b (List.mem_cons_self ..)
        have hne : b ≠ '-' ∧ b ≠ '.' := by
          constructor <;> (rintro rfl; exact absurd hb (by decide))
        simp [startsSeparator, Yaml.startsLikeSeparator, hne]
    simp [isWhole, hseparator, ih hg]

/-- What is written of a text reads as the text with its gaps folded if it is whole, and else its fault is met. -/
def IsQuoted (s e : List Char) : Prop :=
  (isWhole s = true ∧ ∃ r, Quotes '"' e (some r) ∧ Shrinks s r (Smooth s)) ∨ isWhole s = false ∧ Quotes '"' e none

theorem isRawGap_of_forall (hg : ∀ a ∈ g, isLoose a = true) : ∀ a ∈ g, isRawGap a = true := fun a ha =>
  (isRawGap_of_isLoose (hg a ha)).1

/-- A gap up to the end of a text. -/
theorem isQuoted_gap (hg : ∀ a ∈ g, isLoose a = true) : IsQuoted g g := by
  have hgap := (Quotes.nil (.inl rfl : IsQuote '"')).gap (.inl rfl) (isRawGap_of_forall hg) (by simp)
  rw [show separates ([] ++ ['"']) = false from rfl, Bool.and_false, if_neg Bool.false_ne_true] at hgap
  rw [Option.map_some, List.append_nil, List.append_nil] at hgap
  exact .inl ⟨isWhole_of_isLoose hg, _, hgap, shrinks_foldedGap hg⟩

/-- A gap and a character in front of what is read. -/
theorem quotes_gap_char (hg : ∀ a ∈ g, isLoose a = true) (hc : isLoose c = false) {o : Option (List Char)}
    (h : Quotes '"' (s.flatMap textChar) o) :
    Quotes '"' (g ++ (c :: s).flatMap textChar) (if g.getLast?.any isRawBreak && startsSeparator (c :: s) then none
      else (o.map (c :: ·)).map (foldedGap g ++ ·)) := by
  have hhead : ∀ a ∈ ((c :: s).flatMap textChar).head?, isGap a = false := by
    obtain ⟨a, e, hchar, hgap, -⟩ := textChar_eq_cons hc
    intro b hb
    rw [List.flatMap_cons, hchar] at hb
    obtain rfl : a = b := by simpa using hb
    exact hgap
  have hlast : g.getLast?.any isBreak = g.getLast?.any isRawBreak := by
    cases hl : g.getLast? with
    | none => rfl
    | some a => exact isBreak_eq (hg a (List.mem_of_getLast? hl))
  have hgap := (quotes_textChar hc h).gap (.inl rfl) (isRawGap_of_forall hg) hhead
  rwa [hlast, ← closed, separates_closed] at hgap

/-- A gap and a character in front of a text. -/
theorem IsQuoted.cons (hg : ∀ a ∈ g, isLoose a = true) (hc : isLoose c = false)
    (h : IsQuoted s (s.flatMap textChar)) : IsQuoted (g ++ c :: s) (g ++ (c :: s).flatMap textChar) := by
  rw [IsQuoted, isWhole_append_cons hg hc]
  cases hseparator : g.getLast?.any isRawBreak && startsSeparator (c :: s) with
  | true =>
    obtain ⟨o, ho⟩ : ∃ o, Quotes '"' (s.flatMap textChar) o := by
      rcases h with ⟨-, r, hr, -⟩ | ⟨-, hnone⟩
      · exact ⟨_, hr⟩
      · exact ⟨_, hnone⟩
    have hnone := quotes_gap_char hg hc ho
    rw [hseparator, if_pos rfl] at hnone
    exact .inr ⟨rfl, hnone⟩
  | false =>
    rcases h with ⟨hwhole, r, hr, hshrinks⟩ | ⟨hwhole, hnone⟩
    · have hsome := quotes_gap_char hg hc hr
      rw [hseparator, if_neg Bool.false_ne_true] at hsome
      have hchar : Shrinks [c] [c] True := .refl _ trivial
      refine .inl ⟨by simpa using hwhole, _, hsome, ?_⟩
      refine ((shrinks_foldedGap hg).append (hchar.append hshrinks)).congr ?_
      rw [smooth_append_cons hc, true_and]
    · have hnone' := quotes_gap_char hg hc hnone
      rw [hseparator, if_neg Bool.false_ne_true] at hnone'
      exact .inr ⟨by simpa using hwhole, hnone'⟩

/-- How a text is read behind a gap that was begun. -/
theorem isQuoted_append (s : List Char) :
    ∀ g : List Char, (∀ a ∈ g, isLoose a = true) → IsQuoted (g ++ s) (g ++ s.flatMap textChar) := by
  induction s with
  | nil =>
    intro g hg
    rw [List.append_nil, List.flatMap_nil, List.append_nil]
    exact isQuoted_gap hg
  | cons c s ih =>
    intro g hg
    cases hc : isLoose c with
    | true =>
      have hnext := ih (g ++ [c]) (List.forall_mem_append.2 ⟨hg, List.forall_mem_singleton.2 hc⟩)
      rw [List.append_assoc, List.append_assoc, List.singleton_append, List.singleton_append] at hnext
      rwa [List.flatMap_cons, textChar_of_isLoose hc, List.singleton_append]
    | false => exact .cons hg hc (ih [] (by simp))

/-- A text is read if it is whole, and as it is exactly if it is smooth. -/
theorem quotes_text (s : List Char) : IsQuoted s (s.flatMap textChar) := isQuoted_append s [] (by simp)

end Entail.Document.Json
