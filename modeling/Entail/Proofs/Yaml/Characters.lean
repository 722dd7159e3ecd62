import Entail.Proofs.Yaml.Tokens

/-!
# The characters of documents in block style

* `Yaml.isUnescaped_scalarChars` : every character of a text in its style is one that needs no escape;
* `Document.admissible_fields` : a mapping of fields as a whole document holds no others, so that every character may
  stand there and none is a carriage return.
-/

namespace Entail

open Document (HasMarks)

namespace Yaml

variable {s : List Char} {indent column : Nat}

theorem hasMarks_isUnescaped : HasMarks fun c => isUnescaped c = true := by
  rintro c (rfl | hc)
  · decide
  · simp [isUnescaped, isShown, hc]

theorem isUnescaped_spaces (n : Nat) : ∀ c ∈ spaces n, isUnescaped c = true := fun c hc => by rw [mem_spaces hc]; decide

/-- A document may hold every character that needs no escape, and none is a carriage return. -/
theorem isAdmissible_of_isUnescaped {c : Char} (h : isUnescaped c = true) : isAdmissible c = true ∧ c ≠ '\r' := by
  refine ⟨?_, fun hreturn => absurd (hreturn ▸ h) (by decide)⟩
  have hle : ∀ a b : Char, a ≤ b ↔ a.toNat ≤ b.toNat := fun a b => UInt32.le_iff_toNat_le
  have hascii : ' '.toNat = 0x20 ∧ '~'.toNat = 0x7e ∧ '\u00a0'.toNat = 0xa0 ∧ '\ufffd'.toNat = 0xfffd := by decide
  simp only [isUnescaped, isShown, hle, hascii, Bool.or_eq_true, Bool.and_eq_true, decide_eq_true_eq] at h
  simp only [isAdmissible, Bool.or_eq_true, Bool.and_eq_true, decide_eq_true_eq]
  rcases h with (((h | h) | rfl) | rfl) | h
  · omega
  · omega
  · decide
  · decide
  · omega

theorem isUnescaped_foldedChars {doubled : Bool} {before : Option Char} (hs : ∀ c ∈ s, isUnescaped c = true) :
    ∀ c ∈ foldedChars indent doubled column before s, isUnescaped c = true := by
  induction s generalizing column before with
  | nil => exact List.forall_mem_nil _
  | cons a s ih =>
    obtain ⟨ha, hs⟩ := List.forall_mem_cons.1 hs
    by_cases hspace : a = ' '
    · rw [foldedChars, if_pos hspace]
      split_ifs
      · simp only [List.forall_mem_cons, List.forall_mem_append]
        exact ⟨⟨by decide, isUnescaped_spaces indent⟩, ih hs⟩
      · exact List.forall_mem_cons.2 ⟨ha, ih hs⟩
    · cases hb : isKeptBreak a with
      | true =>
        simp only [foldedChars_break hb, List.forall_mem_cons, List.forall_mem_append]
        refine ⟨⟨?_, ha, ?_⟩, ih hs⟩
        · split_ifs
          · exact List.all_eq_true.1 (by decide)
          · exact List.forall_mem_nil _
        · split_ifs
          · exact isUnescaped_spaces indent
          · exact List.forall_mem_nil _
      | false =>
        obtain ⟨column', hfolded⟩ := foldedChars_char indent column doubled before hspace hb s
        rw [hfolded, List.forall_mem_append]
        refine ⟨?_, ih hs⟩
        split_ifs
        · exact List.forall_mem_cons.2 ⟨ha, List.forall_mem_singleton.2 ha⟩
        · exact List.forall_mem_singleton.2 ha

theorem isUnescaped_escapeChars (c : Char) : ∀ a ∈ escapeChars c, isUnescaped a = true := by
  have hmark : ∀ a, ' ' ≤ a ∧ a ≤ '~' → isUnescaped a = true := fun a ha => hasMarks_isUnescaped a (.inr ha)
  unfold escapeChars
  split
  next x hx =>
    have hletter : ' ' ≤ x ∧ x ≤ '~' := by
      unfold escapeLetter? at hx
      split at hx <;> cases hx <;> decide
    exact List.forall_mem_cons.2 ⟨by decide, List.forall_mem_singleton.2 (hmark x hletter)⟩
  · split_ifs
    all_goals
      exact List.forall_mem_cons.2 ⟨by decide, List.forall_mem_cons.2
        ⟨by decide, Document.forall_hexadecimal hasMarks_isUnescaped true _ _⟩⟩

theorem isUnescaped_escapedBreak (following : Option Char) :
    ∀ c ∈ (escapedBreak indent following).1, isUnescaped c = true := by
  simp only [escapedBreak, List.forall_mem_cons, List.forall_mem_append]
  refine ⟨⟨by decide, by decide, isUnescaped_spaces indent⟩, ?_⟩
  split_ifs
  · exact List.all_eq_true.1 (by decide)
  · exact List.forall_mem_nil _

theorem isUnescaped_escapedChars {isFirst afterEscape : Bool} :
    ∀ c ∈ escapedChars indent column isFirst afterEscape s, isUnescaped c = true := by
  induction s generalizing column isFirst afterEscape with
  | nil => exact nofun
  | cons a s ih =>
    have hshown : isEscaped a ≠ true → isUnescaped a = true := by
      intro ha
      have hshown : isShown a = true := by
        by_contra hnot
        exact ha (by simp [isEscaped, hnot])
      simp [isUnescaped, hshown]
    have hescape := isUnescaped_escapeChars a
    simp only [escapedChars]
    split_ifs with hescaped
    · exact List.forall_mem_append.2 ⟨List.forall_mem_append.2 ⟨hescape, isUnescaped_escapedBreak _⟩, ih⟩
    · exact List.forall_mem_append.2 ⟨hescape, ih⟩
    · exact List.forall_mem_append.2 ⟨isUnescaped_escapedBreak _, List.forall_mem_cons.2 ⟨hshown hescaped, ih⟩⟩
    · exact List.forall_mem_cons.2 ⟨hshown hescaped, ih⟩

/-- Every character of a text in its style needs no escape. -/
theorem isUnescaped_scalarChars : ∀ c ∈ scalarChars indent column s, isUnescaped c = true := by
  unfold scalarChars Style.ofText
  split_ifs with hplain hsingle
  · simp only [allowsPlain, Bool.and_eq_true, Bool.not_eq_true', Bool.or_eq_false_iff] at hplain
    exact isUnescaped_foldedChars (List.all_eq_true.1 (by simpa using hplain.1.1.2))
  · simp only [allowsSingle, Bool.and_eq_true] at hsingle
    simp only [List.forall_mem_cons, List.forall_mem_append]
    exact ⟨⟨by decide, isUnescaped_foldedChars (List.all_eq_true.1 hsingle.2)⟩, by decide, List.forall_mem_nil _⟩
  · simp only [List.forall_mem_cons, List.forall_mem_append]
    exact ⟨⟨by decide, isUnescaped_escapedChars⟩, by decide, List.forall_mem_nil _⟩

end Yaml

namespace Document

open Yaml

variable {n : Nat}

theorem isUnescaped_indented {bs : List (List Char)} (h : ∀ b ∈ bs, ∀ c ∈ b, isUnescaped c = true) :
    ∀ c ∈ indented n bs, isUnescaped c = true := by
  rw [indented, List.forall_mem_flatMap]
  exact fun b hb => List.forall_mem_append.2 ⟨isUnescaped_spaces n, h b hb⟩

theorem isUnescaped_continued {bs : List (List Char)} (h : ∀ b ∈ bs, ∀ c ∈ b, isUnescaped c = true) :
    ∀ c ∈ continued n bs, isUnescaped c = true := by
  cases bs with
  | nil => exact nofun
  | cons b bs =>
    obtain ⟨hb, hbs⟩ := List.forall_mem_cons.1 h
    exact List.forall_mem_append.2 ⟨hb, isUnescaped_indented hbs⟩

mutual

theorem isUnescaped_fieldChars : ∀ d : Document, d.Regular → ∀ n m : Nat, ∀ c ∈ d.fieldChars n m, isUnescaped c = true
  | .text s, _, n, m => by
    simp only [fieldChars, List.forall_mem_cons, List.forall_mem_append]
    exact ⟨⟨by decide, isUnescaped_scalarChars⟩, by decide, nofun⟩
  | .list [], _, n, m => by
    rw [fieldChars]
    exact List.all_eq_true.1 (by decide)
  | .list (d :: rest), hd, n, m =>
    List.forall_mem_cons.2 ⟨by decide, isUnescaped_indented (isUnescaped_itemBlocks (d :: rest) hd n)⟩
  | .fields [], hd, _, _ => absurd rfl hd.1
  | .fields (e :: rest), hd, n, m =>
    List.forall_mem_cons.2 ⟨by decide, isUnescaped_indented (isUnescaped_fieldBlocks (e :: rest) hd.2.2 (n + step))⟩

theorem isUnescaped_itemBlocks : ∀ ds : List Document, RegularItems ds → ∀ n : Nat,
    ∀ b ∈ itemBlocks n ds, ∀ c ∈ b, isUnescaped c = true
  | [], _, _ => nofun
  | .text _ :: _, hds, _ => hds.1.elim
  | .list _ :: _, hds, _ => hds.1.elim
  | .fields es :: rest, hds, n => by
    obtain ⟨-, hes, hrest⟩ := hds
    have hitem : (Document.fields es).itemChars n = continued (n + step) (fieldBlocks (n + step) es) := by
      obtain ⟨e, es, rfl⟩ := List.exists_cons_of_ne_nil hes.1
      rfl
    rw [itemBlocks, List.forall_mem_cons, hitem]
    refine ⟨?_, isUnescaped_itemBlocks rest hrest n⟩
    simp only [List.forall_mem_cons]
    exact ⟨by decide, by decide, isUnescaped_continued (isUnescaped_fieldBlocks es hes.2.2 (n + step))⟩

theorem isUnescaped_fieldBlocks : ∀ es : List (String × Document), RegularFields es → ∀ n : Nat,
    ∀ b ∈ fieldBlocks n es, ∀ c ∈ b, isUnescaped c = true
  | [], _, _ => nofun
  | (k, d) :: rest, hes, n => by
    rw [fieldBlocks, List.forall_mem_cons, List.forall_mem_append, List.forall_mem_cons]
    exact ⟨⟨hes.1.forall_mem hasMarks_isUnescaped, by decide, isUnescaped_fieldChars d hes.2.1 _ _⟩,
      isUnescaped_fieldBlocks rest hes.2.2 n⟩

end

/-- Every character of a mapping of fields as a whole document may stand there and is no carriage return. -/
theorem admissible_fields {es : List (String × Document)} (h : RegularFields es) :
    ∀ c ∈ indented 0 (fieldBlocks 0 es), isAdmissible c = true ∧ c ≠ '\r' := fun c hc =>
  isAdmissible_of_isUnescaped (isUnescaped_indented (isUnescaped_fieldBlocks es h 0) c hc)

end Document

end Entail
