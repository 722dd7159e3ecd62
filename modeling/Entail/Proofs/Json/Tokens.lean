import Entail.Proofs.Json.Texts
import Entail.Proofs.Shapes
import Entail.Proofs.Yaml.Flows

/-!
# The tokens of JSON

* `Document.flowTokens` : the tokens of a document in flows;
* `Document.tokens_json` : what is written as JSON is read as these tokens, with the texts as they are read, if every
  text can be read, and else there is a fault.
-/

namespace Entail.Document

open Json
open Yaml (Quotes Shrinks spaces)
open Yaml.Lexer

mutual

def flowTokens : Document → List Yaml.Token
  | .text s => [.scalar s false]
  | .list items => .flowSequenceStart :: (flowItemTokens items).tail ++ [.flowSequenceEnd]
  | .fields entries => .flowMappingStart :: (flowFieldTokens entries).tail ++ [.flowMappingEnd]

def flowItemTokens : List Document → List Yaml.Token
  | [] => []
  | d :: rest => .flowEntry :: d.flowTokens ++ flowItemTokens rest

def flowFieldTokens : List (String × Document) → List Yaml.Token
  | [] => []
  | (k, d) :: rest => .flowEntry :: .key :: .scalar k false :: .value :: d.flowTokens ++ flowFieldTokens rest

end

/-! ## The text -/

theorem intercalate_cons {α : Type} (sep x : List α) (xs : List (List α)) :
    sep.intercalate (x :: xs) = x ++ xs.flatMap (sep ++ ·) := by
  induction xs generalizing x with
  | nil => simp
  | cons y ys ih => simp only [List.intercalate_cons_cons, ih, List.flatMap_cons, List.append_assoc]

def commas (level : Nat) (items : List (List Char)) : List Char := items.flatMap fun x => ',' :: newLine level ++ x

theorem enclosed_cons (opening closing : Char) (level : Nat) (x : List Char) (xs : List (List Char)) :
    enclosed opening closing level (x :: xs) =
      opening :: (newLine (level + 1) ++ (x ++ (commas (level + 1) xs ++ (newLine level ++ [closing])))) := by
  simp [enclosed, intercalate_cons, commas]

theorem textChar_of_letter {c : Char} (h : 'a' ≤ c ∧ c ≤ 'z') : textChar c = [c] := by
  have hlt : ¬ c < ' ' := Char.not_lt.2 (Char.le_trans (by decide) h.1)
  have hne : ∀ x, ¬ ('a' ≤ x ∧ x ≤ 'z') → c ≠ x := fun x => ne_of_letter h
  simp [textChar, hlt, hne '"' (by decide), hne '\\' (by decide), hne '\n' (by decide), hne '\r' (by decide),
    hne '\t' (by decide), hne '\x0c' (by decide), hne '\x08' (by decide)]

/-- A name stands as it is. -/
theorem flatMap_textChar_of_isName {k : String} (hk : IsName k) : k.toList.flatMap textChar = k.toList := by
  rw [List.flatMap_congr fun c hc => textChar_of_letter (hk.letters c hc), List.flatMap_singleton']

theorem quotes_name {s : List Char} (hs : ∀ c ∈ s, 'a' ≤ c ∧ c ≤ 'z') : Quotes '"' s (some s) := by
  induction s with
  | nil => exact .nil (.inl rfl)
  | cons c s ih =>
    have hc := hs c (List.mem_cons_self ..)
    have htext : Yaml.isQuotedText c = true := by
      simp [Yaml.isQuotedText, isGap_of_letter hc, ne_of_letter hc]
    exact (ih fun b hb => hs b (List.mem_cons_of_mem _ hb)).text htext

/-! ## What is read -/

variable {f : String → String}

def ReadsWhole (f : String → String) : Prop :=
  ∀ s : String, isWhole s.toList = true → Quotes '"' (s.toList.flatMap textChar) (some (f s).toList)

/-- Wherever a document is written in a flow, it is read with other texts, or its fault is met. -/
def IsRead (f : String → String) (d : Document) : Prop :=
  ∀ ⦃l : Yaml.Lexer⦄ ⦃depth : Nat⦄ ⦃keys : Bool⦄ ⦃ts : List Yaml.Token⦄ ⦃g u : List Char⦄ (level : Nat),
    l.InFlow depth keys ts (g ++ (d.jsonChars level ++ u)) → IsFlowGap depth g → u.head? ≠ some '"' →
      l.Goes (∀ s ∈ d.texts, isWhole s.toList = true) fun l' =>
        l'.InFlow depth false (ts ++ (d.mapTexts f).flowTokens) u

variable {l : Yaml.Lexer} {depth n : Nat} {keys : Bool} {ts : List Yaml.Token} {g u : List Char}

theorem isRead_text (hf : ReadsWhole f)
    (s : String) : IsRead f (.text s) := by
  intro l depth keys ts g u level h hg hu
  have h := h.of_eq (v := g ++ ('"' :: s.toList.flatMap textChar ++ '"' :: u)) rfl (by simp [jsonChars, textChars])
  rcases quotes_text s.toList with ⟨hwhole, -⟩ | ⟨hwhole, hnone⟩
  · obtain ⟨l', hstep, hl'⟩ := h.text hg (hf s hwhole) hu
    rw [String.ofList_toList] at hl'
    exact .inl ⟨by simpa [texts] using hwhole, l', .single hstep, hl'⟩
  · exact .inr ⟨by simpa [texts] using hwhole, h.fails hg hnone hu⟩

/-- A name, a colon and what follows. -/
theorem goes_field {k : String} {d : Document} (hk : IsName k) (hd : IsRead f d)
    (h : l.InFlow (depth + 1) true ts (newLine n ++ (textChars k ++ ':' :: ' ' :: d.jsonChars n ++ u)))
    (hu : u.head? ≠ some '"') :
    l.Goes (∀ s ∈ d.texts, isWhole s.toList = true) fun l' =>
      l'.InFlow (depth + 1) false (ts ++ .key :: .scalar k false :: .value :: (d.mapTexts f).flowTokens) u := by
  have h := h.of_eq (v := newLine n ++ ('"' :: k.toList ++ '"' :: ':' :: ([' '] ++ (d.jsonChars n ++ u)))) rfl
    (by simp [textChars, flatMap_textChar_of_isName hk])
  have hline : ∀ b ∈ k.toList, Yaml.isBreak b = false := fun b hb =>
    Yaml.isBreak_eq_false (isGap_of_letter (hk.letters b hb))
  have hshort : k.toList.length < keyReach - 1 := Nat.lt_trans hk.short (by decide)
  obtain ⟨l', hleads, hl'⟩ := h.key (.line depth _) (quotes_name hk.letters) hline hshort
  rw [String.ofList_toList] at hl'
  exact .of_leads hleads ((hd n hl' (.space _) hu).mono Iff.rfl fun l'' hl'' => hl''.of_eq (by simp) rfl)

/-- The end of a list or a mapping on a line of its own. -/
theorem goes_end {x : Char} {t : Yaml.Token}
    (hx : x = ']' ∧ t = .flowSequenceEnd ∨ x = '\x7d' ∧ t = .flowMappingEnd)
    (h : l.InFlow (depth + 1) keys ts (newLine n ++ ([x] ++ u))) :
    l.Goes True fun l' => l'.InFlow depth false (ts ++ [t]) u := by
  obtain ⟨l', hstep, hl'⟩ := h.closes (.line depth _) hx
  exact .inl ⟨trivial, l', .single hstep, hl'⟩

theorem head?_commas {items : List (List Char)} (hu : u.head? ≠ some '"') : (commas n items ++ u).head? ≠ some '"' := by
  cases items with
  | nil => exact hu
  | cons x xs => simp [commas]

theorem head?_newLine (level : Nat) (v : List Char) : (newLine level ++ v).head? ≠ some '"' := by simp [newLine]

mutual

theorem isRead_document (hf : ReadsWhole f) :
    ∀ d : Document, d.Regular → IsRead f d
  | .text s, _ => isRead_text hf s
  | .list [], _ => by
    intro l depth keys ts g u level h hg hu
    have h := h.of_eq (v := g ++ '[' :: ([] ++ ']' :: u)) rfl (by simp [jsonChars, jsonItems, enclosed])
    obtain ⟨l₁, hstep, h₁⟩ := h.opens hg (.inl ⟨rfl, rfl⟩)
    obtain ⟨l₂, hstep', h₂⟩ := h₁.closes (.none _) (.inl ⟨rfl, rfl⟩)
    refine .inl ⟨by simp [texts, itemTexts], l₂, .tail (.single hstep) hstep', h₂.of_eq ?_ rfl⟩
    simp [mapTexts, mapItems, flowTokens, flowItemTokens]
  | .list (d :: rest), hd => by
    intro l depth keys ts g u level h hg hu
    obtain ⟨-, hfirst, hrest⟩ := hd
    have h := h.of_eq (v := g ++ '[' :: (newLine (level + 1) ++ (d.jsonChars (level + 1) ++
      (commas (level + 1) (jsonItems (level + 1) rest) ++ (newLine level ++ ([']'] ++ u)))))) rfl
      (by simp [jsonChars, jsonItems, enclosed_cons])
    obtain ⟨l₁, hstep, h₁⟩ := h.opens hg (.inl ⟨rfl, rfl⟩)
    have hlast := head?_newLine level ([']'] ++ u)
    have hread := (isRead_document hf d hfirst (level + 1) h₁ (.line depth _) (head?_commas hlast)).bind fun l₂ h₂ =>
      (goes_items hf rest hrest h₂ hlast).bind fun l₃ h₃ => goes_end (.inl ⟨rfl, rfl⟩) h₃
    refine .of_leads (.single hstep) (hread.mono ?_ fun l₄ h₄ => h₄.of_eq ?_ rfl)
    · simp [texts, itemTexts, or_imp, forall_and]
    · simp [mapTexts, mapItems, flowTokens, flowItemTokens]
  | .fields [], hd => absurd rfl hd.1
  | .fields ((k, d) :: rest), hd => by
    intro l depth keys ts g u level h hg hu
    obtain ⟨-, -, hk, hfirst, hrest⟩ := hd
    have h := h.of_eq (v := g ++ '\x7b' :: (newLine (level + 1) ++ (textChars k ++ ':' :: ' ' ::
      d.jsonChars (level + 1) ++ (commas (level + 1) (jsonFields (level + 1) rest) ++
        (newLine level ++ (['\x7d'] ++ u)))))) rfl
      (by simp [jsonChars, jsonFields, enclosed_cons])
    obtain ⟨l₁, hstep, h₁⟩ := h.opens hg (.inr ⟨rfl, rfl⟩)
    have hlast := head?_newLine level (['\x7d'] ++ u)
    have hread := (goes_field hk (isRead_document hf d hfirst) h₁ (head?_commas hlast)).bind fun l₂ h₂ =>
      (goes_fields hf rest hrest h₂ hlast).bind fun l₃ h₃ => goes_end (.inr ⟨rfl, rfl⟩) h₃
    refine .of_leads (.single hstep) (hread.mono ?_ fun l₄ h₄ => h₄.of_eq ?_ rfl)
    · simp [texts, fieldTexts, or_imp, forall_and]
    · simp [mapTexts, mapFields, flowTokens, flowFieldTokens]

theorem goes_items (hf : ReadsWhole f) :
    ∀ ds : List Document, RegularItems ds → ∀ ⦃l : Yaml.Lexer⦄ ⦃depth n : Nat⦄ ⦃ts : List Yaml.Token⦄
      ⦃u : List Char⦄, l.InFlow (depth + 1) false ts (commas n (jsonItems n ds) ++ u) → u.head? ≠ some '"' →
      l.Goes (∀ s ∈ itemTexts ds, isWhole s.toList = true) fun l' =>
        l'.InFlow (depth + 1) false (ts ++ flowItemTokens (mapItems f ds)) u
  | [], _, _, _, _, _, _, h, _ => .refl (by simp [itemTexts]) (h.of_eq (by simp [mapItems, flowItemTokens]) rfl)
  | d :: rest, hds, l, depth, n, ts, u, h, hu => by
    obtain ⟨-, hfirst, hrest⟩ := hds
    have h := h.of_eq (v := ',' :: (newLine n ++ (d.jsonChars n ++ (commas n (jsonItems n rest) ++ u)))) rfl
      (by simp [jsonItems, commas])
    obtain ⟨l₁, hstep, h₁⟩ := h.entry
    have hread := (isRead_document hf d hfirst n h₁ (.line depth _) (head?_commas hu)).bind fun l₂ h₂ =>
      goes_items hf rest hrest h₂ hu
    refine .of_leads (.single hstep) (hread.mono ?_ fun l₃ h₃ => h₃.of_eq ?_ rfl)
    · simp [itemTexts, or_imp, forall_and]
    · simp [mapItems, flowItemTokens]

theorem goes_fields (hf : ReadsWhole f) :
    ∀ es : List (String × Document), RegularFields es → ∀ ⦃l : Yaml.Lexer⦄ ⦃depth n : Nat⦄ ⦃ts : List Yaml.Token⦄
      ⦃u : List Char⦄, l.InFlow (depth + 1) false ts (commas n (jsonFields n es) ++ u) → u.head? ≠ some '"' →
      l.Goes (∀ s ∈ fieldTexts es, isWhole s.toList = true) fun l' =>
        l'.InFlow (depth + 1) false (ts ++ flowFieldTokens (mapFields f es)) u
  | [], _, _, _, _, _, _, h, _ => .refl (by simp [fieldTexts]) (h.of_eq (by simp [mapFields, flowFieldTokens]) rfl)
  | (k, d) :: rest, hes, l, depth, n, ts, u, h, hu => by
    obtain ⟨hk, hfirst, hrest⟩ := hes
    have h := h.of_eq (v := ',' :: (newLine n ++ (textChars k ++ ':' :: ' ' :: d.jsonChars n ++
      (commas n (jsonFields n rest) ++ u)))) rfl (by simp [jsonFields, commas])
    obtain ⟨l₁, hstep, h₁⟩ := h.entry
    have hread := (goes_field hk (isRead_document hf d hfirst) h₁ (head?_commas hu)).bind fun l₂ h₂ =>
      goes_fields hf rest hrest h₂ hu
    refine .of_leads (.single hstep) (hread.mono ?_ fun l₃ h₃ => h₃.of_eq ?_ rfl)
    · simp [fieldTexts, or_imp, forall_and]
    · simp [mapFields, flowFieldTokens]

end

/-! ## The characters -/

/-- The characters of a text that are not escaped. -/
def shown (s : String) : List Char := s.toList.filter fun c => ¬ c < ' '

section
variable {P : Char → Prop}

theorem forall_newLine (hP : HasMarks P) (level : Nat) : ∀ c ∈ newLine level, P c := by
  intro c hc
  rcases List.mem_cons.1 hc with rfl | hc
  · exact hP _ (.inl rfl)
  · rw [List.eq_of_mem_replicate hc]
    exact hP _ (.inr (by decide))

/-- What is escaped is written with marks. -/
theorem forall_textChar (hP : HasMarks P) (c : Char) : (∀ a ∈ textChar c, P a) ↔ (¬ c < ' ' → P c) := by
  have hmark : ∀ x, ' ' ≤ x ∧ x ≤ '~' → P x := fun x hx => hP x (.inr hx)
  have hback := hmark '\\' (by decide)
  unfold textChar
  split_ifs with h₁ h₂ h₃ h₄ h₅ h₆ h₇
  · rcases h₁ with rfl | rfl <;> simp [hback, hmark '"' (by decide)]
  · simp [h₂, hback, hmark 'n' (by decide)]
  · simp [h₃, hback, hmark 'r' (by decide)]
  · simp [h₄, hback, hmark 't' (by decide)]
  · simp [h₅, hback, hmark 'f' (by decide)]
  · simp [h₆, hback, hmark 'b' (by decide)]
  · simp only [List.forall_mem_cons, hback, hmark 'u' (by decide), true_and, h₇, not_true, false_implies, iff_true]
    exact forall_hexadecimal hP false 4 _
  · simp [h₇]

theorem forall_textChars (hP : HasMarks P) (s : String) : (∀ a ∈ textChars s, P a) ↔ ∀ c ∈ shown s, P c := by
  have hquote := hP '"' (.inr (by decide))
  simp only [textChars, List.forall_mem_cons, List.forall_mem_append, List.forall_mem_flatMap, forall_textChar hP,
    hquote, shown, List.mem_filter, decide_eq_true_eq]
  simp

theorem forall_enclosed (hP : HasMarks P) {opening closing : Char} (hopening : P opening) (hclosing : P closing)
    (level : Nat) (items : List (List Char)) :
    (∀ c ∈ enclosed opening closing level items, P c) ↔ ∀ x ∈ items, ∀ c ∈ x, P c := by
  have hcomma := hP ',' (.inr (by decide))
  cases items with
  | nil => simp [enclosed, hopening, hclosing]
  | cons x xs =>
    have hline := fun n => iff_true_intro (forall_newLine hP n)
    simp only [enclosed_cons, commas, List.forall_mem_cons, List.forall_mem_append, List.forall_mem_flatMap, hopening,
      hclosing, hcomma, hline, true_and]
    exact and_congr_right fun _ => and_iff_left nofun

theorem forall_name (hP : HasMarks P) {k : String} (hk : IsName k) : ∀ a ∈ textChars k, P a :=
  (forall_textChars hP k).2 fun c hc => hk.forall_mem hP c (List.mem_filter.1 hc).1

mutual

/-- All characters of a document are of a class if those of its texts are. -/
theorem forall_jsonChars (hP : HasMarks P) : ∀ (d : Document), d.Regular → ∀ level : Nat,
    (∀ c ∈ d.jsonChars level, P c) ↔ ∀ s ∈ d.texts, ∀ c ∈ shown s, P c
  | .text s, _, _ => by simpa [jsonChars, texts] using forall_textChars hP s
  | .list items, h, level => by
    rw [jsonChars, forall_enclosed hP (hP _ (.inr (by decide))) (hP _ (.inr (by decide))), texts]
    exact forall_jsonItems hP items h (level + 1)
  | .fields entries, h, level => by
    rw [jsonChars, forall_enclosed hP (hP _ (.inr (by decide))) (hP _ (.inr (by decide))), texts]
    exact forall_jsonFields hP entries h.2.2 (level + 1)

theorem forall_jsonItems (hP : HasMarks P) : ∀ (ds : List Document), RegularItems ds → ∀ level : Nat,
    (∀ x ∈ jsonItems level ds, ∀ c ∈ x, P c) ↔ ∀ s ∈ itemTexts ds, ∀ c ∈ shown s, P c
  | [], _, _ => by simp [jsonItems, itemTexts]
  | d :: rest, h, level => by
    rw [jsonItems, itemTexts, List.forall_mem_cons, List.forall_mem_append, forall_jsonChars hP d h.2.1,
      forall_jsonItems hP rest h.2.2]

theorem forall_jsonFields (hP : HasMarks P) : ∀ (es : List (String × Document)), RegularFields es → ∀ level : Nat,
    (∀ x ∈ jsonFields level es, ∀ c ∈ x, P c) ↔ ∀ s ∈ fieldTexts es, ∀ c ∈ shown s, P c
  | [], _, _ => by simp [jsonFields, fieldTexts]
  | (k, d) :: rest, h, level => by
    have hmark : P ':' ∧ P ' ' := ⟨hP _ (.inr (by decide)), hP _ (.inr (by decide))⟩
    rw [jsonFields, fieldTexts, List.forall_mem_cons, List.forall_mem_append, List.forall_mem_append,
      List.forall_mem_cons, List.forall_mem_cons, forall_jsonChars hP d h.2.1, forall_jsonFields hP rest h.2.2]
    simp only [iff_true_intro (forall_name hP h.1), hmark, true_and]

end

end

/-! ## The whole text -/

theorem hasMarks_isAdmissible : HasMarks fun c => Yaml.isAdmissible c = true := by
  rintro c (rfl | ⟨hlow, hhigh⟩)
  · decide
  · rw [Char.le_def, UInt32.le_iff_toNat_le] at hlow hhigh
    have hlow : 0x20 ≤ c.toNat := hlow
    have hhigh : c.toNat ≤ 0x7e := hhigh
    simp [Yaml.isAdmissible, hlow, hhigh]

/-- What can be read of a text: it is whole, and a document may hold its characters. -/
structure IsReadable (s : String) : Prop where
  whole : isWhole s.toList = true
  admissible : ∀ c ∈ shown s, Yaml.isAdmissible c = true

/-- A document whose texts can be read has the tokens of the texts that are read, and any other has a fault. -/
theorem tokens_json (hf : ReadsWhole f) {d : Document} (hd : d.Regular) :
    ((∀ s ∈ d.texts, IsReadable s) ∧ Yaml.tokens (d.jsonChars 0) = ⟨(d.mapTexts f).flowTokens, none⟩) ∨
      (¬ (∀ s ∈ d.texts, IsReadable s) ∧ (Yaml.tokens (d.jsonChars 0)).fault.isSome) := by
  have hadmissible := forall_jsonChars hasMarks_isAdmissible d hd 0
  rw [← List.all_eq_true] at hadmissible
  unfold Yaml.tokens
  split
  next hall =>
    have hshown := hadmissible.1 hall
    have hstart := (Yaml.Lexer.InFlow.start (d.jsonChars 0)).of_eq (v := [] ++ (d.jsonChars 0 ++ [])) rfl (by simp)
    rcases isRead_document hf d hd 0 hstart (.none 0) (by simp) with ⟨hwhole, l', hleads, hl'⟩ | ⟨hwhole, hfails⟩
    · refine .inl ⟨fun s hs => ⟨hwhole s hs, hshown s hs⟩, run_of_leads hleads hl'.ends ?_⟩
      change (d.jsonChars 0).length - 0 < (d.jsonChars 0).length + 2
      omega
    · exact .inr ⟨fun h => hwhole fun s hs => (h s hs).whole, hfails _⟩
  next hall => exact .inr ⟨fun h => hall (hadmissible.2 fun s hs => (h s hs).admissible), rfl⟩

end Entail.Document
