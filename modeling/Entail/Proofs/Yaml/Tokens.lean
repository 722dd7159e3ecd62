import Entail.Proofs.Yaml.Blocks
import Entail.Yaml.Printer

/-!
# The tokens of documents in block style

* `Yaml.ReadsAs s r` : in its style a text reads as another one, which is the same unless it stands between apostrophes
  and holds NEL (`exists_readsAs`);
* `Document.blockTokens` : the tokens of a document in blocks;
* `Document.leads_value`, `leads_items`, `leads_fields` : what is written in block style is read as these tokens.
-/

namespace Entail

namespace Yaml

variable {l : Lexer} {n k m column : Nat} {outer : List Int} {ts : List Token} {s r u : List Char}

/-! ## Texts in their styles -/

/-- What a text is read as in its style. -/
structure ReadsAs (s r : List Char) : Prop where
  single : Style.ofText s = .single → ReadsFolded s r
  same : Style.ofText s ≠ .single → r = s

/-- A text is read as it is unless it stands between apostrophes and holds NEL. -/
theorem exists_readsAs (s : List Char) :
    ∃ r, ReadsAs s r ∧ (r = s ↔ ¬ ('\u0085' ∈ s ∧ allowsSingle s = true)) := by
  by_cases hstyle : Style.ofText s = .single
  · have hsingle : allowsSingle s = true := by
      unfold Style.ofText at hstyle
      split_ifs at hstyle with hplain hsingle
      exact hsingle
    have hallows := hsingle
    simp only [allowsSingle, Bool.and_eq_true, Bool.not_eq_true', List.all_eq_true] at hallows
    obtain ⟨r, hr⟩ := exists_readsFolded s.length (Nat.le_refl _) (isChain_of_hasSpaceAtBreak hallows.1) hallows.2
    refine ⟨r, ⟨fun _ => hr, fun h => absurd hstyle h⟩, ?_⟩
    rw [hr.shrinks.same]
    simp [hsingle]
  · refine ⟨s, ⟨fun h => absurd h hstyle, fun _ => rfl⟩, iff_of_true rfl ?_⟩
    rintro ⟨hnel, hsingle⟩
    have hplain : allowsPlain s = true := by
      by_contra hplain
      exact hstyle (by rw [Style.ofText, if_neg hplain, if_pos hsingle])
    obtain ⟨-, -, hchars, -⟩ := allowsPlain_cases hplain
    rcases hchars _ hnel with hspace | hgap
    · exact absurd hspace (by decide)
    · exact absurd hgap (by decide)

namespace Lexer

theorem InBlock.quotedText {q : Char} {e : List Char} (hq : IsQuote q) (he : Quotes q e (some r))
    (h : InBlock l false column n outer ts (' ' :: (q :: e ++ [q]) ++ ['\n'] ++ (spaces k ++ u)))
    (hcolumn : n < column) (hu : LineStart u) :
    ∃ l', Step l l' ∧ Faces l' true k n outer (ts ++ [.scalar (String.ofList r) false]) u := by
  have hstart : StartsToken (q :: e ++ q :: ('\n' :: spaces k ++ u)) := by
    rcases hq with rfl | rfl
    · exact startsToken_cons (by decide)
    · exact startsToken_cons (by decide)
  have hline : ('\n' :: spaces k ++ u).head? ≠ some q := by
    rcases hq with rfl | rfl
    · exact fun h => absurd (Option.some.inj h) (by decide)
    · exact fun h => absurd (Option.some.inj h) (by decide)
  have hfaces := (h.of_eq (v := spaces 1 ++ (q :: e ++ q :: ('\n' :: spaces k ++ u))) (by simp [spaces])).faces_spaces
    hstart
  obtain ⟨l', hstep, column', hl'⟩ := hfaces.quoted hq he hline (by omega)
  exact ⟨l', hstep, hl'.faces_line hu.head⟩

/-- A text behind the colon of its field. -/
theorem InBlock.text (hs : ReadsAs s r)
    (h : InBlock l false column n outer ts (' ' :: scalarChars (n + 2) m s ++ ['\n'] ++ (spaces k ++ u)))
    (hcolumn : n < column) (hk : k ≤ n) (hu : LineStart u) (hfold : n + 2 < foldColumn) :
    ∃ l', Step l l' ∧ Faces l' true k n outer (ts ++ [.scalar (String.ofList r) (allowsPlain s)]) u := by
  by_cases hplain : allowsPlain s = true
  · have hstyle : Style.ofText s = .plain := if_pos hplain
    have hchars : scalarChars (n + 2) m s = foldedChars (n + 2) false m none s := by rw [scalarChars, hstyle]
    obtain rfl := hs.same (by rw [hstyle]; decide)
    obtain ⟨x, w, rfl, hstart⟩ := allowsPlain_start hplain
    obtain ⟨m', hfolded⟩ := hstart.folded (n + 2) m
    have htoken : StartsToken (foldedChars (n + 2) false m none (x :: w) ++ ('\n' :: spaces k ++ u)) := by
      rw [hfolded]
      exact startsToken_cons ⟨ne_of_isGap_eq_false hstart.full rfl, hstart.token.1, isBreak_eq_false hstart.full,
        hstart.token.2⟩
    have hfaces := (h.of_eq (v := spaces 1 ++ (foldedChars (n + 2) false m none (x :: w) ++ ('\n' :: spaces k ++ u)))
      (by simp [hchars, spaces])).faces_spaces htoken
    rw [hplain]
    exact hfaces.plain hplain (by omega) hk hu
  · have hnot : allowsPlain s = false := by simpa using hplain
    rw [hnot]
    by_cases hsingle : allowsSingle s = true
    · have hstyle : Style.ofText s = .single := by rw [Style.ofText, if_neg hplain, if_pos hsingle]
      rw [scalarChars, hstyle] at h
      exact h.quotedText (.inr rfl) ((hs.single hstyle).quotes (Nat.succ_pos _) fun _ => rfl) hcolumn hu
    · have hstyle : Style.ofText s = .double := by rw [Style.ofText, if_neg hplain, if_neg hsingle]
      obtain rfl := hs.same (by rw [hstyle]; decide)
      rw [scalarChars, hstyle] at h
      exact h.quotedText (.inl rfl) (quotes_escaped (Nat.succ_pos _) hfold _ _) hcolumn hu

end Lexer

end Yaml

namespace Document

open Yaml Yaml.Lexer

mutual

/-- The tokens of a document in blocks, given those of its texts. -/
def blockTokens (tok : String → Token) : Document → List Token
  | .text s => [tok s]
  | .list [] => [.flowSequenceStart, .flowSequenceEnd]
  | .list (d :: rest) => entryTokens tok (d :: rest)
  | .fields entries => .blockMappingStart :: pairTokens tok entries ++ [.blockEnd]

def entryTokens (tok : String → Token) : List Document → List Token
  | [] => []
  | d :: rest => .blockEntry :: d.blockTokens tok ++ entryTokens tok rest

def pairTokens (tok : String → Token) : List (String × Document) → List Token
  | [] => []
  | (k, d) :: rest => .key :: .scalar k true :: .value :: d.blockTokens tok ++ pairTokens tok rest

end

mutual

/-- At an indentation all texts stand before the column where they are folded. -/
def Shallow (indent : Nat) : Document → Prop
  | .text _ => indent + step < foldColumn
  | .list items => ShallowItems indent items
  | .fields entries => ShallowFields (indent + step) entries

def ShallowItems (indent : Nat) : List Document → Prop
  | [] => True
  | d :: rest => d.Shallow indent ∧ ShallowItems indent rest

def ShallowFields (indent : Nat) : List (String × Document) → Prop
  | [] => True
  | (_, d) :: rest => d.Shallow indent ∧ ShallowFields indent rest

end

def ReadsStyled (tok : String → Token) : Prop :=
  ∀ s : String, ∃ r, ReadsAs s.toList r ∧ tok s = .scalar (String.ofList r) (allowsPlain s.toList)

/-! ## Lines -/

theorem indented_cons (n : Nat) (b : List Char) (bs : List (List Char)) :
    indented n (b :: bs) = spaces n ++ continued n (b :: bs) := by
  rw [indented, List.flatMap_cons, List.append_assoc]
  rfl

theorem IsName.isWord {k : String} (hk : IsName k) : IsWord k.toList where
  ne := hk.ne
  full a ha := isGap_of_letter (hk.letters a ha)
  hash h := ne_of_letter (hk.letters '#' (List.mem_of_mem_head? h)) (by decide) rfl
  colon h := ne_of_letter (hk.letters ':' (List.mem_of_getLast? h)) (by decide) rfl

theorem startsWithGap_fieldChars (n m : Nat) (d : Document) (v : List Char) :
    startsWithGap (d.fieldChars n m ++ v) = true := by
  cases d with
  | text s => rfl
  | list items => cases items <;> rfl
  | fields entries => cases entries <;> rfl

theorem lineStart_fields {n : Nat} {k : String} {d : Document} {rest : List (String × Document)} (hk : IsName k)
    (v : List Char) : LineStart (continued n (fieldBlocks n ((k, d) :: rest)) ++ v) := by
  obtain ⟨c, w, hcons⟩ := List.exists_cons_of_ne_nil hk.ne
  have hc : 'a' ≤ c ∧ c ≤ 'z' := hk.letters c (hcons ▸ List.mem_cons_self ..)
  have hne : ∀ x, ¬ ('a' ≤ x ∧ x ≤ 'z') → c ≠ x := fun x => ne_of_letter hc
  rw [fieldBlocks, continued, hcons]
  refine ⟨startsToken_cons ⟨hne _ (by decide), hne _ (by decide), isBreak_eq_false (isGap_of_letter hc),
    hne _ (by decide)⟩, separates_eq_false (hne _ (by decide)) (hne _ (by decide))⟩

theorem lineStart_items {n : Nat} {d : Document} {rest : List Document} (v : List Char) :
    LineStart (continued n (itemBlocks n (d :: rest)) ++ v) := by
  rw [itemBlocks, continued]
  exact ⟨startsToken_cons (by decide), rfl⟩

/-! ## What is read -/

section
variable {tok : String → Token}

mutual

/-- The value of a field is read, up to the next line. -/
theorem leads_value (htok : ReadsStyled tok) : ∀ d : Document, d.Regular → ∀ n : Nat, d.Shallow n →
    ∀ ⦃l : Lexer⦄ ⦃column : Nat⦄ ⦃outer : List Int⦄ ⦃ts : List Token⦄ ⦃k : Nat⦄ ⦃u : List Char⦄ (m : Nat),
      InBlock l false column n outer ts (d.fieldChars n m ++ (spaces k ++ u)) → n < column → k ≤ n → LineStart u →
      ∃ l', Leads l l' ∧ Faces l' true k n outer (ts ++ d.blockTokens tok) u
  | .text s, _, n, hshallow => by
    intro l column outer ts k u m h hcolumn hk hu
    obtain ⟨r, hr, htoken⟩ := htok s
    obtain ⟨l', hstep, hl'⟩ := h.text hr hcolumn hk hu hshallow
    exact ⟨l', .single hstep, by rwa [blockTokens, htoken]⟩
  | .list [], _, n, _ => by
    intro l column outer ts k u m h hcolumn hk hu
    have hfaces := InBlock.faces_spaces (k := 1) (u := '[' :: ']' :: '\n' :: spaces k ++ u) h
      (startsToken_cons (by decide))
    obtain ⟨l', hleads, column', hl'⟩ := hfaces.brackets (by omega)
    exact ⟨l', hleads, hl'.faces_line hu.head⟩
  | .list (d :: rest), hd, n, hshallow => by
    intro l column outer ts k u m h hcolumn hk hu
    rw [fieldChars, itemBlocks, indented_cons, ← itemBlocks] at h
    have hfaces := InBlock.faces_line (k := n) (u := continued n (itemBlocks n (d :: rest)) ++ (spaces k ++ u))
      (by simpa using h) (lineStart_items _).head
    obtain ⟨l', hleads, hl'⟩ := leads_items htok (d :: rest) hd n hshallow (List.cons_ne_nil _ _) hfaces hk hu
    exact ⟨l', hleads, by rwa [blockTokens]⟩
  | .fields [], hd, _, _ => absurd rfl hd.1
  | .fields ((name, d) :: rest), hd, n, hshallow => by
    intro l column outer ts k u m h hcolumn hk hu
    rw [fieldChars, fieldBlocks, indented_cons, ← fieldBlocks] at h
    have hfaces := InBlock.faces_line (k := n + step)
      (u := continued (n + step) (fieldBlocks (n + step) ((name, d) :: rest)) ++ (spaces k ++ u)) (by simpa using h)
      (lineStart_fields hd.2.2.1 _).head
    have hlt : (n : Int) < (n + step : Nat) := by rw [step]; omega
    obtain ⟨l', hleads, hl'⟩ := leads_fields htok ((name, d) :: rest) hd.2.2 (n + step) hshallow (List.cons_ne_nil _ _)
      hfaces (Int.le_of_lt hlt) (Nat.le_add_right_of_le hk) hu
    rw [if_pos hlt, if_pos hlt] at hl'
    exact ⟨l', hleads, (hl'.close (by omega)).of_eq (by simp [blockTokens]) rfl⟩

/-- The items of a list in the column of its field. -/
theorem leads_items (htok : ReadsStyled tok) : ∀ ds : List Document, RegularItems ds → ∀ n : Nat, ShallowItems n ds →
    ds ≠ [] → ∀ ⦃l : Lexer⦄ ⦃outer : List Int⦄ ⦃ts : List Token⦄ ⦃k : Nat⦄ ⦃u : List Char⦄,
      Faces l true n n outer ts (continued n (itemBlocks n ds) ++ (spaces k ++ u)) → k ≤ n → LineStart u →
      ∃ l', Leads l l' ∧ Faces l' true k n outer (ts ++ entryTokens tok ds) u
  | [], _, _, _, hne => absurd rfl hne
  | .text _ :: _, hds, _, _, _ => hds.1.elim
  | .list _ :: _, hds, _, _, _ => hds.1.elim
  | .fields es :: rest, hds, n, hshallow, _ => by
    intro l outer ts k u h hk hu
    obtain ⟨-, hes, hrest⟩ := hds
    obtain ⟨e, es', hcons⟩ := List.exists_cons_of_ne_nil hes.1
    have hitem : (Document.fields es).itemChars n = continued (n + step) (fieldBlocks (n + step) es) := by
      rw [hcons]
      rfl
    have hentry := Faces.entry (u := continued (n + step) (fieldBlocks (n + step) es) ++
      (indented n (itemBlocks n rest) ++ (spaces k ++ u))) (h.of_eq rfl (by simp [itemBlocks, continued, hitem]))
    obtain ⟨l₁, hentry, h₁⟩ := hentry
    have hname : ∀ v, StartsToken (continued (n + step) (fieldBlocks (n + step) es) ++ v) := by
      rw [hcons] at hes ⊢
      exact fun v => (lineStart_fields hes.2.2.1 v).head
    have h₁ := h₁.faces_spaces (k := 1) (hname _)
    have hlt : (n : Int) < (n + step : Nat) := by rw [step]; omega
    have hle : n ≤ n + step := Nat.le_add_right n step
    cases rest with
    | nil =>
      obtain ⟨l₂, hleads, h₂⟩ := leads_fields htok es hes.2.2 (n + step) hshallow.1 hes.1 h₁ (Int.le_of_lt hlt)
        (Nat.le_trans hk hle) hu
      rw [if_pos hlt, if_pos hlt] at h₂
      exact ⟨l₂, .head hentry hleads, (h₂.close (by omega)).of_eq (by simp [entryTokens, blockTokens]) rfl⟩
    | cons d rest =>
      have h₁ := h₁.of_eq (v := continued (n + step) (fieldBlocks (n + step) es) ++ (spaces n ++
        (continued n (itemBlocks n (d :: rest)) ++ (spaces k ++ u)))) rfl (by simp [itemBlocks, indented_cons])
      obtain ⟨l₂, hleads, h₂⟩ := leads_fields htok es hes.2.2 (n + step) hshallow.1 hes.1 h₁ (Int.le_of_lt hlt) hle
        (lineStart_items _)
      rw [if_pos hlt, if_pos hlt] at h₂
      obtain ⟨l₃, hleads', h₃⟩ := leads_items htok (d :: rest) hrest n hshallow.2 (List.cons_ne_nil _ _)
        (h₂.close hlt) hk hu
      exact ⟨l₃, .head hentry (hleads.trans hleads'), h₃.of_eq (by simp [entryTokens, blockTokens]) rfl⟩

/-- Fields in a column, with which a block starts unless one is open there. -/
theorem leads_fields (htok : ReadsStyled tok) : ∀ es : List (String × Document), RegularFields es → ∀ n : Nat,
    ShallowFields n es → es ≠ [] →
    ∀ ⦃l : Lexer⦄ ⦃i : Int⦄ ⦃outer : List Int⦄ ⦃ts : List Token⦄ ⦃k : Nat⦄ ⦃u : List Char⦄,
      Faces l true n i outer ts (continued n (fieldBlocks n es) ++ (spaces k ++ u)) → i ≤ n → k ≤ n → LineStart u →
      ∃ l', Leads l l' ∧ Faces l' true k n (if i < n then i :: outer else outer)
        (ts ++ (if i < n then [.blockMappingStart] else []) ++ pairTokens tok es) u
  | [], _, _, _, hne => absurd rfl hne
  | (name, d) :: rest, hes, n, hshallow, _ => by
    intro l i outer ts k u h hi hk hu
    obtain ⟨hname, hd, hrest⟩ := hes
    have hkey := Faces.key (w := name.toList)
      (u := d.fieldChars n (n + name.length + 1) ++ (indented n (fieldBlocks n rest) ++ (spaces k ++ u)))
      (h.of_eq rfl (by simp [fieldBlocks, continued])) hi hname.isWord hname.letters
      (Nat.lt_trans hname.short (by decide)) (startsWithGap_fieldChars ..)
    obtain ⟨l₁, hleads, h₁⟩ := hkey
    have hcolumn : n < n + name.toList.length + 1 := by omega
    rw [String.ofList_toList] at h₁
    cases rest with
    | nil =>
      obtain ⟨l₂, hleads', h₂⟩ := leads_value htok d hd n hshallow.1 _ h₁ hcolumn hk hu
      exact ⟨l₂, hleads.trans hleads', h₂.of_eq (by simp [pairTokens]) rfl⟩
    | cons e rest =>
      have h₁ := h₁.of_eq (v := d.fieldChars n (n + name.length + 1) ++ (spaces n ++
        (continued n (fieldBlocks n (e :: rest)) ++ (spaces k ++ u)))) (by simp [fieldBlocks, indented_cons])
      obtain ⟨l₂, hleads', h₂⟩ := leads_value htok d hd n hshallow.1 _ h₁ hcolumn (Nat.le_refl n)
        (lineStart_fields hrest.1 _)
      obtain ⟨l₃, hleads'', h₃⟩ := leads_fields htok (e :: rest) hrest n hshallow.2 (List.cons_ne_nil _ _) h₂
        (Int.le_refl _) hk hu
      rw [if_neg (Int.lt_irrefl _), if_neg (Int.lt_irrefl _)] at h₃
      exact ⟨l₃, (hleads.trans hleads').trans hleads'', h₃.of_eq (by simp [pairTokens]) rfl⟩

end

/-! ## The whole text -/

/-- The tokens of a mapping of fields as a whole document. -/
theorem tokens_fields (htok : ReadsStyled tok) {es : List (String × Document)} (hes : (Document.fields es).Regular)
    (hshallow : ShallowFields 0 es) (hadmissible : ∀ c ∈ indented 0 (fieldBlocks 0 es), isAdmissible c = true) :
    tokens (indented 0 (fieldBlocks 0 es)) = ⟨(Document.fields es).blockTokens tok, none⟩ := by
  obtain ⟨e, es', hcons⟩ := List.exists_cons_of_ne_nil hes.1
  have htext : indented 0 (fieldBlocks 0 es) = spaces 0 ++ (continued 0 (fieldBlocks 0 es) ++ (spaces 0 ++ [])) := by
    rw [hcons, fieldBlocks, indented_cons]
    simp [spaces]
  have hname : StartsToken (continued 0 (fieldBlocks 0 es) ++ (spaces 0 ++ [])) := by
    rw [hcons] at hes ⊢
    exact (lineStart_fields hes.2.2.1 _).head
  have hstart := ((InBlock.start (indented 0 (fieldBlocks 0 es))).of_eq htext).faces_spaces hname
  obtain ⟨l', hleads, hl'⟩ := leads_fields htok es hes.2.2 0 hshallow hes.1 hstart (by decide) (Nat.le_refl 0) .nil
  rw [tokens, if_pos (List.all_eq_true.2 hadmissible)]
  refine run_of_leads hleads (hl'.of_eq (t := .blockMappingStart :: pairTokens tok es) (by simp) rfl).ends ?_
  change (indented 0 (fieldBlocks 0 es)).length - 0 < _
  omega

end

end Document

end Entail
