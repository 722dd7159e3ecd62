import Entail.Proofs.Symbols
import Mathlib.Data.List.Induction

/-!
# Symbols of several tables

* `Registry.Step`, `Registry.Reply`, `answer` : what may be asked of the tables of a registry, by their places, and what
  is answered; `after`, `replies` : the registry after a history of such steps, and what was answered on the way;
* `Issued steps i name s` : `s` was the answer when `name` was interned in the table at `i`;
* `Records steps r` : the tables have different owners, and each names exactly the symbols that it issued. Every step
  keeps it (`Records.answer`), so it is so after every history (`records_after`);
* `OneToOne` : the same as answers (`oneToOne_after`).
-/

namespace Entail

namespace SymbolTable

variable {t : SymbolTable} {s : Symbol} {name : String} {h : Handle}

theorem owner_intern (t : SymbolTable) (name : String) : (t.intern name).2.owner = t.owner :=
  (extends_intern t name).1.symm

theorem mem_names_iff : name ∈ t.names ↔ ∃ s, t.nameOf? s = some name := by
  simp only [nameOf?_eq_some_iff]
  constructor
  · intro hmem
    obtain ⟨i, hi⟩ := List.mem_iff_getElem?.1 hmem
    exact ⟨⟨t.owner, i⟩, rfl, hi⟩
  · rintro ⟨s, -, hs⟩
    exact List.mem_of_getElem? hs

/-- Interning names one symbol, which may be new, and leaves all others as they were. -/
theorem nameOf?_intern_iff (ht : t.Distinct) (name : String) {a : String} :
    (t.intern name).2.nameOf? s = some a ↔ t.nameOf? s = some a ∨ (a = name ∧ s = (t.intern name).1) := by
  have hd := ht.intern name
  have hnew := nameOf?_intern t name
  constructor
  · intro hs
    by_cases ha : a = name
    · subst ha
      exact .inr ⟨rfl, nameOf?_inj hd hs hnew⟩
    · -- another name than the one interned was there before
      refine .inl ?_
      have hmem := mem_names_iff.2 ⟨s, hs⟩
      have hold : a ∈ t.names := by
        unfold intern at hmem
        split at hmem
        · exact hmem
        · exact (List.mem_append.1 hmem).resolve_right fun h => ha (List.mem_singleton.1 h)
      obtain ⟨s', hs'⟩ := mem_names_iff.1 hold
      rwa [nameOf?_inj hd hs ((extends_intern t name).nameOf? hs')]
  · rintro (hs | ⟨rfl, rfl⟩)
    · exact (extends_intern t name).nameOf? hs
    · exact hnew

/-- A handle is resolved exactly if it is that of a symbol with a name. -/
theorem resolve_eq_ok_iff : t.resolve h = .ok name ↔ ∃ s, h = .ofSymbol s ∧ t.nameOf? s = some name := by
  simp only [nameOf?_eq_some_iff]
  cases h with
  | value v => simp [resolve, Handle.ofSymbol]
  | numbered owner index =>
    have hhandle : ∀ s : Symbol, Handle.numbered owner index = .ofSymbol s ↔ owner = s.owner ∧ index = s.index :=
      fun s => by rw [Handle.ofSymbol, Handle.numbered.injEq]
    simp only [resolve, hhandle]
    split_ifs with hown
    · obtain ⟨rfl, hindex⟩ := hown
      lift index to Nat using hindex
      rw [Int.toNat_natCast]
      split
      next a ha =>
        constructor
        · rintro h
          exact ⟨⟨t.owner, index⟩, ⟨rfl, rfl⟩, rfl, ha.trans (congrArg some (Except.ok.inj h))⟩
        · rintro ⟨s, ⟨-, hi⟩, -, hs⟩
          rw [← Int.ofNat_inj.1 hi, ha] at hs
          rw [Option.some.inj hs]
      next hnone =>
        refine iff_of_false nofun ?_
        rintro ⟨s, ⟨-, hi⟩, -, hs⟩
        rw [← Int.ofNat_inj.1 hi, hnone] at hs
        cases hs
    · refine iff_of_false nofun ?_
      rintro ⟨s, ⟨ho, hi⟩, hs, -⟩
      exact hown ⟨by rw [ho, hs], by omega⟩

/-- A handle that is not resolved comes back. -/
theorem resolve_eq_error (h : Handle) : (∃ name, t.resolve h = .ok name) ∨ t.resolve h = .error h := by
  cases h with
  | value v => exact .inr rfl
  | numbered owner index =>
    unfold resolve
    simp only
    split_ifs
    · split
      · exact .inl ⟨_, rfl⟩
      · exact .inr rfl
    · exact .inr rfl

end SymbolTable

inductive Registry.Step where
  | openTable
  | intern (i : Nat) (name : String)
  | lookup (i : Nat) (name : String)
  | resolve (i : Nat) (h : Handle)

def Registry.Step.opens : Step → Bool
  | .openTable => true
  | _ => false

/-- What is answered: the place of a new table, a symbol, a symbol if there is one, a name if there is one; or that
there is no table at the place. -/
inductive Registry.Reply where
  | opened (i : Nat)
  | issued (s : Symbol)
  | found (s? : Option Symbol)
  | named (x : Except Handle String)
  | noTable

namespace Registry

def answer (r : Registry) : Step → Reply × Registry
  | .openTable => (.opened r.tables.length, r.openTable)
  | .intern i name =>
    match r.intern? i name with
    | some (s, r) => (.issued s, r)
    | none => (.noTable, r)
  | .lookup i name =>
    match r.table? i with
    | some t => (.found (t.lookup? name), r)
    | none => (.noTable, r)
  | .resolve i h =>
    match r.table? i with
    | some t => (.named (t.resolve h), r)
    | none => (.noTable, r)

def performAll (r : Registry) (steps : List Step) : Registry := steps.foldl (fun r x => (r.answer x).2) r

/-- The steps with what is answered to each. -/
def repliesFrom (r : Registry) : List Step → List (Step × Reply)
  | [] => []
  | x :: rest => (x, (r.answer x).1) :: repliesFrom (r.answer x).2 rest

def after (steps : List Step) : Registry := empty.performAll steps

def replies (steps : List Step) : List (Step × Reply) := empty.repliesFrom steps

/-- The symbol was the answer when the name was interned in the table at the place. -/
def Issued (steps : List Step) (i : Nat) (name : String) (s : Symbol) : Prop :=
  (Step.intern i name, Reply.issued s) ∈ replies steps

variable {r : Registry} {steps : List Step} {x : Step} {i j : Nat} {a name : String} {s : Symbol} {t : SymbolTable}

theorem performAll_concat (r : Registry) (steps : List Step) (x : Step) :
    r.performAll (steps ++ [x]) = ((r.performAll steps).answer x).2 := by
  rw [performAll, List.foldl_append]
  rfl

theorem repliesFrom_concat (r : Registry) (steps : List Step) (x : Step) :
    r.repliesFrom (steps ++ [x]) = r.repliesFrom steps ++ [(x, ((r.performAll steps).answer x).1)] := by
  induction steps generalizing r with
  | nil => rfl
  | cons y steps ih =>
    show (y, _) :: repliesFrom _ (steps ++ [x]) = _
    rw [ih]
    rfl

theorem issued_concat : Issued (steps ++ [x]) i a s ↔
    Issued steps i a s ∨ (x = .intern i a ∧ ((after steps).answer x).1 = .issued s) := by
  rw [Issued, replies, repliesFrom_concat, List.mem_append, List.mem_singleton, Prod.mk.injEq]
  exact or_congr_right (and_congr eq_comm eq_comm)

/-! ## What one step does -/

theorem table?_openTable (r : Registry) (i : Nat) : r.openTable.table? i =
    if i = r.tables.length then some (.empty (r.tables.length + 1)) else r.table? i := by
  unfold openTable table?
  simp only
  split_ifs with hi
  · rw [hi, List.getElem?_concat_length]
  · by_cases hlt : i < r.tables.length
    · rw [List.getElem?_append_left hlt]
    · have hlen : (r.tables ++ [SymbolTable.empty (r.tables.length + 1)]).length = r.tables.length + 1 :=
        List.length_append
      rw [List.getElem?_eq_none (by omega), List.getElem?_eq_none (by omega)]

theorem answer_intern (ht : r.table? i = some t) (name : String) :
    r.answer (.intern i name) = (.issued (t.intern name).1, ⟨r.tables.set i (t.intern name).2⟩) := by
  simp only [answer, intern?, ht, Option.map_some]

theorem answer_intern_none (ht : r.table? i = none) (name : String) : r.answer (.intern i name) = (.noTable, r) := by
  simp only [answer, intern?, ht, Option.map_none]

theorem answer_lookup (ht : r.table? i = some t) (name : String) :
    r.answer (.lookup i name) = (.found (t.lookup? name), r) := by
  simp only [answer, ht]

theorem answer_resolve (ht : r.table? i = some t) (h : Handle) :
    r.answer (.resolve i h) = (.named (t.resolve h), r) := by
  simp only [answer, ht]

/-- Looking up adds nothing. -/
theorem answer_lookup_snd (r : Registry) (i : Nat) (name : String) : (r.answer (.lookup i name)).2 = r := by
  unfold answer
  simp only
  split <;> rfl

/-- Resolving adds nothing. -/
theorem answer_resolve_snd (r : Registry) (i : Nat) (h : Handle) : (r.answer (.resolve i h)).2 = r := by
  unfold answer
  simp only
  split <;> rfl

theorem table?_set (r : Registry) (i j : Nat) (u : SymbolTable) (ht : r.table? i = some t) :
    (⟨r.tables.set i u⟩ : Registry).table? j = if i = j then some u else r.table? j := by
  have hlt : i < r.tables.length := (List.getElem?_eq_some_iff.1 ht).1
  show (r.tables.set i u)[j]? = _
  rw [List.getElem?_set]
  split_ifs <;> rfl

theorem length_answer (r : Registry) (x : Step) :
    (r.answer x).2.tables.length = r.tables.length + if x.opens then 1 else 0 := by
  cases x with
  | openTable => exact List.length_append
  | intern i name =>
    cases ht : r.table? i with
    | none =>
      rw [answer_intern_none ht]
      rfl
    | some t =>
      rw [answer_intern ht]
      exact List.length_set
  | lookup i name =>
    rw [answer_lookup_snd]
    rfl
  | resolve i h =>
    rw [answer_resolve_snd]
    rfl

/-! ## Histories -/

/-- Tables have the owner numbers of their places and no name twice, and they name what they issued. -/
structure Records (steps : List Step) (r : Registry) : Prop where
  owner : ∀ i t, r.table? i = some t → t.owner = i + 1
  distinct : ∀ i t, r.table? i = some t → t.Distinct
  issued : ∀ i a s, Issued steps i a s ↔ ∃ t, r.table? i = some t ∧ t.nameOf? s = some a

theorem records_empty : Records [] empty where
  owner i t ht := by cases ht
  distinct i t ht := by cases ht
  issued i a s := iff_of_false nofun fun ⟨_, ht, _⟩ => by cases ht

/-- A step that adds no name. -/
theorem Records.unchanged (h : Records steps (after steps)) (hx : ∀ i a s, x = .intern i a →
    ((after steps).answer x).1 ≠ .issued s) : Records (steps ++ [x]) (after steps) where
  owner := h.owner
  distinct := h.distinct
  issued i a s := by
    rw [issued_concat, ← h.issued]
    exact or_iff_left fun hs => hx i a s hs.1 hs.2

theorem Records.openTable (h : Records steps (after steps)) :
    Records (steps ++ [.openTable]) (after steps).openTable where
  owner i t ht := by
    rw [table?_openTable] at ht
    split_ifs at ht with hi
    · rw [← Option.some.inj ht, hi]
      rfl
    · exact h.owner i t ht
  distinct i t ht := by
    rw [table?_openTable] at ht
    split_ifs at ht with hi
    · rw [← Option.some.inj ht]
      exact SymbolTable.distinct_empty _
    · exact h.distinct i t ht
  issued i a s := by
    have hissued : Issued (steps ++ [.openTable]) i a s ↔ Issued steps i a s := by
      rw [issued_concat]
      exact or_iff_left fun hs => nomatch hs.1
    rw [hissued, h.issued, table?_openTable]
    split_ifs with hi
    · -- the new table names nothing, and there was no table at its place
      have hnone : (after steps).table? i = none := List.getElem?_eq_none (by omega)
      refine iff_of_false ?_ ?_
      · rintro ⟨t, ht, -⟩
        rw [hnone] at ht
        cases ht
      · rintro ⟨t, ht, hs⟩
        rw [← Option.some.inj ht, SymbolTable.nameOf?_eq_some_iff] at hs
        cases hs.2
    · exact Iff.rfl

theorem Records.intern (h : Records steps (after steps)) (ht : (after steps).table? i = some t) (name : String) :
    Records (steps ++ [.intern i name]) ⟨(after steps).tables.set i (t.intern name).2⟩ where
  owner j u hu := by
    rw [table?_set _ _ _ _ ht] at hu
    split_ifs at hu with hij
    · rw [← Option.some.inj hu, SymbolTable.owner_intern, ← hij]
      exact h.owner i t ht
    · exact h.owner j u hu
  distinct j u hu := by
    rw [table?_set _ _ _ _ ht] at hu
    split_ifs at hu with hij
    · rw [← Option.some.inj hu]
      exact (h.distinct i t ht).intern name
    · exact h.distinct j u hu
  issued j a s := by
    rw [issued_concat, answer_intern ht, h.issued, table?_set _ _ _ _ ht, Step.intern.injEq, Reply.issued.injEq]
    split_ifs with hij
    · subst hij
      simp only [ht, Option.some.injEq, exists_eq_left', true_and, SymbolTable.nameOf?_intern_iff (h.distinct i t ht)]
      exact or_congr_right (and_congr eq_comm eq_comm)
    · exact or_iff_left fun hs => hij hs.1.1

/-- Every step keeps the record of what was issued. -/
theorem Records.answer (h : Records steps (after steps)) (x : Step) :
    Records (steps ++ [x]) ((after steps).answer x).2 := by
  cases x with
  | openTable => exact h.openTable
  | intern i name =>
    cases ht : (after steps).table? i with
    | none =>
      rw [answer_intern_none ht]
      refine h.unchanged fun j a s hj => ?_
      rw [answer_intern_none ht]
      exact nofun
    | some t =>
      rw [answer_intern ht]
      exact h.intern ht name
  | lookup i name =>
    rw [answer_lookup_snd]
    exact h.unchanged nofun
  | resolve i g =>
    rw [answer_resolve_snd]
    exact h.unchanged nofun

theorem records_after (steps : List Step) : Records steps (after steps) := by
  induction steps using List.reverseRecOn with
  | nil => exact records_empty
  | append_singleton steps x ih =>
    rw [after, performAll_concat]
    exact ih.answer x

theorem length_tables_after (steps : List Step) : (after steps).tables.length = steps.countP Step.opens := by
  induction steps using List.reverseRecOn with
  | nil => rfl
  | append_singleton steps x ih =>
    rw [after, performAll_concat, length_answer, List.countP_append, List.countP_singleton]
    exact congrArg (· + _) ih

/-! ## Answers -/

/-- Symbols are issued one to one, and looking up and resolving read backwards what was issued. -/
structure OneToOne (steps : List Step) : Prop where
  /-- There are as many tables as were opened, and the next one has a place of its own. -/
  tables : (after steps).tables.length = steps.countP Step.opens ∧
    ((after steps).answer .openTable).1 = .opened (after steps).tables.length
  /-- Symbols are the same exactly if table and name are. -/
  eq_iff : ∀ i j a b s t, Issued steps i a s → Issued steps j b t → (s = t ↔ i = j ∧ a = b)
  /-- Every name gets a symbol in every table. -/
  issues : ∀ i < (after steps).tables.length, ∀ a, ∃ s, ((after steps).answer (.intern i a)).1 = .issued s
  /-- A symbol is looked up exactly if it was issued for the name. -/
  lookup : ∀ i < (after steps).tables.length, ∀ a, ∃ s?, ((after steps).answer (.lookup i a)).1 = .found s? ∧
    ∀ s, s? = some s ↔ Issued steps i a s
  lookup_adds_nothing : ∀ i a, ((after steps).answer (.lookup i a)).2 = after steps
  /-- What was issued is resolved to its name. -/
  resolve : ∀ i a s, Issued steps i a s → ((after steps).answer (.resolve i (.ofSymbol s))).1 = .named (.ok a)
  /-- All else is refused. -/
  resolve_error : ∀ i < (after steps).tables.length, ∀ h,
    ((after steps).answer (.resolve i h)).1 = .named (.error h) ↔ ∀ a s, Issued steps i a s → h ≠ .ofSymbol s
  /-- A table is as large as there are names that were interned in it. -/
  size : ∀ i t, (after steps).table? i = some t → ∃ names : List String, names.Nodup ∧
    (∀ a, a ∈ names ↔ ∃ s, Issued steps i a s) ∧ t.size = names.length

theorem Records.eq_iff (h : Records steps r) {b : String} {u : Symbol} (hs : Issued steps i a s)
    (hu : Issued steps j b u) : s = u ↔ i = j ∧ a = b := by
  obtain ⟨t, ht, hs⟩ := (h.issued i a s).1 hs
  obtain ⟨t', ht', hu⟩ := (h.issued j b u).1 hu
  have howner := (SymbolTable.nameOf?_eq_some_iff.1 hs).1
  have howner' := (SymbolTable.nameOf?_eq_some_iff.1 hu).1
  rw [h.owner i t ht] at howner
  rw [h.owner j t' ht'] at howner'
  constructor
  · rintro rfl
    obtain rfl : i = j := by omega
    obtain rfl := Option.some.inj (ht.symm.trans ht')
    exact ⟨rfl, Option.some.inj (hs.symm.trans hu)⟩
  · rintro ⟨rfl, rfl⟩
    obtain rfl := Option.some.inj (ht.symm.trans ht')
    exact SymbolTable.nameOf?_inj (h.distinct i t ht) hs hu

theorem exists_table? (hi : i < r.tables.length) : ∃ t, r.table? i = some t := ⟨_, List.getElem?_eq_getElem hi⟩

/-- In a table at a place, what is named is what was issued there. -/
theorem Records.nameOf?_iff (h : Records steps r) (ht : r.table? i = some t) :
    t.nameOf? s = some a ↔ Issued steps i a s := by
  rw [h.issued, ht]
  simp only [Option.some.injEq, exists_eq_left']

theorem Records.resolve_eq_error_iff (h : Records steps r) (ht : r.table? i = some t) (g : Handle) :
    t.resolve g = .error g ↔ ∀ a s, Issued steps i a s → g ≠ .ofSymbol s := by
  simp only [← h.nameOf?_iff ht]
  constructor
  · rintro herr a s hs rfl
    rw [SymbolTable.resolve_eq_ok_iff.2 ⟨s, rfl, hs⟩] at herr
    cases herr
  · intro hnone
    obtain ⟨a, hok⟩ | herr := t.resolve_eq_error g
    · obtain ⟨s, rfl, hs⟩ := SymbolTable.resolve_eq_ok_iff.1 hok
      exact absurd rfl (hnone a s hs)
    · exact herr

/-- After every history symbols are issued one to one. -/
theorem oneToOne_after (steps : List Step) : OneToOne steps where
  tables := ⟨length_tables_after steps, rfl⟩
  eq_iff i j a b s t hs ht := (records_after steps).eq_iff hs ht
  issues i hi a := by
    obtain ⟨t, ht⟩ := exists_table? hi
    exact ⟨_, by rw [answer_intern ht]⟩
  lookup i hi a := by
    obtain ⟨t, ht⟩ := exists_table? hi
    refine ⟨t.lookup? a, by rw [answer_lookup ht], fun s => ?_⟩
    have h := records_after steps
    rw [SymbolTable.lookup?_eq_some_iff (h.distinct i t ht), h.nameOf?_iff ht]
  lookup_adds_nothing i a := answer_lookup_snd _ i a
  resolve i a s hs := by
    obtain ⟨t, ht, hs⟩ := ((records_after steps).issued i a s).1 hs
    rw [answer_resolve ht, SymbolTable.resolve_eq_ok_iff.2 ⟨s, rfl, hs⟩]
  resolve_error i hi h := by
    obtain ⟨t, ht⟩ := exists_table? hi
    rw [answer_resolve ht, Reply.named.injEq]
    exact (records_after steps).resolve_eq_error_iff ht h
  size i t ht := by
    have h := records_after steps
    refine ⟨t.names, h.distinct i t ht, fun a => ?_, rfl⟩
    rw [SymbolTable.mem_names_iff]
    simp only [h.nameOf?_iff ht]

/-- The same name has two symbols in two tables, and neither table resolves that of the other. -/
example : let steps : List Step := [.openTable, .openTable, .intern 0 "bird", .intern 1 "bird"]
    ((after steps).answer (.resolve 0 (.numbered 2 0))).1 = .named (.error (.numbered 2 0)) ∧
      ((after steps).answer (.resolve 1 (.numbered 2 0))).1 = .named (.ok "bird") := by
  exact ⟨rfl, rfl⟩

end Registry

end Entail
