import Entail.Symbol
import Mathlib.Data.List.Nodup
import Mathlib.Data.List.Forall2

/-!
# Symbol tables: growth and names

* `Distinct t` : no name has two places in `t`, so a name has one symbol (`nameOf?_inj`);
* `Extends t u` : `u` has the owner of `t` and its names first; what `t` names, `u` names alike
  (`Extends.nameOf?`);
* `nameOf?_intern`, `extends_intern`, `Distinct.intern` : a name interned, and the same for several names;
  `intern_of_nameOf?`, `internAll_of_names` : names that are there already;
* `lookup?_eq_some_iff` : looking up a name is reading a symbol backwards.
-/

namespace Entail

theorem getElem?_of_prefix {α : Type} {xs ys : List α} {i : Nat} {x : α} (h : xs <+: ys) (hx : xs[i]? = some x) :
    ys[i]? = some x := by
  obtain ⟨zs, rfl⟩ := h
  rw [List.getElem?_append_left (List.getElem?_eq_some_iff.1 hx).1, hx]

namespace SymbolTable

variable {t u v : SymbolTable} {s s' : Symbol} {name : String}

def Distinct (t : SymbolTable) : Prop := t.names.Nodup

def Extends (t u : SymbolTable) : Prop := t.owner = u.owner ∧ t.names <+: u.names

theorem Extends.refl (t : SymbolTable) : Extends t t := ⟨rfl, List.prefix_rfl⟩

theorem Extends.trans (h₁ : Extends t u) (h₂ : Extends u v) : Extends t v :=
  ⟨h₁.1.trans h₂.1, h₁.2.trans h₂.2⟩

theorem distinct_empty (owner : Nat) : (empty owner).Distinct := List.nodup_nil

theorem nameOf?_eq_some_iff : t.nameOf? s = some name ↔ s.owner = t.owner ∧ t.names[s.index]? = some name := by
  unfold nameOf?
  split_ifs with h
  · simp [h]
  · simp [h]

theorem Extends.nameOf? (h : Extends t u) (hs : t.nameOf? s = some name) : u.nameOf? s = some name := by
  rw [nameOf?_eq_some_iff] at hs ⊢
  exact ⟨hs.1.trans h.1, getElem?_of_prefix h.2 hs.2⟩

theorem nameOf?_inj (ht : t.Distinct) (hs : t.nameOf? s = some name) (hs' : t.nameOf? s' = some name) : s = s' := by
  rw [nameOf?_eq_some_iff] at hs hs'
  have hidx : s.index = s'.index :=
    (List.getElem?_inj (List.getElem?_eq_some_iff.1 hs.2).1 ht).1 (hs.2.trans hs'.2.symm)
  obtain ⟨o, i⟩ := s
  obtain ⟨o', i'⟩ := s'
  simp only [Symbol.mk.injEq]
  exact ⟨hs.1.trans hs'.1.symm, hidx⟩

/-! ## Looking up -/

theorem nameOf?_of_lookup? (h : t.lookup? name = some s) : t.nameOf? s = some name := by
  obtain ⟨i, hi, rfl⟩ := Option.map_eq_some_iff.1 h
  obtain ⟨hlt, hname, -⟩ := List.idxOf?_eq_some_iff.1 hi
  rw [nameOf?_eq_some_iff]
  exact ⟨rfl, List.getElem?_eq_some_iff.2 ⟨hlt, by simpa using hname⟩⟩

theorem lookup?_eq_none_iff : t.lookup? name = none ↔ name ∉ t.names := by
  simp [lookup?, List.idxOf?_eq_none_iff]

theorem lookup?_eq_some_iff (ht : t.Distinct) : t.lookup? name = some s ↔ t.nameOf? s = some name := by
  refine ⟨nameOf?_of_lookup?, fun h => ?_⟩
  cases hl : t.lookup? name with
  | none =>
    rw [nameOf?_eq_some_iff] at h
    exact absurd (List.mem_of_getElem? h.2) (lookup?_eq_none_iff.1 hl)
  | some s' => rw [nameOf?_inj ht h (nameOf?_of_lookup? hl)]

/-! ## Interning -/

theorem nameOf?_intern (t : SymbolTable) (name : String) :
    (t.intern name).2.nameOf? (t.intern name).1 = some name := by
  unfold intern
  cases h : t.lookup? name with
  | some s => exact nameOf?_of_lookup? h
  | none =>
    rw [nameOf?_eq_some_iff]
    exact ⟨rfl, by simp [size]⟩

theorem extends_intern (t : SymbolTable) (name : String) : Extends t (t.intern name).2 := by
  unfold intern
  cases t.lookup? name with
  | some s => exact .refl t
  | none => exact ⟨rfl, List.prefix_append _ _⟩

/-- A name that the table has is not added again. -/
theorem intern_of_nameOf? (h : t.nameOf? s = some name) : (t.intern name).2 = t := by
  unfold intern
  cases hl : t.lookup? name with
  | some s' => rfl
  | none => exact absurd (List.mem_of_getElem? (nameOf?_eq_some_iff.1 h).2) (lookup?_eq_none_iff.1 hl)

theorem Distinct.intern (ht : t.Distinct) (name : String) : (t.intern name).2.Distinct := by
  unfold SymbolTable.intern
  cases h : t.lookup? name with
  | some s => exact ht
  | none =>
    have := List.Nodup.concat (lookup?_eq_none_iff.1 h) ht
    simpa [Distinct] using this

theorem extends_internAll (t : SymbolTable) (names : List String) : Extends t (t.internAll names).2 := by
  induction names generalizing t with
  | nil => exact .refl t
  | cons name names ih => exact (extends_intern t name).trans (ih _)

theorem Distinct.internAll (ht : t.Distinct) (names : List String) : (t.internAll names).2.Distinct := by
  induction names generalizing t with
  | nil => exact ht
  | cons name names ih => exact ih (ht.intern name)

/-- Each of several names interned is the name of its symbol. -/
theorem nameOf?_internAll (t : SymbolTable) (names : List String) :
    List.Forall₂ (fun s name => (t.internAll names).2.nameOf? s = some name) (t.internAll names).1 names := by
  induction names generalizing t with
  | nil => exact .nil
  | cons name names ih =>
    exact .cons ((extends_internAll _ names).nameOf? (nameOf?_intern t name)) (ih (t.intern name).2)

/-- Names that the table has are not added again. -/
theorem internAll_of_names {names : List String} (h : ∀ name ∈ names, ∃ s, t.nameOf? s = some name) :
    (t.internAll names).2 = t := by
  induction names with
  | nil => rfl
  | cons name names ih =>
    obtain ⟨⟨s, hs⟩, hrest⟩ := List.forall_mem_cons.1 h
    change ((t.intern name).2.internAll names).2 = t
    rw [intern_of_nameOf? hs, ih hrest]

end SymbolTable

end Entail
