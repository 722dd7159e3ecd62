import Entail.Proofs.Matching

/-!
# Coded and written instances of a rule

A coded rule yields an atom from facts exactly as far as an instance of the written rule says so:

* `Rule.Covered` : no variable of the conclusion is left open, in the written rule (`Rule.Reads.covered_iff`: in the
  coded one);
* `Rule.Reads.exists_instance` : what a coded rule yields is an instance of the rule it reads as;
* `Rule.Reads.exists_yields` : an instance whose premises are read by facts is yielded from them, if the rule is
  covered.
-/

namespace Entail

def Rule.Covered (r : Rule) : Prop := ∀ v ∈ r.conclusion.variableNames, ∃ p ∈ r.premises, v ∈ p.variableNames

instance (r : Rule) : Decidable r.Covered :=
  inferInstanceAs (Decidable (∀ v ∈ r.conclusion.variableNames, ∃ p ∈ r.premises, v ∈ p.variableNames))

theorem Atom.const_mem_instantiate {a : Atom} {v : String} (h : v ∈ a.variableNames) (σ : String → String) :
    .const (σ v) ∈ (a.instantiate σ).args := List.mem_map.2 ⟨.var v, mem_variableNames.1 h, rfl⟩

namespace Coded

variable {t : SymbolTable} {names : List String} {c : Rule} {x : Entail.Rule} {facts : List Atom} {a : Atom}

theorem Atom.sym_mem_instantiate {a : Atom} {i : Nat} (h : .slot i ∈ a.args) (τ : Nat → Symbol) :
    .sym (τ i) ∈ (a.instantiate τ).args := List.mem_map.2 ⟨.slot i, h, rfl⟩

/-- A slot of a coded atom stands for a variable of the atom. -/
theorem Atom.Reads.var_mem {c : Atom} {a : Entail.Atom} (h : c.Reads t names a) {i : Nat} {v : String}
    (hi : .slot i ∈ c.args) (hv : names[i]? = some v) : v ∈ a.variableNames := by
  obtain ⟨y, hy, hread⟩ := exists_right_of_forall₂ h.args hi
  cases y with
  | const n => exact hread.elim
  | var w =>
    obtain rfl : v = w := Option.some.inj (hv.symm.trans hread)
    exact Entail.Atom.mem_variableNames.2 hy

/-- A variable of an atom has a slot in the coded atom. -/
theorem Atom.Reads.exists_slot {c : Atom} {a : Entail.Atom} (h : c.Reads t names a) {v : String}
    (hv : v ∈ a.variableNames) : ∃ i, .slot i ∈ c.args ∧ names[i]? = some v := by
  obtain ⟨y, hy, hread⟩ := exists_left_of_forall₂ h.args (Entail.Atom.mem_variableNames.1 hv)
  cases y with
  | sym s => exact hread.elim
  | slot i => exact ⟨i, hy, hread⟩

theorem Atom.Reads.exists_slotName {c : Atom} {a : Entail.Atom} (h : c.Reads t names a) {i : Nat}
    (hi : .slot i ∈ c.args) : ∃ v, names[i]? = some v := ⟨_, List.getElem?_eq_getElem (h.slot_lt hi)⟩

/-- The constants of a ground atom are names of symbols in what reads as it. -/
theorem Atom.Reads.exists_sym {c : Atom} {a : Entail.Atom} (h : c.Reads t [] a) {n : String} (hn : .const n ∈ a.args) :
    ∃ s, .sym s ∈ c.args ∧ t.nameOf? s = some n := by
  obtain ⟨y, hy, hread⟩ := exists_left_of_forall₂ h.args hn
  cases y with
  | sym s => exact ⟨s, hy, hread⟩
  | slot i => exact hread.elim

namespace Rule.Reads

theorem covered_iff (h : c.Reads t x) :
    x.Covered ↔ ∀ i, .slot i ∈ c.conclusion.args → ∃ p ∈ c.premises, .slot i ∈ p.args := by
  constructor
  · intro hcov i hi
    obtain ⟨v, hv⟩ := h.conclusion.exists_slotName hi
    obtain ⟨q, hq, hvq⟩ := hcov v (h.conclusion.var_mem hi hv)
    obtain ⟨p, hp, hread⟩ := exists_left_of_forall₂ h.premises hq
    obtain ⟨j, hj, hjv⟩ := hread.exists_slot hvq
    have hij : i = j := (List.getElem?_inj (List.getElem?_eq_some_iff.1 hv).1 h.distinct).1 (hv.trans hjv.symm)
    exact ⟨p, hp, hij ▸ hj⟩
  · intro hin v hv
    obtain ⟨i, hi, hiv⟩ := h.conclusion.exists_slot hv
    obtain ⟨p, hp, hip⟩ := hin i hi
    obtain ⟨q, hq, hread⟩ := exists_right_of_forall₂ h.premises hp
    exact ⟨q, hq, hread.var_mem hip hiv⟩

/-- Premises are instances of premises, if each slot's symbol has the name that its variable is given. -/
theorem instantiate (h : c.Reads t x) {τ : Nat → Symbol} {σ : String → String}
    (hτ : ∀ p ∈ c.premises, ∀ i v, .slot i ∈ p.args → c.names[i]? = some v → t.nameOf? (τ i) = some (σ v)) :
    List.Forall₂ (fun f p => f.Reads t [] (p.instantiate σ)) (c.premises.map (Atom.instantiate τ)) x.premises := by
  have hps := h.premises
  rw [List.forall₂_map_left_iff]
  rw [List.forall₂_iff_zip] at hps ⊢
  exact ⟨hps.1, fun {p q} hpq => (hps.2 hpq).instantiate (hτ p (List.of_mem_zip hpq).1)⟩

/-- What is yielded from facts that read as something is an instance of the rule. -/
theorem exists_instance (h : c.Reads t x) (hf : ∀ f ∈ facts, ∃ y, f.Reads t [] y) (hy : c.toClause.Yields facts a) :
    ∃ σ : String → String, List.Forall₂ (fun f p => f.Reads t [] (p.instantiate σ)) facts x.premises ∧
      a.Reads t [] (x.conclusion.instantiate σ) := by
  obtain ⟨τ, rfl, hin, rfl⟩ := hy
  -- a variable is given the name of its slot's symbol, which stands in a fact
  set σ : String → String := fun v => (t.nameOf? (τ (c.names.idxOf v))).getD "" with hσ
  have hτ : ∀ p ∈ c.premises, ∀ i v, .slot i ∈ p.args → c.names[i]? = some v → t.nameOf? (τ i) = some (σ v) := by
    intro p hp i v hi hv
    obtain ⟨hlt, rfl⟩ := List.getElem?_eq_some_iff.1 hv
    obtain ⟨y, hy⟩ := hf _ (List.mem_map_of_mem hp)
    obtain ⟨n, hn⟩ := hy.exists_name (.inr (Atom.sym_mem_instantiate hi τ))
    simp only [hσ, h.distinct.idxOf_getElem i hlt, hn, Option.getD_some]
  refine ⟨σ, h.instantiate hτ, h.conclusion.instantiate fun i v hi hv => ?_⟩
  obtain ⟨p, hp, hip⟩ := hin i hi
  exact hτ p hp i v hip hv

/-- An instance of a covered rule is yielded from facts that read as its premises. -/
theorem exists_yields (h : c.Reads t x) (ht : t.Distinct) (hcov : x.Covered) {σ : String → String}
    (hf : List.Forall₂ (fun f p => f.Reads t [] (p.instantiate σ)) facts x.premises) :
    ∃ a, c.toClause.Yields facts a ∧ a.Reads t [] (x.conclusion.instantiate σ) := by
  -- a slot is given the symbol of its variable's constant, which the table knows from a fact
  set τ : Nat → Symbol := fun i => (t.lookup? (σ (c.names.getD i ""))).getD ⟨0, 0⟩ with hτdef
  have hτ : ∀ p ∈ c.premises, ∀ i v, .slot i ∈ p.args → c.names[i]? = some v → t.nameOf? (τ i) = some (σ v) := by
    intro p hp i v hi hv
    obtain ⟨q, hq, hread⟩ := exists_right_of_forall₂ h.premises hp
    obtain ⟨f, -, hfq⟩ := exists_left_of_forall₂ hf hq
    obtain ⟨s, -, hs⟩ := hfq.exists_sym (Entail.Atom.const_mem_instantiate (hread.var_mem hi hv) σ)
    simp only [hτdef, List.getD_eq_getElem?_getD, hv, Option.getD_some, (SymbolTable.lookup?_eq_some_iff ht).2 hs, hs]
  have hin := h.covered_iff.1 hcov
  have hfacts : c.premises.map (Atom.instantiate τ) = facts :=
    List.left_unique_forall₂' (fun _ _ _ hx hx' => hx.inj ht List.nodup_nil hx') (h.instantiate hτ) hf
  refine ⟨_, ⟨τ, hfacts, hin, rfl⟩, h.conclusion.instantiate fun i v hi hv => ?_⟩
  obtain ⟨p, hp, hip⟩ := hin i hi
  exact hτ p hp i v hip hv

end Rule.Reads

end Coded

end Entail
