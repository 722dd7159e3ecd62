import Entail.Proofs.Coding

/-!
# Encoding rules

* `Scope.Grown` : while a rule is encoded, names and table only grow and stay free of repeats;
* `Scope.encodeAtom_reads`, `Scope.encodeAtoms_reads` : what is encoded reads as what was given, under the scope at
  the end;
* `Rule.encode_reads` : the coded rule reads as the rule;
* `Clause.Reads.encode_table` : a rule of known names is encoded without new symbols.
-/

namespace Entail

namespace Coded.Scope

variable {sc sc' sc'' : Scope}

structure Distinct (sc : Scope) : Prop where
  names : sc.names.Nodup
  table : sc.table.Distinct

/-- A scope at an earlier and at a later time. -/
structure Grown (sc sc' : Scope) : Prop where
  names : sc.names <+: sc'.names
  table : sc.table.Extends sc'.table
  distinct : sc.Distinct → sc'.Distinct

theorem Grown.refl (sc : Scope) : Grown sc sc := ⟨List.prefix_rfl, .refl _, id⟩

theorem Grown.trans (h₁ : Grown sc sc') (h₂ : Grown sc' sc'') : Grown sc sc'' :=
  ⟨h₁.names.trans h₂.names, h₁.table.trans h₂.table, h₂.distinct ∘ h₁.distinct⟩

theorem grown_intern (sc : Scope) (name : String) : Grown sc { sc with table := (sc.table.intern name).2 } :=
  ⟨List.prefix_rfl, sc.table.extends_intern name, fun h => ⟨h.names, h.table.intern name⟩⟩

theorem slot_reads (sc : Scope) (v : String) :
    Grown sc (sc.slot v).2 ∧ (sc.slot v).2.names[(sc.slot v).1]? = some v := by
  unfold slot
  cases h : sc.names.idxOf? v with
  | some i =>
    obtain ⟨hlt, hname, -⟩ := List.idxOf?_eq_some_iff.1 h
    exact ⟨.refl sc, List.getElem?_eq_some_iff.2 ⟨hlt, by simpa using hname⟩⟩
  | none =>
    have hv : v ∉ sc.names := List.idxOf?_eq_none_iff.1 h
    refine ⟨⟨List.prefix_append _ _, .refl _, fun hd => ⟨?_, hd.table⟩⟩, by simp⟩
    simpa using List.Nodup.concat hv hd.names

theorem encodeTerm_reads (sc : Scope) (y : Entail.Term) :
    Grown sc (sc.encodeTerm y).2 ∧ (sc.encodeTerm y).1.Reads (sc.encodeTerm y).2.table (sc.encodeTerm y).2.names y := by
  cases y with
  | var v => exact sc.slot_reads v
  | const n => exact ⟨sc.grown_intern n, sc.table.nameOf?_intern n⟩

theorem encodeTerms_reads (sc : Scope) (ys : List Entail.Term) :
    Grown sc (sc.encodeTerms ys).2 ∧
      List.Forall₂ (Term.Reads (sc.encodeTerms ys).2.table (sc.encodeTerms ys).2.names) (sc.encodeTerms ys).1 ys := by
  induction ys generalizing sc with
  | nil => exact ⟨.refl sc, .nil⟩
  | cons y ys ih =>
    obtain ⟨hg, hy⟩ := sc.encodeTerm_reads y
    obtain ⟨hg', hys⟩ := ih (sc.encodeTerm y).2
    exact ⟨hg.trans hg', .cons (hy.mono hg'.table hg'.names) hys⟩

theorem encodeAtom_reads (sc : Scope) (a : Entail.Atom) :
    Grown sc (sc.encodeAtom a).2 ∧ (sc.encodeAtom a).1.Reads (sc.encodeAtom a).2.table (sc.encodeAtom a).2.names a := by
  obtain ⟨hg, hargs⟩ := sc.encodeTerms_reads a.args
  have hi := (sc.encodeTerms a.args).2.grown_intern a.predicate
  exact ⟨hg.trans hi, (sc.encodeTerms a.args).2.table.nameOf?_intern a.predicate,
    hargs.imp fun _ _ h => h.mono hi.table hi.names⟩

theorem encodeAtoms_reads (sc : Scope) (as : List Entail.Atom) :
    Grown sc (sc.encodeAtoms as).2 ∧
      List.Forall₂ (Atom.Reads (sc.encodeAtoms as).2.table (sc.encodeAtoms as).2.names) (sc.encodeAtoms as).1 as := by
  induction as generalizing sc with
  | nil => exact ⟨.refl sc, .nil⟩
  | cons a as ih =>
    obtain ⟨hg, ha⟩ := sc.encodeAtom_reads a
    obtain ⟨hg', has⟩ := ih (sc.encodeAtom a).2
    exact ⟨hg.trans hg', .cons (ha.mono hg'.table hg'.names) has⟩

/-! ### Names that are there already -/

variable {t : SymbolTable} {names : List String}

theorem encodeTerm_table (ht : sc.table = t) {x : Term} {y : Entail.Term} (h : x.Reads t names y) :
    (sc.encodeTerm y).2.table = t := by
  subst ht
  cases x <;> cases y
  case sym.const => exact SymbolTable.intern_of_nameOf? h
  case slot.var i v =>
    change (sc.slot v).2.table = sc.table
    unfold slot
    cases sc.names.idxOf? v <;> rfl
  all_goals exact h.elim

theorem encodeTerms_table (ht : sc.table = t) {xs : List Term} {ys : List Entail.Term}
    (h : List.Forall₂ (Term.Reads t names) xs ys) : (sc.encodeTerms ys).2.table = t := by
  induction h generalizing sc with
  | nil => exact ht
  | cons hxy _ ih => exact ih (encodeTerm_table ht hxy)

theorem encodeAtom_table (ht : sc.table = t) {c : Atom} {a : Entail.Atom} (h : c.Reads t names a) :
    (sc.encodeAtom a).2.table = t := by
  change ((sc.encodeTerms a.args).2.table.intern a.predicate).2 = t
  rw [encodeTerms_table ht h.args]
  exact SymbolTable.intern_of_nameOf? h.predicate

theorem encodeAtoms_table (ht : sc.table = t) {cs : List Atom} {as : List Entail.Atom}
    (h : List.Forall₂ (Atom.Reads t names) cs as) : (sc.encodeAtoms as).2.table = t := by
  induction h generalizing sc with
  | nil => exact ht
  | cons hca _ ih => exact ih (encodeAtom_table ht hca)

end Coded.Scope

/-- A rule that some clause reads as is encoded without new symbols. -/
theorem Coded.Clause.Reads.encode_table {t : SymbolTable} {names : List String} {c : Coded.Clause}
    {r : Entail.Rule} (h : c.Reads t names r) : (r.encode t).2 = t :=
  Coded.Scope.encodeAtom_table (Coded.Scope.encodeAtoms_table rfl h.premises) h.conclusion

theorem Rule.encode_reads {t : SymbolTable} (ht : t.Distinct) (r : Rule) :
    t.Extends (r.encode t).2 ∧ (r.encode t).2.Distinct ∧ (r.encode t).1.Reads (r.encode t).2 r := by
  obtain ⟨hg, hps⟩ := Coded.Scope.encodeAtoms_reads ⟨[], t⟩ r.premises
  obtain ⟨hg', hc⟩ := (Coded.Scope.encodeAtoms ⟨[], t⟩ r.premises).2.encodeAtom_reads r.conclusion
  have hd := (hg.trans hg').distinct ⟨List.nodup_nil, ht⟩
  exact ⟨(hg.trans hg').table, hd.table, hps.imp fun _ _ h => h.mono hg'.table hg'.names, hc, hd.names, rfl⟩

theorem Rule.encode_premises {t : SymbolTable} (r : Rule) : (r.encode t).1.premises.length = r.premises.length :=
  (Coded.Scope.encodeAtoms_reads ⟨[], t⟩ r.premises).2.length_eq

/-! ## Ranges of slots -/

namespace Coded

structure Clause.Scoped (c : Clause) : Prop where
  premises : ∀ p ∈ c.premises, ∀ i, .slot i ∈ p.args → i < c.slots
  conclusion : ∀ i, .slot i ∈ c.conclusion.args → i < c.slots

theorem Atom.Reads.slot_lt {t : SymbolTable} {names : List String} {c : Atom} {a : Entail.Atom}
    (h : c.Reads t names a) {i : Nat} (hi : .slot i ∈ c.args) : i < names.length := by
  obtain ⟨y, -, hy⟩ := exists_right_of_forall₂ h.args hi
  cases y with
  | var v => exact (List.getElem?_eq_some_iff.1 hy).1
  | const n => exact hy.elim

theorem Rule.Reads.scoped {t : SymbolTable} {c : Rule} {r : Entail.Rule} (h : c.Reads t r) : c.toClause.Scoped := by
  refine ⟨fun p hp i hi => ?_, fun i hi => ?_⟩
  · obtain ⟨a, -, ha⟩ := exists_right_of_forall₂ h.premises hp
    exact h.slots ▸ ha.slot_lt hi
  · exact h.slots ▸ h.conclusion.slot_lt hi

end Coded

/-- Under whatever table a rule is encoded, its slots are numbered below their count. -/
theorem Rule.encode_scoped (r : Rule) (t : SymbolTable) : (r.encode t).1.toClause.Scoped := by
  obtain ⟨-, hps⟩ := Coded.Scope.encodeAtoms_reads ⟨[], t⟩ r.premises
  obtain ⟨hg, hc⟩ := (Coded.Scope.encodeAtoms ⟨[], t⟩ r.premises).2.encodeAtom_reads r.conclusion
  refine ⟨fun p hp i hi => ?_, fun i hi => hc.slot_lt hi⟩
  obtain ⟨a, -, ha⟩ := exists_right_of_forall₂ hps hp
  exact (ha.mono hg.table hg.names).slot_lt hi

end Entail
