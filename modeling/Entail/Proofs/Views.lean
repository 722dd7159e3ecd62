import Entail.Proofs.Checkpoint

/-!
# What is looked up, and what looking leaves behind

* `Atom.lookup?_eq_some_iff_encode` : an atom is looked up exactly if stating it would bring no new name, and as what it
  would then be encoded;
* `Look`, `Reasoner.look` : the ways to look at a reasoner; `Visit`, `Reasoner.visitAll` : looks in between requests;
* `Refines.statedFacts_eq` : the stated facts are those that came in with round zero;
* `ViewsAgree r xs` : whatever is looked up of `r` is what its facts `xs` say, and looks leave no trace
  (`viewsAgree_after`).
-/

namespace Entail

/-! ## Looking up without interning -/

theorem Atom.encode_of_ground {a : Atom} (hg : a.isGround) (t : SymbolTable) :
    ∃ c, a.encode t = .ok (c, ((t.intern a.predicate).2.internAll (a.args.map Term.name)).2) := by
  rw [encode, if_pos hg]
  exact ⟨_, rfl⟩

/-- What a table has all names of is encoded without adding one. -/
theorem Coded.Atom.Reads.encode {t : SymbolTable} {c : Coded.Atom} {a : Entail.Atom} (ht : t.Distinct)
    (h : c.Reads t [] a) : a.encode t = .ok (c, t) := by
  obtain ⟨c', he⟩ := Entail.Atom.encode_of_ground h.isGround_right t
  have hargs : ∀ name ∈ a.args.map Term.name, ∃ s, t.nameOf? s = some name := by
    intro name hname
    obtain ⟨arg, harg, rfl⟩ := List.mem_map.1 hname
    cases arg with
    | const n => exact (h.exists_sym harg).imp fun _ hs => hs.2
    | var v => exact absurd (List.all_eq_true.1 h.isGround_right _ harg) (by simp [Term.isGround])
  rw [SymbolTable.intern_of_nameOf? h.predicate, SymbolTable.internAll_of_names hargs] at he
  obtain ⟨-, -, hread⟩ := Entail.Atom.encode_reads he
  rw [he, hread.inj ht List.nodup_nil h]

theorem Atom.lookup?_eq_some_iff_encode {t : SymbolTable} (ht : t.Distinct) {a : Atom} {c : Coded.Atom} :
    a.lookup? t = some c ↔ a.encode t = .ok (c, t) := by
  rw [Atom.lookup?_eq_some_iff ht]
  exact ⟨fun h => h.encode ht, fun h => (Atom.encode_reads h).2.2⟩

/-! ## Looks and requests -/

inductive Look where
  | contains (a : Atom)
  | generationOf (a : Atom)
  | derivationOf (a : Atom)
  | facts
  | statedFacts
  | rules
  | justifications
  | records
  | document

inductive Sight where
  | held (b : Bool)
  | round (n? : Option Nat)
  | derivation (x : Except Failure (Option Derivation))
  | atoms (x : Except Failure (List Atom))
  | rules (x : Except Failure (List Rule))
  | justifications (x : Except Failure (List (Atom × List Atom)))
  | document (x : Except Failure Document)

inductive Visit where
  | look (l : Look)
  | request (q : Request)

def Visit.request? : Visit → Option Request
  | .look _ => none
  | .request q => some q

namespace Reasoner

def look (r : Reasoner) : Look → Sight
  | .contains a => .held (r.contains a)
  | .generationOf a => .round (r.generationOf a)
  | .derivationOf a => .derivation (r.derivationOf a)
  | .facts => .atoms r.facts
  | .statedFacts => .atoms r.statedFacts
  | .rules => .rules r.statedRules
  | .justifications => .justifications r.justifications
  | .records => .rules r.records
  | .document => .document (r.records.map Record.document)

def visit (r : Reasoner) : Visit → (Sight ⊕ Reply) × Reasoner
  | .look l => (.inl (r.look l), r)
  | .request q => (.inr (r.answer q).1, (r.answer q).2)

def visitAll (r : Reasoner) (vs : List Visit) : Reasoner := vs.foldl (fun r v => (r.visit v).2) r

/-- Looks leave no trace. -/
theorem visitAll_eq (r : Reasoner) (vs : List Visit) : r.visitAll vs = r.performAll (vs.filterMap Visit.request?) := by
  induction vs generalizing r with
  | nil => rfl
  | cons v vs ih =>
    cases v with
    | look l => exact ih r
    | request q => exact ih (r.perform q)

end Reasoner

/-! ## Views by the facts over names -/

namespace PlainReasoner

variable {p : PlainReasoner} {x : Atom}

theorem generationOf_of_mem (hn : p.atoms.Nodup) {e : Atom × Reason} (he : e ∈ p.facts) :
    p.generationOf e.1 = some e.2.generation := by
  rw [generationOf, find?_key_of_mem hn he]
  rfl

end PlainReasoner

namespace Reasoner

variable {r : Reasoner} {p : PlainReasoner} {a : Coded.Atom} {sup : Support}

/-- Facts are stated exactly if they are of round zero: a derived one is of a later round than each of its premises. -/
theorem Supported.isSeed_iff (h : Supported r) (ha : (a, sup) ∈ r.supports) : sup.isSeed ↔ sup.generation = 0 := by
  cases h.justified_of_mem ha with
  | stated => simp [Support.seed, Support.isSeed]
  | derived _ hne hheld _ =>
    obtain ⟨q, hq⟩ := List.exists_mem_of_ne_nil _ hne
    obtain ⟨t, -, hlt⟩ := hheld q hq
    have hpos : 0 < _ := Nat.zero_lt_of_lt hlt
    simp [Support.isSeed, hne, hpos.ne']

theorem Refines.statedFacts_eq (h : Refines r p) (hc : Coherent r) :
    (p.facts.filter fun e => e.2.premises.isEmpty).map (·.1) =
      p.atoms.filter fun x => p.generationOf x = some 0 := by
  rw [PlainReasoner.atoms, List.filter_map]
  refine congrArg _ (List.filter_congr fun e he => ?_)
  obtain ⟨⟨a, sup⟩, hsup, hread, hreason⟩ := exists_left_of_forall₂ h.facts he
  have hseed := hc.isSeed_iff hsup
  rw [Support.isSeed, List.isEmpty_iff_length_eq_zero, hreason.premises.length_eq, hreason.generation] at hseed
  rw [Function.comp_apply, PlainReasoner.generationOf_of_mem (h.nodup hc) he, Bool.eq_iff_iff,
    List.isEmpty_iff_length_eq_zero, hseed]
  simp

theorem Refines.premises_mem (h : Refines r p) (hc : Coherent r) {e : Atom × Reason} (he : e ∈ p.facts) :
    ∀ x ∈ e.2.premises, x ∈ p.atoms := by
  intro x hx
  obtain ⟨⟨a, sup⟩, hsup, -, hreason⟩ := exists_left_of_forall₂ h.facts he
  obtain ⟨q, hq, hread⟩ := exists_left_of_forall₂ hreason.premises hx
  refine (h.mem_iff hc hread).1 ?_
  cases hc.justified_of_mem hsup with
  | stated => cases hq
  | derived _ _ hheld _ =>
    obtain ⟨t, ht, -⟩ := hheld q hq
    exact hc.mem_atoms ht

/-! ## The views together -/

/-- What is looked up of a reasoner is what the list of its facts says: whether an atom is held, the round it came in
with and its derivation; the facts are listed once each, with premises among them; the stated ones are those of round
zero. An atom is found only if stating it would bring no new name, and looks in between requests leave no trace. -/
structure ViewsAgree (r : Reasoner) (xs : List Atom) : Prop where
  facts : r.facts = .ok xs
  nodup : xs.Nodup
  contains : ∀ x, r.contains x ↔ x ∈ xs
  generationOf : ∀ x, r.generationOf x = none ↔ x ∉ xs
  derivationOf : ∀ x, r.derivationOf x = .ok none ↔ x ∉ xs
  derived : ∀ x ∈ xs, ∃ d, r.derivationOf x = .ok (some d) ∧ d.atom = x
  justifications : ∃ js, r.justifications = .ok js ∧ js.length = r.factCount ∧ js.map (·.1) = xs ∧
    ∀ j ∈ js, ∀ x ∈ j.2, x ∈ xs
  statedFacts : r.statedFacts = .ok (xs.filter fun x => r.generationOf x = some 0)
  found : ∀ (x : Atom) (c : Coded.Atom), x.lookup? r.symbols = some c ↔ x.encode r.symbols = .ok (c, r.symbols)
  untouched : ∀ vs, r.visitAll vs = r.performAll (vs.filterMap Visit.request?)

theorem Refines.viewsAgree (h : Refines r p) (hc : Coherent r) : ViewsAgree r p.atoms := by
  have ha := h.agrees hc
  have hderived : ∀ x ∈ p.atoms, ∃ d, r.derivationOf x = .ok (some d) ∧ d.atom = x := by
    intro x hx
    obtain ⟨d, hd, hatom, -⟩ := hc.exists_derivationOf ((ha.contains x).2 hx)
    exact ⟨d, hd, hatom⟩
  refine { facts := ha.facts, nodup := h.nodup hc, contains := ha.contains, generationOf := fun x => ?_,
           derivationOf := fun x => ⟨fun hnone hx => ?_, fun hx => ?_⟩, derived := hderived,
           justifications := ⟨_, ha.justifications, ?_, ?_, ?_⟩, statedFacts := ?_,
           found := fun x c => Atom.lookup?_eq_some_iff_encode hc.distinct, untouched := r.visitAll_eq }
  · rw [ha.generationOf, PlainReasoner.generationOf_eq_none_iff]
  · obtain ⟨d, hd, -⟩ := hderived x hx
    rw [hnone] at hd
    cases hd
  · rw [ha.derivationOf, PlainReasoner.derivation?_eq_none hx]
  · rw [List.length_map, h.factCount_eq hc.toSupported]
  · rw [List.map_map]
    rfl
  · intro j hj
    obtain ⟨e, he, rfl⟩ := List.mem_map.1 hj
    exact h.premises_mem hc he
  · simp only [ha.generationOf, ha.statedFacts, h.statedFacts_eq hc]

theorem viewsAgree_after (settings : Settings) (journal : Journal) (rules : List Rule) (qs : List Request) :
    ∃ xs, ViewsAgree (after settings journal rules qs) xs := by
  obtain ⟨p, -, h⟩ := refines_after settings journal rules qs
  exact ⟨p.atoms, h.viewsAgree (coherent_after settings journal rules qs)⟩

end Reasoner

end Entail
