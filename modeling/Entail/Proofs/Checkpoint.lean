import Entail.Proofs.Documents
import Entail.Proofs.Plain.Likeness

/-!
# Reasoners that are saved and loaded

A reasoner is saved as its facts, each as a rule without premises, and its rules. Rounds and reasons are not saved.

* `Storable p` : nothing in `p` would be refused or dropped if it were added to an empty reasoner;
  `Storable.create_eq` : created with what `p` holds, a reasoner holds it in the same order;
* `Refines.storable` : this is so of all that reasoners come to hold;
* `Twins r s` : reasoners that hold the same, whatever symbols, rounds and reasons they hold it with; `Twins.answer` :
  they reply alike to every request and are twins after it;
* `Coherent.exists_twin`, `reload_after` : what is loaded from a saved reasoner is a twin of it.
-/

namespace Entail

/-- What holds of any two entries of a list, the earlier one first, holds of their counterparts. -/
theorem pairwise_of_forall₂ {α β : Type} {R : α → β → Prop} {S : α → α → Prop} {T : β → β → Prop} {xs : List α}
    {ys : List β} (h : List.Forall₂ R xs ys) (hST : ∀ a x b y, R a x → R b y → S a b → T x y) (hxs : xs.Pairwise S) :
    ys.Pairwise T := by
  induction h with
  | nil => exact .nil
  | @cons a x as xs hax hs ih =>
    obtain ⟨hhead, htail⟩ := List.pairwise_cons.1 hxs
    refine List.pairwise_cons.2 ⟨fun y hy => ?_, ih htail⟩
    obtain ⟨b, hb, hby⟩ := exists_left_of_forall₂ hs hy
    exact hST a x b y hax hby (hhead b hb)

namespace PlainReasoner

variable {p : PlainReasoner} {xs : List Atom} {ys : List Rule}

/-! ## Adding what is new -/

/-- Ground atoms that are not held yet are all held afterwards, in order. -/
theorem addRules_facts (hground : ∀ x ∈ xs, x.isGround) (hnodup : (p.atoms ++ xs).Nodup) (rest : List Rule) :
    ∃ q : PlainReasoner, p.addRules (xs.map Rule.fact ++ rest) = q.addRules rest ∧ q.settings = p.settings ∧
      q.atoms = p.atoms ++ xs ∧ q.rules = p.rules := by
  induction xs generalizing p with
  | nil => exact ⟨p, rfl, rfl, (List.append_nil _).symm, rfl⟩
  | cons x xs ih =>
    have hx : x.isGround := hground x List.mem_cons_self
    have hnew : x ∉ p.atoms := fun hmem => (List.nodup_append.1 hnodup).2.2 x hmem x List.mem_cons_self rfl
    have hadd : p.addRule (.fact x) = (.ok true, p.hold x ⟨[], none, 0⟩) := by
      change (if x.isGround then p.addFact x else _) = _
      rw [if_pos hx, addFact, if_pos hx, if_neg hnew]
    rw [List.append_cons, ← p.atoms_hold x ⟨[], none, 0⟩] at hnodup
    obtain ⟨q, hq, hsettings, hatoms, hrules⟩ := ih (fun y hy => hground y (.tail _ hy)) hnodup
    refine ⟨q, ?_, hsettings, ?_, hrules⟩
    · rw [List.map_cons, List.cons_append, addRules, hadd]
      exact hq
    · rw [hatoms, atoms_hold, List.append_assoc, List.singleton_append]

/-- Rules with premises of which no later one is a variant of an earlier one are all added. -/
theorem addRules_rules (hpremises : ∀ y ∈ ys, y.isAxiom = false)
    (hvariants : (p.rules ++ ys).Pairwise fun x y => ¬ x.IsVariant y) :
    p.addRules ys = (.ok (), { p with rules := p.rules ++ ys }) := by
  induction ys generalizing p with
  | nil => rw [List.append_nil]; rfl
  | cons y ys ih =>
    have hnew : ¬ ∃ x ∈ p.rules, x.IsVariant y := fun ⟨x, hx, hxy⟩ =>
      (List.pairwise_append.1 hvariants).2.2 x hx y List.mem_cons_self hxy
    have hadd : p.addRule y = (.ok true, { p with rules := p.rules ++ [y] }) := by
      rw [addRule, hpremises y List.mem_cons_self, if_neg Bool.false_ne_true, if_neg hnew]
    rw [List.append_cons] at hvariants ⊢
    rw [addRules, hadd]
    exact ih (fun z hz => hpremises z (.tail _ hz)) hvariants

/-- The facts are ground and held once; the rules have premises, and no two are variants. -/
structure Storable (p : PlainReasoner) : Prop where
  ground : ∀ x ∈ p.atoms, x.isGround
  nodup : p.atoms.Nodup
  premises : ∀ y ∈ p.rules, y.isAxiom = false
  variants : p.rules.Pairwise fun x y => ¬ x.IsVariant y

/-- Created with what a reasoner holds, another one holds it in the same order. -/
theorem Storable.create_eq (h : Storable p) :
    ∃ q, create p.settings (p.atoms.map Rule.fact ++ p.rules) = (.ok (), q) ∧ q.settings = p.settings ∧
      q.atoms = p.atoms ∧ q.rules = p.rules := by
  have hnodup : ((empty p.settings).atoms ++ p.atoms).Nodup := h.nodup
  obtain ⟨q, hq, hsettings, hatoms, hrules⟩ := addRules_facts h.ground hnodup p.rules
  have hvariants : (q.rules ++ p.rules).Pairwise fun x y => ¬ x.IsVariant y := by
    rw [hrules]
    exact h.variants
  refine ⟨{ q with rules := q.rules ++ p.rules }, ?_, hsettings, hatoms, congrArg (· ++ p.rules) hrules⟩
  rw [create, hq, addRules_rules h.premises hvariants]

end PlainReasoner

namespace Reasoner

variable {r s : Reasoner} {p q : PlainReasoner}

theorem Refines.storable (h : Refines r p) (hc : Coherent r) : p.Storable where
  ground x hx := (exists_left_of_forall₂ (h.atoms hc.toSupported) hx).elim fun _ ha => ha.2.isGround_right
  nodup := h.nodup hc
  premises y hy := by
    obtain ⟨c, hcr, hread, -⟩ := exists_left_of_forall₂ h.rules hy
    have hne := hc.premises c hcr
    rw [← List.length_pos_iff, hread.premises.length_eq, List.length_pos_iff] at hne
    rwa [Rule.isAxiom, List.isEmpty_eq_false_iff]
  variants := by
    refine pairwise_of_forall₂ h.rules ?_ (List.pairwise_map.1 hc.variants)
    rintro c x d y ⟨hcx, hcn⟩ ⟨hdy, hdn⟩ hne hvar
    exact hne ((hcx.clause_eq_iff hc.distinct hdy hcn hdn).2 hvar)

theorem Refines.records_eq (h : Refines r p) (hc : Coherent r) :
    r.records = .ok (p.atoms.map Rule.fact ++ p.rules) := by
  rw [records, h.facts_eq hc, h.statedRules_eq]
  rfl

/-! ## Twins -/

/-- Reasoners that hold the same by name: each matches a reasoner over names, and these are alike. -/
structure Twins (r s : Reasoner) : Prop where
  left : Coherent r
  right : Coherent s
  alike : ∃ p q, Refines r p ∧ Refines s q ∧ p.Alike q

/-- The same facts and rules in the same order, and the same contradiction. -/
structure SameHoldings (r s : Reasoner) : Prop where
  facts : ∃ xs, r.facts = .ok xs ∧ s.facts = .ok xs
  rules : ∃ ys, r.statedRules = .ok ys ∧ s.statedRules = .ok ys
  contradiction : ∃ x?, r.contradictionAtom = .ok x? ∧ s.contradictionAtom = .ok x?

theorem Twins.sameHoldings (h : Twins r s) : SameHoldings r s := by
  obtain ⟨hr, hs, p, q, hp, hq, hpq⟩ := h
  refine ⟨⟨_, hp.facts_eq hr, ?_⟩, ⟨_, hp.statedRules_eq, ?_⟩, ⟨_, hp.contradictionAtom_eq hr, ?_⟩⟩
  · rw [hpq.atoms]
    exact hq.facts_eq hs
  · rw [hpq.rules]
    exact hq.statedRules_eq
  · rw [hpq.contradiction]
    exact hq.contradictionAtom_eq hs

/-- A query that succeeds gives a derivation of its target, so what it proves is known without the derivation. -/
theorem Coherent.outline_query (h : Coherent r) (target : Atom) :
    (Reply.proved (r.query target).1).outline = .proved ((((r.query target).1.map fun _ => ()).mapError
      Failure.outline).map fun _ => some (.node target [] none)) := by
  obtain ⟨e, t, heq, -⟩ | ⟨d, t, heq, rfl, -⟩ := h.query_cases target <;> rw [heq] <;> rfl

/-- Twins reply alike, derivations apart, and are twins afterwards. -/
theorem Twins.answer (h : Twins r s) (request : Request) :
    (r.answer request).1.outline = (s.answer request).1.outline ∧ Twins (r.perform request) (s.perform request) := by
  obtain ⟨hr, hs, p, q, hp, hq, hpq⟩ := h
  have hr' := hr.perform request
  have hs' := hs.perform request
  cases request with
  | addRule rule =>
    obtain ⟨hrp, hp'⟩ := hp.addRule_eq hr rule
    obtain ⟨hsq, hq'⟩ := hq.addRule_eq hs rule
    obtain ⟨hout, halike⟩ := hpq.addRule rule
    rw [Reasoner.answer, Reasoner.answer, hrp, hsq, hout]
    exact ⟨rfl, hr', hs', _, _, hp', hq', halike⟩
  | addFact x =>
    obtain ⟨hrp, hp'⟩ := hp.addFact_eq hr x
    obtain ⟨hsq, hq'⟩ := hq.addFact_eq hs x
    obtain ⟨hout, halike⟩ := hpq.addFact x
    rw [Reasoner.answer, Reasoner.answer, hrp, hsq, hout]
    exact ⟨rfl, hr', hs', _, _, hp', hq', halike⟩
  | query target =>
    obtain ⟨p', hrp, hp'⟩ := hp.query_eq hr target
    obtain ⟨q', hsq, hq'⟩ := hq.query_eq hs target
    obtain ⟨out, q'', hend, halike, hout⟩ := hpq.query hrp
    obtain ⟨rfl, rfl⟩ := Prod.mk.inj (Option.some.inj (hsq.symm.trans hend))
    refine ⟨?_, hr', hs', _, _, hp', hq', halike⟩
    rw [Reasoner.answer, Reasoner.answer, hr.outline_query, hs.outline_query, hout]
  | saturate =>
    obtain ⟨p', hrp, hp'⟩ := hp.saturate_eq hr
    obtain ⟨q', hsq, hq'⟩ := hq.saturate_eq hs
    obtain ⟨out, q'', hend, hout, halike⟩ := PlainReasoner.Alike.saturateFrom 0 _ _ hrp _ hpq
    obtain ⟨rfl, rfl⟩ := Prod.mk.inj (Option.some.inj (hsq.symm.trans hend))
    exact ⟨congrArg Reply.counted hout, hr', hs', _, _, hp', hq', halike⟩
  | round =>
    obtain ⟨r', hrp, hp'⟩ := hp.round_eq hr
    obtain ⟨s', hsq, hq'⟩ := hq.round_eq hs
    obtain ⟨hout, halike⟩ := hpq.round
    rw [perform, Reasoner.answer, hrp] at hr' ⊢
    rw [perform, Reasoner.answer, hsq] at hs' ⊢
    exact ⟨congrArg Reply.counted hout, hr', hs', _, _, hp', hq', halike⟩

theorem Twins.performAll (h : Twins r s) (requests : List Request) :
    Twins (r.performAll requests) (s.performAll requests) := by
  induction requests generalizing r s with
  | nil => exact h
  | cons request requests ih => exact ih (h.answer request).2

/-! ## Loading what was saved -/

/-- Created with what a reasoner holds, another one is its twin. -/
theorem Coherent.exists_twin (h : Coherent r) (hp : Refines r p) (journal : Journal) :
    ∃ saved, r.records = .ok saved ∧ (create r.settings journal saved).1 = .ok () ∧
      Twins r (create r.settings journal saved).2 := by
  obtain ⟨q, hq, hsettings, hatoms, hrules⟩ := (hp.storable h).create_eq
  obtain ⟨hout, hs⟩ := refines_create p.settings journal (p.atoms.map Rule.fact ++ p.rules)
  rw [hq] at hout hs
  have hbottom : p.isBottom = q.isBottom := by
    funext x
    simp only [PlainReasoner.isBottom, hsettings]
  refine ⟨_, hp.records_eq h, hp.settings ▸ hout, h, coherent_create _ _ _, p, q, hp, hp.settings ▸ hs, ?_⟩
  refine ⟨hsettings.symm, hatoms.symm, hrules.symm, ?_⟩
  rw [hp.contradiction, hs.contradiction, hatoms, hbottom]

/-- What a reasoner holds can be saved at any time, and the document be loaded. The reasoner created with it holds the
same facts and rules in the same order and the same contradiction, and so it is after any further requests that both
take; to every next request the two reply alike, derivations apart. -/
theorem reload_after (settings : Settings) (journal journal' : Journal) (rules : List Rule) (qs : List Request) :
    ∃ saved, (after settings journal rules qs).records = .ok saved ∧
    ∃ loaded, Record.rules (Record.document saved).toValue = .ok loaded ∧
      (create settings journal' loaded).1 = .ok () ∧
      ∀ later,
        SameHoldings ((after settings journal rules qs).performAll later) (after settings journal' loaded later) ∧
        ∀ q, (((after settings journal rules qs).performAll later).answer q).1.outline =
          ((after settings journal' loaded later).answer q).1.outline := by
  obtain ⟨p, -, hp⟩ := refines_after settings journal rules qs
  have hsettings := settings_after settings journal rules qs
  obtain ⟨saved, hsaved, hcreate, htwins⟩ := (coherent_after settings journal rules qs).exists_twin hp journal'
  rw [hsettings] at hcreate htwins
  refine ⟨saved, hsaved, saved, Record.rules_document saved, hcreate, fun later => ?_⟩
  have hlater := htwins.performAll later
  exact ⟨hlater.sameHoldings, fun q => (hlater.answer q).1⟩

end Reasoner

end Entail
