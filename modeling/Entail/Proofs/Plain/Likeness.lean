import Entail.Proofs.Plain.Equivalence

/-!
# Reasoners over names that hold the same

* `Failure.outline`, `Reply.outline` : failures and replies without the derivations in them;
* `PlainReasoner.Alike` : the same facts and rules, whatever the reasons and the rounds of the facts;
* `Alike.round`, `Alike.saturateFrom`, `Alike.searchFrom`, `Alike.query`, `Alike.addRule` : every request ends alike and
  leaves reasoners that are alike.
-/

namespace Entail

/-- The leaf with what a derivation proves. -/
def Derivation.outline (d : Derivation) : Derivation := .node d.atom [] none

def Failure.outline : Failure → Failure
  | .contradiction a _ => .contradiction a none
  | e => e

/-- A reply without derivations: of one that proves something, there remains what it proves. -/
def Reply.outline : Reply → Reply
  | .added x => .added (x.mapError Failure.outline)
  | .proved x => .proved ((x.map (Option.map Derivation.outline)).mapError Failure.outline)
  | .counted x => .counted (x.mapError Failure.outline)

namespace PlainReasoner

variable {p q : PlainReasoner}

structure Alike (p q : PlainReasoner) : Prop where
  settings : p.settings = q.settings
  atoms : p.atoms = q.atoms
  rules : p.rules = q.rules
  contradiction : p.contradiction = q.contradiction

theorem Alike.hold (h : Alike p q) (a : Atom) (s t : Reason) : Alike (p.hold a s) (q.hold a t) := by
  have hbottom : p.isBottom a = q.isBottom a := by simp only [isBottom, h.settings]
  refine ⟨h.settings, ?_, h.rules, ?_⟩
  · rw [atoms_hold, atoms_hold, h.atoms]
  · rw [PlainReasoner.hold, PlainReasoner.hold, h.contradiction, hbottom]

theorem Alike.holdAll (h : Alike p q) (g g' : Nat) (is : List Inference) :
    Alike (p.holdAll g is) (q.holdAll g' is) := by
  induction is generalizing p q with
  | nil => exact h
  | cons i is ih => exact ih (h.hold _ _ _)

/-! ## Stating facts and rules -/

theorem Alike.addFact (h : Alike p q) (a : Atom) :
    (p.addFact a).1 = (q.addFact a).1 ∧ Alike (p.addFact a).2 (q.addFact a).2 := by
  unfold PlainReasoner.addFact
  rw [h.atoms]
  split_ifs
  · exact ⟨rfl, h⟩
  · exact ⟨rfl, h.hold _ _ _⟩
  · exact ⟨rfl, h⟩

theorem Alike.addRule (h : Alike p q) (rule : Rule) :
    (p.addRule rule).1 = (q.addRule rule).1 ∧ Alike (p.addRule rule).2 (q.addRule rule).2 := by
  unfold PlainReasoner.addRule
  rw [h.rules]
  split_ifs
  · exact h.addFact _
  · exact ⟨rfl, h⟩
  · exact ⟨rfl, h⟩
  · exact ⟨rfl, h.settings, h.atoms, rfl, h.contradiction⟩

/-! ## Rounds -/

theorem Alike.attempts (h : Alike p q) : p.attempts = q.attempts := by
  simp only [PlainReasoner.attempts, selections, h.rules, h.settings, h.atoms]

theorem Alike.fresh (h : Alike p q) : p.fresh = q.fresh := by
  simp only [PlainReasoner.fresh, inferences, h.attempts, h.settings, h.atoms]

theorem Alike.advance (h : Alike p q) : Alike p.advance q.advance := by
  have hall : Alike (p.holdAll (p.generation + 1) p.fresh) (q.holdAll (q.generation + 1) q.fresh) :=
    h.fresh ▸ h.holdAll _ _ _
  exact ⟨hall.settings, hall.atoms, hall.rules, hall.contradiction⟩

theorem Alike.checkConsistent (h : Alike p q) :
    p.checkConsistent.mapError Failure.outline = q.checkConsistent.mapError Failure.outline := by
  rw [PlainReasoner.checkConsistent, PlainReasoner.checkConsistent, h.contradiction]
  cases q.contradiction <;> rfl

/-- Outcomes that differ in derivations only are both values, the same, or both failures. -/
theorem cases_of_mapError_eq {α : Type} {x y : Except Failure α}
    (h : x.mapError Failure.outline = y.mapError Failure.outline) :
    (∃ a, x = .ok a ∧ y = .ok a) ∨ ∃ e f, x = .error e ∧ y = .error f ∧ e.outline = f.outline := by
  cases x <;> cases y
  · exact .inr ⟨_, _, rfl, rfl, Except.error.inj h⟩
  · cases h
  · cases h
  · exact .inl ⟨_, rfl, congrArg _ (Except.ok.inj h).symm⟩

theorem Alike.round (h : Alike p q) :
    p.round.1.mapError Failure.outline = q.round.1.mapError Failure.outline ∧ Alike p.round.2 q.round.2 := by
  have ha := h.advance
  unfold PlainReasoner.round
  obtain ⟨u, hp, hq⟩ | ⟨e, f, hp, hq, hef⟩ := cases_of_mapError_eq h.checkConsistent
  · rw [hp, hq]
    obtain ⟨v, hp', hq'⟩ | ⟨e, f, hp', hq', hef⟩ := cases_of_mapError_eq ha.checkConsistent
    · rw [hp', hq', h.fresh]
      exact ⟨rfl, ha⟩
    · rw [hp', hq']
      exact ⟨congrArg Except.error hef, ha⟩
  · rw [hp, hq]
    exact ⟨congrArg Except.error hef, h⟩

/-- Two rounds both succeed with one number or both fail, and leave reasoners that are alike. -/
theorem Alike.round_cases (h : Alike p q) :
    (∃ m p' q', p.round = (.ok m, p') ∧ q.round = (.ok m, q') ∧ Alike p' q') ∨
    ∃ e f p' q', p.round = (.error e, p') ∧ q.round = (.error f, q') ∧ e.outline = f.outline ∧ Alike p' q' := by
  obtain ⟨hout, ha⟩ := h.round
  obtain ⟨m, hp, hq⟩ | ⟨e, f, hp, hq, hef⟩ := cases_of_mapError_eq hout
  · exact .inl ⟨m, _, _, Prod.ext hp rfl, Prod.ext hq rfl, ha⟩
  · exact .inr ⟨e, f, _, _, Prod.ext hp rfl, Prod.ext hq rfl, hef, ha⟩

theorem Alike.atCeilings (h : Alike p q) (n : Nat) : p.atCeilings n = q.atCeilings n := by
  have hlen : p.atoms.length = q.atoms.length := congrArg List.length h.atoms
  rw [PlainReasoner.atoms, PlainReasoner.atoms, List.length_map, List.length_map] at hlen
  rw [PlainReasoner.atCeilings, PlainReasoner.atCeilings, h.settings, hlen]

/-! ## Rounds one after the other -/

/-- A request that has ended, and one that ends alike and leaves a reasoner that is alike. -/
def EndsAlike {α : Type} (x : Except Failure α × PlainReasoner) (y : Option (Except Failure α × PlainReasoner)) :
    Prop :=
  ∃ out q, y = some (out, q) ∧ x.1.mapError Failure.outline = out.mapError Failure.outline ∧ Alike x.2 q

theorem Alike.saturateFrom :
    ∀ n p r, saturateFrom n p = some r → ∀ q, Alike p q → EndsAlike r (q.saturateFrom n) := by
  -- over the rounds of the run that has ended, of which `ih` covers all but the first
  refine saturateFrom.partial_correctness _ fun loop ih n p r hr q h => ?_
  rw [PlainReasoner.saturateFrom, ← h.atCeilings]
  cases hat : p.atCeilings n with
  | some e =>
    rw [hat] at hr
    obtain rfl := Option.some.inj hr
    exact ⟨_, q, rfl, rfl, h⟩
  | none =>
    rw [hat] at hr
    obtain ⟨m, p', q', hp, hq, ha⟩ | ⟨e, f, p', q', hp, hq, hef, ha⟩ := h.round_cases
    · rw [hp] at hr
      rw [hq]
      cases m with
      | zero =>
        obtain rfl := Option.some.inj hr
        exact ⟨_, q', rfl, rfl, ha⟩
      | succ m => exact ih _ _ _ hr _ ha
    · rw [hp] at hr
      rw [hq]
      obtain rfl := Option.some.inj hr
      exact ⟨_, q', rfl, congrArg Except.error hef, ha⟩

theorem Alike.searchFrom (target : Atom) :
    ∀ n p r, searchFrom target n p = some r → ∀ q, Alike p q → EndsAlike r (q.searchFrom target n) := by
  refine searchFrom.partial_correctness target _ fun loop ih n p r hr q h => ?_
  rw [PlainReasoner.searchFrom, ← h.atoms, ← h.atCeilings]
  by_cases hmem : target ∈ p.atoms
  · rw [if_pos hmem] at hr ⊢
    obtain rfl := Option.some.inj hr
    exact ⟨_, q, rfl, rfl, h⟩
  · rw [if_neg hmem] at hr ⊢
    cases hat : p.atCeilings n with
    | some e =>
      rw [hat] at hr
      obtain rfl := Option.some.inj hr
      exact ⟨_, q, rfl, rfl, h⟩
    | none =>
      rw [hat] at hr
      obtain ⟨m, p', q', hp, hq, ha⟩ | ⟨e, f, p', q', hp, hq, hef, ha⟩ := h.round_cases
      · rw [hp] at hr
        rw [hq]
        cases m with
        | zero =>
          obtain rfl := Option.some.inj hr
          exact ⟨_, q', rfl, rfl, ha⟩
        | succ m => exact ih _ _ _ hr _ ha
      · rw [hp] at hr
        rw [hq]
        obtain rfl := Option.some.inj hr
        exact ⟨_, q', rfl, congrArg Except.error hef, ha⟩

theorem Alike.counted (h : Alike p q) : Alike p.counted q.counted := ⟨h.settings, h.atoms, h.rules, h.contradiction⟩

/-- Queries end alike, derivations apart. -/
theorem Alike.query (h : Alike p q) {target : Atom} {r : Except Failure (Option Derivation) × PlainReasoner}
    (hr : p.query target = some r) :
    ∃ out q', q.query target = some (out, q') ∧ Alike r.2 q' ∧
      (r.1.map fun _ => ()).mapError Failure.outline = (out.map fun _ => ()).mapError Failure.outline := by
  rw [PlainReasoner.query] at hr ⊢
  obtain ⟨u, hp, hq⟩ | ⟨e, f, hp, hq, hef⟩ := cases_of_mapError_eq h.checkConsistent
  · rw [hp] at hr
    rw [hq]
    split_ifs at hr ⊢
    · obtain ⟨⟨out, p'⟩, hs, rfl⟩ := Option.map_eq_some_iff.1 hr
      obtain ⟨out', q', hq', heq, ha⟩ := Alike.searchFrom target 0 _ _ hs _ h.counted
      refine ⟨_, q', by rw [hq']; rfl, ha, ?_⟩
      obtain ⟨n, rfl, rfl⟩ | ⟨e, f, rfl, rfl, hef⟩ := cases_of_mapError_eq heq
      · rfl
      · exact congrArg Except.error hef
    · obtain rfl := Option.some.inj hr
      exact ⟨_, _, rfl, h.counted, rfl⟩
  · rw [hp] at hr
    rw [hq]
    obtain rfl := Option.some.inj hr
    exact ⟨_, _, rfl, h.counted, congrArg Except.error hef⟩

end PlainReasoner

end Entail
