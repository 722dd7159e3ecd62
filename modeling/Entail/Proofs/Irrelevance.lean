import Entail.Proofs.MatchingModes
import Entail.Proofs.Plain.Equivalence

/-!
# Facts that no rule can use

* `Atom.Irrelevant x rules` : no premise of the rules has predicate and number of arguments of `x`; then no rule
  concludes anything from facts with `x` among them (`Atom.Irrelevant.conclude_eq_none`);
* `Selection.filter_increasing`, `Selection.filter_unrestricted` : selections without some items are the selections of
  the other items, in the same order;
* `PlainReasoner.Beside x p q` : `p` and `q` hold the same but for `x`; rounds keep this (`Beside.round`), also those
  that find something new in one of them only, and so do queries (`Beside.query`);
* `besides_after` : what an irrelevant fact, stated anywhere among the rules, changes.
-/

namespace Entail

/-! ## Selections of the other items -/

namespace Selection

variable {α : Type} (keep : α → Bool)

theorem filter_increasing (k : Nat) (xs : List α) :
    (increasing k xs).filter (·.all keep) = increasing k (xs.filter keep) := by
  induction xs generalizing k with
  | nil => cases k <;> rfl
  | cons x xs ih =>
    cases k with
    | zero => simp [increasing]
    | succ k =>
      have hmap : ((increasing k xs).map (x :: ·)).filter (·.all keep) =
          if keep x then (increasing k (xs.filter keep)).map (x :: ·) else [] := by
        rw [List.filter_map, ← ih k]
        split_ifs with hx
        · simp [Function.comp_def, hx]
        · simp [Function.comp_def, hx]
      rw [increasing, List.filter_append, hmap, ih (k + 1), List.filter_cons]
      split_ifs
      · rfl
      · rfl

theorem filter_unrestricted (k : Nat) (xs : List α) :
    (unrestricted k xs).filter (·.all keep) = unrestricted k (xs.filter keep) := by
  induction k with
  | zero => rfl
  | succ k ih =>
    -- item by item, over the selections of the rest
    have hmap : ∀ ys : List α, (ys.flatMap fun y => (unrestricted k xs).map (y :: ·)).filter (·.all keep) =
        (ys.filter keep).flatMap fun y => (unrestricted k (xs.filter keep)).map (y :: ·) := by
      intro ys
      induction ys with
      | nil => rfl
      | cons y ys ihys =>
        rw [List.flatMap_cons, List.filter_append, ihys, List.filter_map, ← ih, List.filter_cons]
        split_ifs with hy
        · simp [Function.comp_def, hy]
        · simp [Function.comp_def, hy]
    exact hmap xs

end Selection

/-! ## Facts that no premise matches -/

theorem Assignment.forall₂_of_matchAll {α : Type} {step : Assignment → α → α → Option Assignment} {R : α → α → Prop}
    (hstep : ∀ {m x y m'}, step m x y = some m' → R x y) {m m' : Assignment} {xs ys : List α}
    (h : matchAll step m xs ys = some m') : List.Forall₂ R xs ys := by
  induction xs generalizing m ys with
  | nil =>
    cases ys with
    | nil => exact .nil
    | cons y ys => cases h
  | cons x xs ih =>
    cases ys with
    | nil => cases h
    | cons y ys =>
      obtain ⟨m₁, hfirst, hrest⟩ := Option.bind_eq_some_iff.1 h
      exact .cons (hstep hfirst) (ih hrest)

def Atom.Irrelevant (x : Atom) (rules : List Rule) : Prop :=
  ∀ c ∈ rules, ∀ p ∈ c.premises, ¬ (p.predicate = x.predicate ∧ p.arity = x.arity)

theorem Rule.forall₂_of_conclude {c : Rule} {facts : List Atom} {a : Atom} (h : c.conclude facts = some a) :
    List.Forall₂ (fun p f => p.predicate = f.predicate ∧ p.arity = f.arity) c.premises facts := by
  obtain ⟨m, hm, -⟩ := Option.bind_eq_some_iff.1 h
  refine Assignment.forall₂_of_matchAll ?_ hm
  intro m p f m' hp
  unfold Assignment.matchAtom at hp
  split_ifs at hp with hpred
  have hargs : List.Forall₂ (fun _ _ => True) p.args f.args := Assignment.forall₂_of_matchAll (fun _ => trivial) hp
  exact ⟨hpred, hargs.length_eq⟩

theorem Atom.Irrelevant.conclude_eq_none {x : Atom} {rules : List Rule} (h : x.Irrelevant rules) {c : Rule}
    (hc : c ∈ rules) {facts : List Atom} (hx : x ∈ facts) : c.conclude facts = none := by
  cases hconc : c.conclude facts with
  | none => rfl
  | some a =>
    obtain ⟨p, hp, hsame⟩ := exists_left_of_forall₂ (Rule.forall₂_of_conclude hconc) hx
    exact absurd hsame (h c hc p hp)

namespace PlainReasoner

variable {p q : PlainReasoner} {x y : Atom}

/-- The facts besides an atom. -/
def others (p : PlainReasoner) (x : Atom) : List (Atom × Reason) := p.facts.filter (·.1 ≠ x)

/-- The inferences whose conclusions the next round holds, besides those of an atom. -/
def freshOthers (p : PlainReasoner) (x : Atom) : List Inference := p.fresh.filter (·.conclusion ≠ x)

theorem atoms_others (p : PlainReasoner) (x : Atom) : (p.others x).map (·.1) = p.atoms.filter (· ≠ x) := by
  rw [others, atoms, List.filter_map]
  rfl

theorem mem_atoms_iff (p : PlainReasoner) (hy : y ≠ x) : y ∈ p.atoms ↔ y ∈ (p.others x).map (·.1) := by
  rw [atoms_others]
  simp [hy]

/-! ## Rounds -/

theorem selections_others (p : PlainReasoner) (x : Atom) (k : Nat) :
    (p.selections k).filter (·.all (· ≠ x)) =
      if p.settings.exhaustiveMatching then Selection.unrestricted k ((p.others x).map (·.1))
      else Selection.increasing k ((p.others x).map (·.1)) := by
  rw [selections, atoms_others]
  split_ifs
  · exact Selection.filter_unrestricted _ k p.atoms
  · exact Selection.filter_increasing _ k p.atoms

/-- Only the facts besides an irrelevant atom have a part in what can be inferred. -/
theorem inferences_others (h : x.Irrelevant p.rules) :
    p.inferences = p.rules.flatMap fun c =>
      ((p.selections c.premises.length).filter (·.all (· ≠ x))).filterMap fun facts =>
        (c.conclude facts).map fun a => ⟨a, facts, c⟩ := by
  rw [inferences, attempts, List.filterMap_flatMap]
  refine List.flatMap_congr fun c hc => ?_
  rw [List.filterMap_map, List.filterMap_filter]
  refine List.filterMap_congr fun facts _ => ?_
  by_cases hall : facts.all (· ≠ x)
  · rw [if_pos hall]
    rfl
  · have hx : x ∈ facts := by
      rw [List.all_eq_true] at hall
      push Not at hall
      obtain ⟨f, hf, hfx⟩ := hall
      simp only [ne_eq, decide_not, Bool.not_eq_true', decide_eq_false_iff_not, not_not] at hfx
      exact hfx ▸ hf
    rw [if_neg hall]
    simp [h.conclude_eq_none hc hx]

theorem not_mem_premises (h : x.Irrelevant p.rules) {i : Inference} (hi : i ∈ p.inferences) : x ∉ i.premises := by
  rw [inferences_others h] at hi
  obtain ⟨c, -, hi⟩ := List.mem_flatMap.1 hi
  obtain ⟨facts, hfacts, hconc⟩ := List.mem_filterMap.1 hi
  obtain ⟨a, -, rfl⟩ := Option.map_eq_some_iff.1 hconc
  have hall := (List.mem_filter.1 hfacts).2
  intro hx
  have hne := List.all_eq_true.1 hall x hx
  simp at hne

/-- An atom that is no contradiction changes nothing in what else is admitted. -/
theorem admitted_others {bottom : Option String} (hx : bottom ≠ some x.predicate) (known : List Atom)
    (is : List Inference) :
    (admitted bottom known is).filter (·.conclusion ≠ x) =
      admitted bottom (known.filter (· ≠ x)) (is.filter (·.conclusion ≠ x)) := by
  induction is generalizing known with
  | nil => rfl
  | cons i is ih =>
    by_cases hi : i.conclusion = x
    · have hskip : (i :: is).filter (·.conclusion ≠ x) = is.filter (·.conclusion ≠ x) := by simp [hi]
      rw [hskip, admitted]
      split_ifs with hmem hb
      · exact ih known
      · exact absurd (hi ▸ hb) hx
      · have hsame : (known ++ [i.conclusion]).filter (· ≠ x) = known.filter (· ≠ x) := by simp [hi]
        rw [← hsame, ← ih]
        simp [hi]
    · have hkeep : (i :: is).filter (·.conclusion ≠ x) = i :: is.filter (·.conclusion ≠ x) := by simp [hi]
      have hmem : i.conclusion ∈ known.filter (· ≠ x) ↔ i.conclusion ∈ known := by simp [hi]
      rw [hkeep, admitted, admitted]
      simp only [hmem]
      split_ifs
      · exact ih known
      · simp [hi]
      · have hsame : (known ++ [i.conclusion]).filter (· ≠ x) = known.filter (· ≠ x) ++ [i.conclusion] := by simp [hi]
        rw [← hsame, ← ih]
        simp [hi]

theorem freshOthers_eq (hx : p.settings.bottom? ≠ some x.predicate) :
    p.freshOthers x =
      admitted p.settings.bottom? ((p.others x).map (·.1)) (p.inferences.filter (·.conclusion ≠ x)) := by
  rw [freshOthers, fresh, admitted_others hx, atoms_others]

/-! ## Holding -/

theorem others_holdAll (g : Nat) (p : PlainReasoner) (x : Atom) (is : List Inference) :
    (p.holdAll g is).others x =
      p.others x ++ (is.filter (·.conclusion ≠ x)).map fun i => (i.conclusion, i.reason g) := by
  rw [holdAll_eq, others, List.filter_append, List.filter_map]
  rfl

/-- The contradiction there was, or else the first that is held. -/
theorem contradiction_holdAll_or (g : Nat) (p : PlainReasoner) (is : List Inference) :
    (p.holdAll g is).contradiction = p.contradiction.or ((is.map (·.conclusion)).find? p.isBottom) := by
  induction is generalizing p with
  | nil => simp [holdAll]
  | cons i is ih =>
    change ((p.hold i.conclusion (i.reason g)).holdAll g is).contradiction = _
    have hbottom : (p.hold i.conclusion (i.reason g)).isBottom = p.isBottom := rfl
    rw [ih, hbottom, List.map_cons, List.find?_cons, hold]
    cases p.contradiction <;> cases p.isBottom i.conclusion <;> simp

/-- Holding an atom that is no contradiction leaves the contradiction as it is. -/
theorem contradiction_holdAll_others (hx : p.isBottom x = false) (g : Nat) (is : List Inference) :
    (p.holdAll g is).contradiction =
      p.contradiction.or (((is.filter (·.conclusion ≠ x)).map (·.conclusion)).find? p.isBottom) := by
  have hfind : ((is.filter (·.conclusion ≠ x)).map (·.conclusion)).find? p.isBottom =
      (is.map (·.conclusion)).find? p.isBottom := by
    induction is with
    | nil => rfl
    | cons i is ih =>
      by_cases hi : i.conclusion = x
      · have hskip : (i :: is).filter (·.conclusion ≠ x) = is.filter (·.conclusion ≠ x) := by simp [hi]
        rw [hskip, ih, List.map_cons, List.find?_cons, hi, hx]
      · have hkeep : (i :: is).filter (·.conclusion ≠ x) = i :: is.filter (·.conclusion ≠ x) := by simp [hi]
        rw [hkeep, List.map_cons, List.map_cons, List.find?_cons, List.find?_cons, ih]
  rw [contradiction_holdAll_or, hfind]

/-- Settings, rules, contradiction and the facts besides `x` are the same, with the same rounds and reasons; no rule can
use `x`, and none of these facts was inferred from it. -/
structure Beside (x : Atom) (p q : PlainReasoner) : Prop where
  irrelevant : x.Irrelevant p.rules
  harmless : p.isBottom x = false
  settings : q.settings = p.settings
  rules : q.rules = p.rules
  others : q.others x = p.others x
  contradiction : q.contradiction = p.contradiction
  consistent : p.contradiction ≠ some x
  unused : ∀ e ∈ p.others x, x ∉ e.2.premises

/-- The rounds passed are the same, or what is inferred from now on is `x` or known. -/
def Level (x : Atom) (p q : PlainReasoner) : Prop := q.generation = p.generation ∨ p.freshOthers x = []

namespace Beside

theorem bottom_ne (h : Beside x p q) : p.settings.bottom? ≠ some x.predicate := of_decide_eq_false h.harmless

theorem mem_iff (h : Beside x p q) (hy : y ≠ x) : y ∈ q.atoms ↔ y ∈ p.atoms := by
  rw [p.mem_atoms_iff hy, q.mem_atoms_iff hy, h.others]

theorem symm (h : Beside x p q) : Beside x q p where
  irrelevant := by rw [h.rules]; exact h.irrelevant
  harmless := by rw [isBottom, h.settings]; exact h.harmless
  settings := h.settings.symm
  rules := h.rules.symm
  others := h.others.symm
  contradiction := h.contradiction.symm
  consistent := by rw [h.contradiction]; exact h.consistent
  unused := by rw [h.others]; exact h.unused

theorem inferences (h : Beside x p q) : q.inferences = p.inferences := by
  rw [inferences_others h.irrelevant, inferences_others h.symm.irrelevant, h.rules]
  simp only [selections_others, h.settings, h.others]

theorem freshOthers (h : Beside x p q) : q.freshOthers x = p.freshOthers x := by
  rw [freshOthers_eq h.bottom_ne, freshOthers_eq h.symm.bottom_ne, h.settings, h.others, h.inferences]

/-- No fact besides `x` was derived with it. -/
theorem derivation?_eq (h : Beside x p q) (hy : y ≠ x) : q.derivation? y = p.derivation? y := by
  have hothers : ∀ (facts : List (Atom × Reason)) (z : Atom), z ≠ x →
      (∀ e ∈ facts.filter (·.1 ≠ x), x ∉ e.2.premises) →
      derivationIn facts z = derivationIn (facts.filter (·.1 ≠ x)) z := by
    intro facts
    induction facts with
    | nil => intro z _ _; rfl
    | cons e facts ih =>
      intro z hz hunused
      obtain ⟨b, s⟩ := e
      by_cases hb : b = x
      · have hskip : ((b, s) :: facts).filter (·.1 ≠ x) = facts.filter (·.1 ≠ x) := by simp [hb]
        have hne : b ≠ z := fun h => hz (h.symm.trans hb)
        rw [hskip] at hunused ⊢
        rw [derivationIn, if_neg hne]
        exact ih z hz hunused
      · have hkeep : ((b, s) :: facts).filter (·.1 ≠ x) = (b, s) :: facts.filter (·.1 ≠ x) := by simp [hb]
        rw [hkeep] at hunused ⊢
        obtain ⟨hfirst, hrest⟩ := List.forall_mem_cons.1 hunused
        have hpremises : s.premises.mapM (derivationIn facts) =
            s.premises.mapM (derivationIn (facts.filter (·.1 ≠ x))) :=
          mapM_congr fun w hw => ih w (fun hwx => hfirst (hwx ▸ hw)) hrest
        rw [derivationIn, derivationIn, hpremises, ih z hz hrest]
  have hboth : ∀ r : PlainReasoner, (∀ e ∈ r.others x, x ∉ e.2.premises) →
      r.derivation? y = derivationIn (r.others x).reverse y := by
    intro r hr
    rw [PlainReasoner.derivation?, PlainReasoner.others, ← List.filter_reverse]
    apply hothers _ _ hy
    intro e he
    rw [List.filter_reverse, List.mem_reverse] at he
    exact hr e he
  rw [hboth p h.unused, hboth q h.symm.unused, h.others]

theorem checkConsistent (h : Beside x p q) : q.checkConsistent = p.checkConsistent := by
  rw [PlainReasoner.checkConsistent, PlainReasoner.checkConsistent, h.contradiction]
  cases hc : p.contradiction with
  | none => rfl
  | some a =>
    have ha : a ≠ x := fun ha => h.consistent (by rw [hc, ha])
    simp only [h.derivation?_eq ha]

theorem counted (h : Beside x p q) : Beside x p.counted q.counted := { h with }

theorem trans {r : PlainReasoner} (h : Beside x p q) (h' : Beside x q r) : Beside x p r :=
  { h with
    settings := h'.settings.trans h.settings
    rules := h'.rules.trans h.rules
    others := h'.others.trans h.others
    contradiction := h'.contradiction.trans h.contradiction }

theorem left (h : Beside x p q) : Beside x p p := h.trans h.symm

end Beside

/-! ## Rounds -/

theorem admitted_sublist (bottom : Option String) (known : List Atom) (is : List Inference) :
    (admitted bottom known is).Sublist is := by
  induction is generalizing known with
  | nil => exact .slnil
  | cons i is ih =>
    rw [admitted]
    split_ifs
    · exact (ih known).cons i
    · exact (List.nil_sublist is).cons_cons i
    · exact (ih _).cons_cons i

/-- If no contradiction is admitted, every conclusion was known or is admitted. -/
theorem mem_admitted {bottom : Option String} {known : List Atom} {is : List Inference}
    (h : ∀ i ∈ admitted bottom known is, bottom ≠ some i.conclusion.predicate) :
    ∀ i ∈ is, i.conclusion ∈ known ++ (admitted bottom known is).map (·.conclusion) := by
  induction is generalizing known with
  | nil => simp
  | cons i is ih =>
    rw [admitted] at h ⊢
    intro j hj
    split_ifs at h ⊢ with hmem hb
    · rcases List.mem_cons.1 hj with rfl | hj
      · exact List.mem_append_left _ hmem
      · exact ih h j hj
    · exact absurd hb (h i (List.mem_singleton_self i))
    · rcases List.mem_cons.1 hj with rfl | hj
      · simp
      · simpa using ih (fun i' hi' => h i' (List.mem_cons_of_mem _ hi')) j hj

/-- Nothing is admitted if all that is inferred is known. -/
theorem admitted_eq_nil (bottom : Option String) {known : List Atom} {is : List Inference}
    (h : ∀ i ∈ is, i.conclusion ∈ known) : admitted bottom known is = [] := by
  induction is with
  | nil => rfl
  | cons i is ih =>
    obtain ⟨hi, his⟩ := List.forall_mem_cons.1 h
    rw [admitted, if_pos hi, ih his]

theorem settings_advance (p : PlainReasoner) : p.advance.settings = p.settings := by
  change (p.holdAll _ p.fresh).settings = _
  rw [holdAll_eq]

theorem rules_advance (p : PlainReasoner) : p.advance.rules = p.rules := by
  change (p.holdAll _ p.fresh).rules = _
  rw [holdAll_eq]

theorem atoms_advance (p : PlainReasoner) : p.advance.atoms = p.atoms ++ p.fresh.map (·.conclusion) := by
  change (p.holdAll _ p.fresh).facts.map _ = _
  rw [holdAll_eq]
  simp [atoms]

theorem others_advance (p : PlainReasoner) (x : Atom) :
    p.advance.others x = p.others x ++ (p.freshOthers x).map fun i => (i.conclusion, i.reason (p.generation + 1)) :=
  others_holdAll _ p x p.fresh

namespace Beside

theorem contradiction_advance (h : Beside x p q) : p.advance.contradiction =
    p.contradiction.or (((p.freshOthers x).map (·.conclusion)).find? p.isBottom) :=
  contradiction_holdAll_others h.harmless _ p.fresh

/-- What a round holds besides `x` was not inferred from it. -/
theorem unused_advance (h : Beside x p q) : ∀ e ∈ p.advance.others x, x ∉ e.2.premises := by
  intro e he
  rw [others_advance] at he
  rcases List.mem_append.1 he with he | he
  · exact h.unused e he
  · obtain ⟨i, hi, rfl⟩ := List.mem_map.1 he
    have hfresh : i ∈ p.fresh := (List.mem_filter.1 hi).1
    exact not_mem_premises h.irrelevant ((admitted_sublist _ _ _).subset hfresh)

theorem consistent_advance (h : Beside x p q) : p.advance.contradiction ≠ some x := by
  rw [h.contradiction_advance]
  intro hx
  rcases Option.or_eq_some_iff.1 hx with hx | ⟨-, hx⟩
  · exact h.consistent hx
  · have hb := List.find?_some hx
    rw [h.harmless] at hb
    cases hb

/-- Rounds that find the same besides `x` leave the same besides `x`. -/
theorem advance_of_eq (h : Beside x p q) (hsame : q.advance.others x = p.advance.others x) :
    Beside x p.advance q.advance where
  irrelevant := by rw [rules_advance]; exact h.irrelevant
  harmless := by rw [isBottom, settings_advance]; exact h.harmless
  settings := by rw [settings_advance, settings_advance, h.settings]
  rules := by rw [rules_advance, rules_advance, h.rules]
  others := hsame
  contradiction := by
    have hbottom : q.isBottom = p.isBottom := by
      funext a
      rw [isBottom, isBottom, h.settings]
    rw [h.contradiction_advance, h.symm.contradiction_advance, h.freshOthers, h.contradiction, hbottom]
  consistent := h.consistent_advance
  unused := h.unused_advance

/-- A round that finds nothing besides `x` changes nothing besides `x`. -/
theorem advance_of_quiet (h : Beside x p q) (hquiet : p.freshOthers x = []) : Beside x p p.advance :=
  { h.left with
    settings := settings_advance p
    rules := rules_advance p
    others := by rw [others_advance, hquiet, List.map_nil, List.append_nil]
    contradiction := by rw [h.contradiction_advance, hquiet, List.map_nil, List.find?_nil, Option.or_none] }

/-- After such a round nothing new is found at all. -/
theorem fresh_advance_of_quiet (h : Beside x p q) (hquiet : p.freshOthers x = []) : p.advance.fresh = [] := by
  have hbeside := h.advance_of_quiet hquiet
  have hfresh : ∀ i ∈ p.fresh, i.conclusion = x := by
    intro i hi
    by_contra hne
    have hmem : i ∈ p.freshOthers x := List.mem_filter.2 ⟨hi, by simp [hne]⟩
    rw [hquiet] at hmem
    cases hmem
  have hharmless : ∀ i ∈ p.fresh, p.settings.bottom? ≠ some i.conclusion.predicate := by
    intro i hi
    rw [hfresh i hi]
    exact h.bottom_ne
  have hknown := mem_admitted hharmless
  apply admitted_eq_nil
  rw [hbeside.inferences, atoms_advance]
  exact hknown

theorem advance (h : Beside x p q) (hl : Level x p q) :
    Beside x p.advance q.advance ∧ Level x p.advance q.advance := by
  by_cases hquiet : p.freshOthers x = []
  · have hp := h.advance_of_quiet hquiet
    have hq := h.symm.advance_of_quiet (h.freshOthers.trans hquiet)
    refine ⟨hp.symm.trans (h.trans hq), .inr ?_⟩
    rw [hp.freshOthers, hquiet]
  · have hgen : q.generation = p.generation := hl.resolve_right hquiet
    have hne : ∀ r : PlainReasoner, r.freshOthers x ≠ [] → r.fresh ≠ [] := by
      intro r hr hnil
      rw [PlainReasoner.freshOthers, hnil] at hr
      exact hr rfl
    refine ⟨h.advance_of_eq ?_, .inl ?_⟩
    · rw [others_advance, others_advance, h.others, h.freshOthers, hgen]
    · rw [PlainReasoner.advance, PlainReasoner.advance, if_neg (hne p hquiet),
        if_neg (hne q (h.freshOthers ▸ hquiet)), hgen]

/-- Two rounds both fail, alike, or both succeed, and leave the same besides `x`. -/
theorem round (h : Beside x p q) (hl : Level x p q) :
    (q.round.1.map fun _ => ()) = (p.round.1.map fun _ => ()) ∧ Beside x p.round.2 q.round.2 ∧
      Level x p.round.2 q.round.2 := by
  obtain ⟨ha, hla⟩ := h.advance hl
  rw [PlainReasoner.round, PlainReasoner.round, h.checkConsistent, ha.checkConsistent]
  cases p.checkConsistent with
  | error e => exact ⟨rfl, h, hl⟩
  | ok _ =>
    refine ⟨?_, ha, hla⟩
    cases p.advance.checkConsistent <;> rfl

/-- How two such rounds go. -/
theorem round_cases (h : Beside x p q) (hl : Level x p q) :
    (∃ e, p.round = (.error e, p.round.2) ∧ q.round = (.error e, q.round.2)) ∨
    (p.advance.contradiction = none ∧ p.round = (.ok p.fresh.length, p.advance) ∧
      q.round = (.ok q.fresh.length, q.advance)) := by
  obtain ⟨ha, -⟩ := h.advance hl
  unfold PlainReasoner.round
  rw [h.checkConsistent]
  cases p.checkConsistent with
  | error e => exact .inl ⟨e, rfl, rfl⟩
  | ok _ =>
    simp only [ha.checkConsistent]
    cases hc : p.advance.checkConsistent with
    | error e => exact .inl ⟨e, rfl, rfl⟩
    | ok _ =>
      refine .inr ⟨?_, rfl, rfl⟩
      unfold PlainReasoner.checkConsistent at hc
      cases hnone : p.advance.contradiction with
      | none => rfl
      | some a => rw [hnone] at hc; cases hc

end Beside

/-! ## Queries -/

def Unbounded (p : PlainReasoner) : Prop := p.settings.maxRounds = none ∧ p.settings.maxFacts = none

theorem Unbounded.atCeilings (h : Unbounded p) (n : Nat) : p.atCeilings n = none := by
  rw [PlainReasoner.atCeilings, h.1, h.2]
  rfl

theorem Unbounded.advance (h : Unbounded p) : Unbounded p.advance := by
  rw [Unbounded, settings_advance]
  exact h

theorem round_of_fresh_eq_nil (hnone : p.contradiction = none) (hfresh : p.fresh = []) :
    p.round = (.ok 0, p.advance) := by
  have hend : p.advance.contradiction = none := by
    change (p.holdAll _ p.fresh).contradiction = none
    rw [hfresh]
    exact hnone
  simp only [PlainReasoner.round, checkConsistent, hnone, hend, hfresh, Except.map, List.length_nil]

theorem Unbounded.searchFrom_eq {target : Atom} (h : Unbounded p) (hmem : target ∉ p.atoms) (n : Nat) :
    p.searchFrom target n =
      match p.round with
      | (.error e, q) => some (.error e, q)
      | (.ok 0, q) => some (.error (.notEntailed target), q)
      | (.ok (_ + 1), q) => q.searchFrom target (n + 1) := by
  have hnone := h.atCeilings n
  rw [PlainReasoner.searchFrom, if_neg hmem]
  split
  · next hsome => rw [hnone] at hsome; cases hsome
  · rfl

/-- A search that has ended, and one that ends alike and leaves the same besides `x`. -/
def EndsBeside (x : Atom) (r : Except Failure Nat × PlainReasoner)
    (r' : Option (Except Failure Nat × PlainReasoner)) : Prop :=
  ∃ out q, r' = some (out, q) ∧ (out.map fun _ => ()) = (r.1.map fun _ => ()) ∧ Beside x r.2 q

/-- The search for another atom goes the same way, though one of the two may need a round more to see that nothing new
is found. -/
theorem Beside.searchFrom {target : Atom} (ht : target ≠ x) :
    ∀ n p r, searchFrom target n p = some r → ∀ q m, Beside x p q → Level x p q → Unbounded p →
      EndsBeside x r (q.searchFrom target m) := by
  refine searchFrom.partial_correctness target _ fun loop ih n p r hr q m h hl hu => ?_
  have huq : Unbounded q := by
    rw [Unbounded, h.settings]
    exact hu
  by_cases hmem : target ∈ p.atoms
  · rw [PlainReasoner.searchFrom, if_pos ((h.mem_iff ht).2 hmem)]
    rw [if_pos hmem] at hr
    obtain rfl := Option.some.inj hr
    exact ⟨_, q, rfl, rfl, h⟩
  · have hmemq : target ∉ q.atoms := mt (h.mem_iff ht).1 hmem
    have hstep := huq.searchFrom_eq hmemq m
    rw [if_neg hmem, hu.atCeilings] at hr
    obtain ⟨hb, hlb⟩ := h.advance hl
    rcases h.round_cases hl with ⟨e, hp, hq⟩ | ⟨hnone, hp, hq⟩
    · rw [hp] at hr
      rw [hstep, hq]
      obtain rfl := Option.some.inj hr
      exact ⟨_, _, rfl, rfl, (h.round hl).2.1⟩
    · rw [hp] at hr
      rw [hq] at hstep
      cases hkp : p.fresh.length with
      | zero =>
        rw [hkp] at hr
        obtain rfl := Option.some.inj hr
        have hquiet : p.freshOthers x = [] := by
          rw [PlainReasoner.freshOthers, List.length_eq_zero_iff.1 hkp]
          rfl
        cases hkq : q.fresh.length with
        | zero =>
          rw [hkq] at hstep
          exact ⟨_, _, hstep, rfl, hb⟩
        | succ k =>
          -- the second has found `x`, and finds nothing in its next round
          rw [hkq] at hstep
          have hnext : q.searchFrom target m = q.advance.searchFrom target (m + 1) := hstep
          have hquietq : q.freshOthers x = [] := h.freshOthers.trans hquiet
          have hlast := round_of_fresh_eq_nil (hb.contradiction.trans hnone) (h.symm.fresh_advance_of_quiet hquietq)
          have hq' := h.symm.advance_of_quiet hquietq
          have hmem' : target ∉ q.advance.atoms := by
            rw [hq'.mem_iff ht]
            exact hmemq
          rw [huq.advance.searchFrom_eq hmem', hlast] at hnext
          exact ⟨_, _, hnext, rfl, hb.trans (hq'.symm.left.advance_of_quiet (hq'.freshOthers.trans hquietq))⟩
      | succ k =>
        rw [hkp] at hr
        cases hkq : q.fresh.length with
        | zero =>
          -- the first has found `x`; the second stands where the first does now, but for `x`
          have hquietq : q.freshOthers x = [] := by
            rw [PlainReasoner.freshOthers, List.length_eq_zero_iff.1 hkq]
            rfl
          have hquiet : p.freshOthers x = [] := h.freshOthers.symm.trans hquietq
          have hp' := h.advance_of_quiet hquiet
          exact ih _ _ _ hr q m (hp'.symm.trans h) (.inr (hp'.freshOthers.trans hquiet)) hu.advance
        | succ k' =>
          rw [hkq] at hstep
          rw [hstep]
          exact ih _ _ _ hr _ _ hb hlb hu.advance

/-- A query for another atom gets the same answer, and leaves the same besides `x`. -/
theorem Beside.query {target : Atom} (h : Beside x p q) (hl : Level x p q) (hu : Unbounded p) (ht : target ≠ x)
    {out : Except Failure (Option Derivation)} {p' : PlainReasoner} (hp : p.query target = some (out, p')) :
    ∃ q', q.query target = some (out, q') ∧ Beside x p' q' := by
  unfold PlainReasoner.query at hp ⊢
  rw [h.checkConsistent]
  cases hc : p.checkConsistent with
  | error e =>
    rw [hc] at hp
    obtain ⟨rfl, rfl⟩ := Prod.mk.inj (Option.some.inj hp)
    exact ⟨_, rfl, h.counted⟩
  | ok _ =>
    rw [hc] at hp
    simp only at hp ⊢
    split_ifs at hp ⊢ with hg
    · obtain ⟨⟨n, s⟩, hs, heq⟩ := Option.map_eq_some_iff.1 hp
      obtain ⟨rfl, rfl⟩ := Prod.mk.inj heq
      have hcounted : Level x p.counted q.counted := hl
      obtain ⟨n', s', hs', hsame, hb⟩ := Beside.searchFrom ht 0 _ _ hs _ 0 h.counted hcounted hu
      refine ⟨s', ?_, hb⟩
      rw [hs', Option.map_some, hb.derivation?_eq ht]
      cases n <;> cases n' <;> simp [Except.map] at hsame ⊢
      exact hsame
    · obtain ⟨rfl, rfl⟩ := Prod.mk.inj (Option.some.inj hp)
      exact ⟨_, rfl, h.counted⟩

/-! ## Stating facts and rules -/

theorem generation_addFact (p : PlainReasoner) (a : Atom) : (p.addFact a).2.generation = p.generation := by
  unfold PlainReasoner.addFact
  split_ifs <;> rfl

theorem generation_addRule (p : PlainReasoner) (rule : Rule) : (p.addRule rule).2.generation = p.generation := by
  unfold PlainReasoner.addRule
  split_ifs
  · exact generation_addFact p _
  all_goals rfl

theorem generation_addRules (p : PlainReasoner) (rules : List Rule) :
    (p.addRules rules).2.generation = p.generation := by
  induction rules generalizing p with
  | nil => rfl
  | cons rule rules ih =>
    have hfirst := generation_addRule p rule
    rw [addRules]
    generalize p.addRule rule = l at hfirst
    obtain ⟨out, q⟩ := l
    cases out with
    | ok _ => exact (ih q).trans hfirst
    | error e => exact hfirst

/-- Rules are added in two steps. -/
theorem addRules_append (p : PlainReasoner) (rules later : List Rule) :
    p.addRules (rules ++ later) =
      match p.addRules rules with
      | (.ok _, q) => q.addRules later
      | (.error e, q) => (.error e, q) := by
  induction rules generalizing p with
  | nil => rfl
  | cons rule rules ih =>
    rw [List.cons_append, addRules, addRules]
    generalize p.addRule rule = l
    obtain ⟨out, q⟩ := l
    cases out with
    | ok _ => exact ih q
    | error e => rfl

namespace Beside

/-- Stating `x` changes nothing besides it. -/
theorem addSelf (h : Beside x p q) : Beside x p (q.addFact x).2 := by
  unfold PlainReasoner.addFact
  split_ifs
  · exact h
  · refine { h with others := ?_, contradiction := ?_ }
    · rw [← h.others]
      simp [PlainReasoner.others, PlainReasoner.hold]
    · rw [PlainReasoner.hold, h.symm.harmless, Bool.and_false]
      exact h.contradiction
  · exact h

theorem addOther (h : Beside x p q) {a : Atom} (ha : a ≠ x) : Beside x (p.addFact a).2 (q.addFact a).2 := by
  unfold PlainReasoner.addFact
  simp only [h.mem_iff ha]
  split_ifs
  · exact h
  · have hbottom : q.isBottom a = p.isBottom a := by rw [isBottom, isBottom, h.settings]
    have hothers : ∀ r : PlainReasoner, (r.hold a ⟨[], none, 0⟩).others x = r.others x ++ [(a, ⟨[], none, 0⟩)] := by
      intro r
      simp [PlainReasoner.others, PlainReasoner.hold, ha]
    refine { h with others := ?_, contradiction := ?_, consistent := ?_, unused := ?_ }
    · rw [hothers, hothers, h.others]
    · simp only [PlainReasoner.hold, hbottom, h.contradiction]
    · intro hx
      rw [PlainReasoner.hold] at hx
      split_ifs at hx
      · exact ha (Option.some.inj hx)
      · exact h.consistent hx
    · intro e he
      rw [hothers] at he
      rcases List.mem_append.1 he with he | he
      · exact h.unused e he
      · rw [List.mem_singleton.1 he]
        exact List.not_mem_nil
  · exact h

theorem addFact (h : Beside x p q) (a : Atom) :
    ((q.addFact a).1.map fun _ => ()) = ((p.addFact a).1.map fun _ => ()) ∧
      Beside x (p.addFact a).2 (q.addFact a).2 := by
  constructor
  · unfold PlainReasoner.addFact
    split_ifs <;> rfl
  · by_cases ha : a = x
    · subst ha
      exact h.addSelf.symm.addSelf.symm
    · exact h.addOther ha

theorem addRule (h : Beside x p q) {rule : Rule}
    (hrule : ∀ a ∈ rule.premises, ¬ (a.predicate = x.predicate ∧ a.arity = x.arity)) :
    ((q.addRule rule).1.map fun _ => ()) = ((p.addRule rule).1.map fun _ => ()) ∧
      Beside x (p.addRule rule).2 (q.addRule rule).2 := by
  unfold PlainReasoner.addRule
  rw [h.rules]
  split_ifs
  · exact h.addFact _
  · exact ⟨rfl, h⟩
  · exact ⟨rfl, h⟩
  · refine ⟨rfl, { h with irrelevant := ?_, rules := rfl }⟩
    intro c hc
    rcases List.mem_append.1 hc with hc | hc
    · exact h.irrelevant c hc
    · rw [List.mem_singleton.1 hc]
      exact hrule

theorem addRules {rules : List Rule} (h : Beside x p q) (hx : x.Irrelevant rules) :
    (q.addRules rules).1 = (p.addRules rules).1 ∧ Beside x (p.addRules rules).2 (q.addRules rules).2 := by
  induction rules generalizing p q with
  | nil => exact ⟨rfl, h⟩
  | cons rule rules ih =>
    obtain ⟨hrule, hrules⟩ := List.forall_mem_cons.1 hx
    obtain ⟨hout, hb⟩ := h.addRule hrule
    rw [PlainReasoner.addRules, PlainReasoner.addRules]
    generalize p.addRule rule = l, q.addRule rule = l' at hout hb
    obtain ⟨out, p'⟩ := l
    obtain ⟨out', q'⟩ := l'
    cases out with
    | ok _ =>
      cases out' with
      | ok _ => exact ih hb hrules
      | error e => cases hout
    | error e =>
      cases out' with
      | ok _ => cases hout
      | error e' => exact ⟨congrArg Except.error (Except.error.inj hout), hb⟩

end Beside

theorem beside_empty {settings : Settings} (hx : settings.bottom? ≠ some x.predicate) :
    Beside x (empty settings) (empty settings) where
  irrelevant _ hc := nomatch hc
  harmless := decide_eq_false hx
  settings := rfl
  rules := rfl
  others := rfl
  contradiction := rfl
  consistent := nofun
  unused _ he := nomatch he

/-- Created with a ground atom stated anywhere among the rules, a reasoner is the same besides that atom. -/
theorem beside_create {settings : Settings} (hx : settings.bottom? ≠ some x.predicate) (hg : x.isGround)
    {rules later : List Rule} (hirr : x.Irrelevant (rules ++ later)) :
    (create settings (rules ++ Rule.fact x :: later)).1 = (create settings (rules ++ later)).1 ∧
      Beside x (create settings (rules ++ later)).2 (create settings (rules ++ Rule.fact x :: later)).2 := by
  have hfirst := ((beside_empty hx).addRules fun c hc => hirr c (List.mem_append_left _ hc)).2
  rw [create, create, addRules_append, addRules_append]
  generalize (empty settings).addRules rules = l at hfirst
  obtain ⟨out, p⟩ := l
  cases out with
  | error e => exact ⟨rfl, hfirst⟩
  | ok _ =>
    have hstate : ∃ b, p.addRule (Rule.fact x) = (.ok b, (p.addFact x).2) := by
      have hadd : p.addRule (Rule.fact x) = p.addFact x := by
        unfold PlainReasoner.addRule
        exact (if_pos rfl).trans (if_pos hg)
      rw [hadd, PlainReasoner.addFact, if_pos hg]
      split_ifs
      · exact ⟨_, rfl⟩
      · exact ⟨_, rfl⟩
    obtain ⟨b, hb⟩ := hstate
    have hlater : x.Irrelevant later := fun c hc => hirr c (List.mem_append_right _ hc)
    have hend := hfirst.addSelf.addRules hlater
    simp only [PlainReasoner.addRules, hb]
    exact hend

end PlainReasoner

namespace Reasoner

variable {r s : Reasoner} {x : Atom}

/-- What is seen of the two reasoners is the same, apart from the atom. -/
structure SameBeside (x : Atom) (r s : Reasoner) : Prop where
  facts : ∃ as bs, r.facts = .ok as ∧ s.facts = .ok bs ∧ as.filter (· ≠ x) = bs.filter (· ≠ x)
  generations : ∃ as bs, r.generations = .ok as ∧ s.generations = .ok bs ∧
    as.filter (·.1 ≠ x) = bs.filter (·.1 ≠ x)
  justifications : ∃ as bs, r.justifications = .ok as ∧ s.justifications = .ok bs ∧
    as.filter (·.1 ≠ x) = bs.filter (·.1 ≠ x)
  derivationOf : ∀ y ≠ x, r.derivationOf y = s.derivationOf y
  contradiction : r.contradictionAtom = s.contradictionAtom
  checkConsistent : r.checkConsistent = s.checkConsistent
  query : ∀ target ≠ x, (r.query target).1 = (s.query target).1

theorem Refines.sameBeside {p q : PlainReasoner} (hr : Refines r p) (hs : Refines s q) (hcr : Coherent r)
    (hcs : Coherent s) (h : p.Beside x q) (hl : p.Level x q) (hu : p.Unbounded) : SameBeside x r s := by
  have har := hr.agrees hcr
  have has := hs.agrees hcs
  have hmap : ∀ {β : Type} (f : Atom × Reason → Atom × β), (∀ e, (f e).1 = e.1) →
      (p.facts.map f).filter (·.1 ≠ x) = (q.facts.map f).filter (·.1 ≠ x) := by
    intro β f hf
    have hcomp : ((fun e : Atom × β => decide (e.1 ≠ x)) ∘ f) = fun e => decide (e.1 ≠ x) := by
      funext e
      rw [Function.comp_apply, hf]
    have hothers := h.others
    unfold PlainReasoner.others at hothers
    rw [List.filter_map, List.filter_map, hcomp, hothers]
  refine { facts := ⟨_, _, har.facts, has.facts, ?_⟩, generations := ⟨_, _, har.generations, has.generations, ?_⟩,
           justifications := ⟨_, _, har.justifications, has.justifications, ?_⟩,
           derivationOf := fun y hy => ?_, contradiction := ?_, checkConsistent := ?_, query := fun target ht => ?_ }
  · rw [← PlainReasoner.atoms_others, ← PlainReasoner.atoms_others, h.others]
  · exact hmap _ fun _ => rfl
  · exact hmap _ fun _ => rfl
  · rw [har.derivationOf, has.derivationOf, h.derivation?_eq hy]
  · rw [har.contradictionAtom, has.contradictionAtom, h.contradiction]
  · rw [hr.checkConsistent_eq hcr, hs.checkConsistent_eq hcs, h.checkConsistent]
  · obtain ⟨p', hp, -⟩ := hr.query_eq hcr target
    obtain ⟨q', hq, -⟩ := hs.query_eq hcs target
    obtain ⟨q'', hq', -⟩ := h.query hl hu ht hp
    rw [hq] at hq'
    exact (Prod.mk.inj (Option.some.inj hq')).1.symm

/-- The two reasoners over names, after any number of rounds. -/
theorem exists_beside (settings : Settings) (journal : Journal) {rules later : List Rule}
    (hx : settings.bottom? ≠ some x.predicate) (hg : x.isGround) (hirr : x.Irrelevant (rules ++ later)) (n : Nat) :
    ∃ p q, Refines (afterRounds settings journal (rules ++ later) n) p ∧
      Refines (afterRounds settings journal (rules ++ Rule.fact x :: later) n) q ∧ p.Beside x q ∧ p.Level x q := by
  induction n with
  | zero =>
    refine ⟨_, _, (refines_create settings journal _).2, (refines_create settings journal _).2,
      (PlainReasoner.beside_create hx hg hirr).2, .inl ?_⟩
    rw [PlainReasoner.create, PlainReasoner.create, PlainReasoner.generation_addRules,
      PlainReasoner.generation_addRules]
  | succ n ih =>
    obtain ⟨p, q, hp, hq, hb, hl⟩ := ih
    obtain ⟨-, hb', hl'⟩ := hb.round hl
    have hnext : ∀ all, afterRounds settings journal all (n + 1) = (afterRounds settings journal all n).round.2 :=
      fun all => performAll_replicate_succ _ n
    rw [hnext, hnext]
    exact ⟨_, _, (hp.of_round (coherent_after ..) rfl).2, (hq.of_round (coherent_after ..) rfl).2, hb', hl'⟩

/-- Irrelevant facts do not disturb the search. A ground atom that is no contradiction and that no premise matches may
be stated anywhere among the rules: the reasoner is created or refused as without it, and after any number of rounds
there are the same facts besides it, in the same order, with the same rounds and reasons, the same contradiction, and
for any other target the same answer. -/
theorem besides_after (settings : Settings) (journal : Journal) (rules later : List Rule) (x : Atom)
    (hr : settings.maxRounds = none) (hf : settings.maxFacts = none) (hg : x.isGround)
    (hb : settings.bottom? ≠ some x.predicate) (hx : x.Irrelevant (rules ++ later)) :
    (create settings journal (rules ++ later)).1 = (create settings journal (rules ++ Rule.fact x :: later)).1 ∧
    ∀ n, SameBeside x (afterRounds settings journal (rules ++ later) n)
      (afterRounds settings journal (rules ++ Rule.fact x :: later) n) := by
  constructor
  · rw [(refines_create settings journal _).1, (refines_create settings journal _).1,
      (PlainReasoner.beside_create hb hg hx).1]
  · intro n
    obtain ⟨p, q, hp, hq, hpq, hl⟩ := exists_beside settings journal hb hg hx n
    have hsettings : p.settings = settings := hp.settings.symm.trans (settings_after settings journal _ _)
    have hunbounded : p.Unbounded := by
      rw [PlainReasoner.Unbounded, hsettings]
      exact ⟨hr, hf⟩
    exact hp.sameBeside hq (coherent_after ..) (coherent_after ..) hpq hl hunbounded

/-- What joins two links, stated before them: without it, the first round finds it. -/
theorem besides_joined :
    (⟨"reach", [.const "a", .const "c"]⟩ : Atom).isGround ∧ unbounded.bottom? ≠ some "reach" ∧
    (⟨"reach", [.const "a", .const "c"]⟩ : Atom).Irrelevant joined ∧
    ∀ n, SameBeside ⟨"reach", [.const "a", .const "c"]⟩
      (afterRounds { unbounded with exhaustiveMatching := true } .empty joined n)
      (afterRounds { unbounded with exhaustiveMatching := true } .empty
        (.fact ⟨"reach", [.const "a", .const "c"]⟩ :: joined) n) := by
  have hirr : (⟨"reach", [.const "a", .const "c"]⟩ : Atom).Irrelevant joined := by
    unfold Atom.Irrelevant
    decide
  obtain ⟨-, hsame⟩ := besides_after { unbounded with exhaustiveMatching := true } .empty [] joined
    ⟨"reach", [.const "a", .const "c"]⟩ rfl rfl rfl (by decide) hirr
  exact ⟨rfl, by decide, hirr, hsame⟩

end Reasoner

end Entail
