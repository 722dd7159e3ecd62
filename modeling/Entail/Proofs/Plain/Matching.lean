import Entail.Proofs.Instances
import Entail.Proofs.Plain.Basic

/-!
# Matching names

* `Assignment.Narrows` : what a match makes of an assignment, for choices of constants; `narrows_matchAll` : matches
  over two lists, given what each step does;
* `Rule.conclude_eq_some_iff` : a rule concludes an atom from ground facts exactly if it is covered and one of its
  instances has the facts for premises and the atom for conclusion;
* `Coded.Rule.Reads.conclude` : a coded rule applies exactly where the rule that it reads as concludes something, and
  gives the same.
-/

namespace Entail

namespace Assignment

variable {m : Assignment}

/-- The choice of constants gives each variable the constant it has. -/
def Allows (m : Assignment) (σ : String → String) : Prop := ∀ v n, m.lookup v = some n → σ v = n

/-- A match that `holds` for some choices of constants: it fails if none of them is allowed; else it leaves those of
them that were allowed, and every variable in `vars` has a constant then. -/
structure Narrows (m : Assignment) (holds : (String → String) → Prop) (vars : String → Prop) (out : Option Assignment) :
    Prop where
  fails : out = none → ∀ σ, m.Allows σ → ¬ holds σ
  allows : ∀ m', out = some m' → ∀ σ, m'.Allows σ ↔ m.Allows σ ∧ holds σ
  bound : ∀ m', out = some m' → ∀ v, (m'.lookup v).isSome ↔ (m.lookup v).isSome ∨ vars v

theorem allows_nil (σ : String → String) : Allows [] σ := fun _ _ h => by cases h

theorem exists_allowed (m : Assignment) : ∃ σ, m.Allows σ :=
  ⟨fun v => (m.lookup v).getD "", fun v n h => by simp [h]⟩

/-- A match that changes nothing. -/
theorem narrows_some {holds : (String → String) → Prop} {vars : String → Prop} (hp : ∀ σ, m.Allows σ → holds σ)
    (hv : ∀ v, vars v → (m.lookup v).isSome) : m.Narrows holds vars (some m) := by
  refine ⟨nofun, fun m' h σ => ?_, fun m' h v => ?_⟩
  · obtain rfl := Option.some.inj h
    exact ⟨fun hσ => ⟨hσ, hp σ hσ⟩, And.left⟩
  · obtain rfl := Option.some.inj h
    exact ⟨Or.inl, fun h => h.elim id (hv v)⟩

theorem narrows_none {holds : (String → String) → Prop} {vars : String → Prop}
    (hp : ∀ σ, m.Allows σ → ¬ holds σ) : m.Narrows holds vars none :=
  ⟨fun _ => hp, nofun, nofun⟩

theorem narrows_give (m : Assignment) (v n : String) : m.Narrows (fun σ => σ v = n) (fun w => v = w) (m.give v n) := by
  unfold give
  cases hv : m.lookup v with
  | some k =>
    by_cases hk : k = n
    · simp only [if_pos hk]
      refine narrows_some (fun σ hσ => hk ▸ hσ v k hv) ?_
      rintro w rfl
      simp [hv]
    · simp only [if_neg hk]
      exact narrows_none fun σ hσ h => hk ((hσ v k hv).symm.trans h)
  | none =>
    have hlookup : ∀ w, List.lookup w ((v, n) :: m) = if v = w then some n else m.lookup w := by
      intro w
      by_cases hw : v = w
      · simp [hw]
      · simp [List.lookup_cons, hw, beq_eq_false_iff_ne.2 (Ne.symm hw)]
    refine ⟨nofun, fun m' h σ => ?_, fun m' h w => ?_⟩
    · obtain rfl := Option.some.inj h
      constructor
      · refine fun hσ => ⟨fun w k hw => hσ w k ?_, hσ v n (by rw [hlookup, if_pos rfl])⟩
        rw [hlookup, if_neg, hw]
        rintro rfl
        rw [hv] at hw
        cases hw
      · rintro ⟨hσ, rfl⟩ w k hw
        rw [hlookup] at hw
        split_ifs at hw with hvw
        · exact hvw ▸ Option.some.inj hw
        · exact hσ w k hw
    · obtain rfl := Option.some.inj h
      rw [hlookup]
      split_ifs with hvw <;> simp [hvw]

theorem narrows_matchTerm (m : Assignment) (x : Term) (n : String) :
    m.Narrows (fun σ => x.instantiate σ = .const n) (fun v => x = .var v) (m.matchTerm x (.const n)) := by
  cases x with
  | var v => simpa [matchTerm, Term.instantiate] using narrows_give m v n
  | const k =>
    rw [matchTerm]
    split_ifs with hk
    · exact narrows_some (fun σ _ => by rw [Term.instantiate, hk]) (by simp)
    · exact narrows_none fun σ _ h => hk (by simpa [Term.instantiate] using h)

section
variable {α : Type} {step : Assignment → α → α → Option Assignment} {inst : (String → String) → α → α}
  {has : α → String → Prop} {ground : α → Prop}

theorem narrows_matchAll
    (hstep : ∀ (m : Assignment) (x y : α), ground y → m.Narrows (fun σ => inst σ x = y) (has x) (step m x y))
    (m : Assignment) (xs : List α) {ys : List α} (hys : ∀ y ∈ ys, ground y) :
    m.Narrows (fun σ => xs.map (inst σ) = ys) (fun v => ∃ x ∈ xs, has x v) (matchAll step m xs ys) := by
  induction xs generalizing m ys with
  | nil =>
    cases ys with
    | nil => exact narrows_some (fun _ _ => rfl) (by simp)
    | cons y ys => exact narrows_none (by simp)
  | cons x xs ih =>
    cases ys with
    | nil => exact narrows_none (by simp)
    | cons y ys =>
      have hx := hstep m x y (hys y List.mem_cons_self)
      have hcons : ∀ σ, (x :: xs).map (inst σ) = y :: ys ↔ inst σ x = y ∧ xs.map (inst σ) = ys := by simp
      rw [matchAll]
      cases hm : step m x y with
      | none =>
        rw [Option.bind_none]
        exact narrows_none fun σ hσ h => hx.fails hm σ hσ ((hcons σ).1 h).1
      | some m₁ =>
        have hxs := ih m₁ fun z hz => hys z (List.mem_cons_of_mem _ hz)
        rw [Option.bind_some]
        refine ⟨fun h σ hσ hmap => ?_, fun m' h σ => ?_, fun m' h v => ?_⟩
        · obtain ⟨hxy, hrest⟩ := (hcons σ).1 hmap
          exact hxs.fails h σ ((hx.allows m₁ hm σ).2 ⟨hσ, hxy⟩) hrest
        · rw [hxs.allows m' h, hx.allows m₁ hm, hcons, and_assoc]
        · rw [hxs.bound m' h, hx.bound m₁ hm, or_assoc]
          simp

end

theorem narrows_matchAtom (m : Assignment) (p f : Atom) (hf : f.isGround) :
    m.Narrows (fun σ => p.instantiate σ = f) (fun v => .var v ∈ p.args) (m.matchAtom p f) := by
  obtain ⟨q, ys⟩ := f
  have hterm : ∀ (m : Assignment) (x y : Term), y.isGround = true →
      m.Narrows (fun σ => x.instantiate σ = y) (fun v => x = .var v) (m.matchTerm x y) := by
    intro m x y hy
    cases y with
    | const n => exact narrows_matchTerm m x n
    | var v => cases hy
  have hargs := narrows_matchAll hterm m p.args (List.all_eq_true.1 hf)
  have heq : ∀ σ, p.instantiate σ = ⟨q, ys⟩ ↔ p.predicate = q ∧ p.args.map (Term.instantiate σ) = ys := by
    simp [Atom.instantiate]
  simp only [heq, matchAtom]
  split_ifs with hq
  · simpa [hq] using hargs
  · exact narrows_none fun σ _ h => hq h.1

/-- Under assignments that allow a choice of constants, terms are filled in as the choice says. -/
theorem fill_of_allows {σ : String → String} (hσ : m.Allows σ) {x y : Term} (h : m.fill x = some y) :
    x.instantiate σ = y := by
  cases x with
  | const n => exact Option.some.inj h
  | var v =>
    obtain ⟨n, hn, rfl⟩ := Option.map_eq_some_iff.1 h
    rw [Term.instantiate, hσ v n hn]

theorem fill_eq_some {σ : String → String} (hσ : m.Allows σ) {x : Term}
    (hx : ∀ v, x = .var v → (m.lookup v).isSome) : m.fill x = some (x.instantiate σ) := by
  cases x with
  | const n => rfl
  | var v =>
    obtain ⟨n, hn⟩ := Option.isSome_iff_exists.1 (hx v rfl)
    rw [fill, hn, Term.instantiate, hσ v n hn]
    rfl

end Assignment

open Assignment in
theorem Rule.conclude_eq_some_iff {r : Rule} {facts : List Atom} (hf : ∀ f ∈ facts, f.isGround) {a : Atom} :
    r.conclude facts = some a ↔
      r.Covered ∧ ∃ σ, r.premises.map (Atom.instantiate σ) = facts ∧ r.conclusion.instantiate σ = a := by
  have hn := narrows_matchAll narrows_matchAtom [] r.premises hf
  rw [conclude]
  cases hm : matchAll matchAtom [] r.premises facts with
  | none =>
    simp only [Option.bind_eq_bind, Option.bind_none, reduceCtorEq, false_iff, not_and]
    rintro - ⟨σ, hσ, -⟩
    exact hn.fails hm σ (allows_nil σ) hσ
  | some m =>
    have hallows : ∀ σ, m.Allows σ ↔ r.premises.map (Atom.instantiate σ) = facts := by
      intro σ
      rw [hn.allows m hm]
      exact and_iff_right (allows_nil σ)
    have hbound : ∀ v, (m.lookup v).isSome ↔ ∃ p ∈ r.premises, v ∈ p.variableNames := by
      intro v
      rw [hn.bound m hm]
      simp [Atom.mem_variableNames]
    simp only [Option.bind_eq_bind, Option.bind_some, Option.bind_eq_some_iff, Option.pure_def, Option.some.injEq]
    constructor
    · rintro ⟨args, hargs, rfl⟩
      rw [mapM_eq_some] at hargs
      obtain ⟨σ, hσ⟩ := m.exists_allowed
      refine ⟨fun v hv => ?_, σ, (hallows σ).1 hσ, ?_⟩
      · obtain ⟨y, -, hy⟩ := exists_right_of_forall₂ hargs (Atom.mem_variableNames.1 hv)
        obtain ⟨n, hlook, -⟩ := Option.map_eq_some_iff.1 hy
        exact (hbound v).1 (by rw [hlook]; rfl)
      · have hmap : r.conclusion.args.map (Term.instantiate σ) = args := by
          rw [← List.forall₂_eq_eq_eq, List.forall₂_map_left_iff]
          exact hargs.imp fun _ _ h => fill_of_allows hσ h
        rw [Atom.instantiate, hmap]
    · rintro ⟨hcov, σ, hσ, rfl⟩
      refine ⟨_, mapM_eq_some.2 ?_, rfl⟩
      rw [List.forall₂_map_right_iff, List.forall₂_same]
      rintro x hx
      refine fill_eq_some ((hallows σ).2 hσ) ?_
      rintro v rfl
      exact (hbound v).2 (hcov v (Atom.mem_variableNames.2 hx))

/-! ## Coded and written rules -/

namespace Coded

structure Application.Reads (t : SymbolTable) (p : Application) (i : Inference) : Prop where
  conclusion : p.conclusion.Reads t [] i.conclusion
  premises : List.Forall₂ (Atom.Reads t []) p.premises i.premises
  rule : p.rule.Reads t i.rule

theorem Rule.Reads.conclude {t : SymbolTable} {c : Rule} {x : Entail.Rule} (h : c.Reads t x) (ht : t.Distinct)
    {facts : List Atom} {xs : List Entail.Atom} (hf : List.Forall₂ (Atom.Reads t []) facts xs) :
    Option.Rel (Application.Reads t) (c.apply facts).toOption ((x.conclude xs).map fun a => ⟨a, xs, x⟩) := by
  have hground : ∀ f ∈ facts, f.isGround := fun f hff => (exists_right_of_forall₂ hf hff).elim fun _ h => h.2.isGround
  have hground' : ∀ y ∈ xs, y.isGround := fun y hy => (exists_left_of_forall₂ hf hy).elim fun _ h => h.2.isGround_right
  have happly := fun p => Rule.apply_eq_ok_iff h.scoped hground (p := p)
  cases hx : x.conclude xs with
  | some a =>
    obtain ⟨hcov, σ, hσ, rfl⟩ := (Entail.Rule.conclude_eq_some_iff hground').1 hx
    have hps : List.Forall₂ (fun f p => f.Reads t [] (p.instantiate σ)) facts x.premises := by
      rwa [← List.forall₂_map_right_iff (f := Entail.Atom.instantiate σ), hσ]
    obtain ⟨c', hy, hc'⟩ := h.exists_yields ht hcov hps
    rw [(happly ⟨c', facts, c⟩).2 ⟨hy, rfl, rfl⟩]
    exact .some ⟨hc', hf, h⟩
  | none =>
    cases hc : c.apply facts with
    | error e => exact .none
    | ok p =>
      obtain ⟨hy, -, -⟩ := (happly p).1 hc
      obtain ⟨σ, hps, hconc⟩ := h.exists_instance
        (fun f hff => (exists_right_of_forall₂ hf hff).imp fun _ h => h.2) hy
      have hσ : x.premises.map (Entail.Atom.instantiate σ) = xs :=
        List.right_unique_forall₂' (fun _ _ _ h₁ h₂ => h₁.unique h₂) (List.forall₂_map_right_iff.2 hps) hf
      have hcov : x.Covered := by
        obtain ⟨τ, -, hin, -⟩ := hy
        exact h.covered_iff.2 hin
      rw [(Entail.Rule.conclude_eq_some_iff hground').2 ⟨hcov, σ, hσ, rfl⟩] at hx
      cases hx

end Coded

end Entail
