import Entail.Coded.Unify
import Entail.Proofs.Coding
import Entail.Proofs.Forest.Partition

/-!
# Most general unifiers

* `Bindings.Admits θ σ` : the choice of symbols `σ` is a solution of the bindings: slots of one class get the same
  symbol, and that of the class's label;
* `Bindings.complete` : every choice of symbols for the classes without label gives a solution; so a slot is bound as
  far as all solutions agree (`labelAt_eq_some_iff`), and an atom resolves to one with the instances that solutions give
  (`substitute_outcome`);
* `Bindings.Narrowed θ θ' P` : the solutions of `θ'` are those of `θ` of which `P` is so (`Narrowed.trans`);
* `unifyTerms_outcome`, `unifyArgs_outcome` : either the solutions that make both sides equal are left, or there is
  none, and left are those that make the arguments before the clash equal;
* `Bindings.Unifies` : the same of two atoms, with shapes that differ refused at once; so it is after every sequence of
  unifications (`unifies_after`).
-/

namespace Entail.Coded

open Forest (Ranked Unchanged Merges Marks)

/-! ## Instances -/

/-- An instance tells what the slots are given, and depends on nothing else. -/
theorem Atom.instantiate_eq_iff {p : Atom} {σ τ : Nat → Symbol} :
    p.instantiate σ = p.instantiate τ ↔ ∀ i, .slot i ∈ p.args → σ i = τ i := by
  simp only [Atom.instantiate, Atom.mk.injEq, true_and, List.map_inj_left]
  constructor
  · intro h i hi
    exact Term.sym.inj (h _ hi)
  · intro h x hx
    cases x with
    | sym s => rfl
    | slot i => exact congrArg Term.sym (h i hx)

theorem exists_symbol_ne (s : Symbol) : ∃ t : Symbol, t ≠ s :=
  ⟨⟨s.owner + 1, 0⟩, fun h => Nat.succ_ne_self _ (congrArg Symbol.owner h)⟩

theorem Term.eq_of_instantiate {x y : Term} (h : ∀ σ, x.instantiate σ = y.instantiate σ) : x = y := by
  cases x with
  | sym s =>
    cases y with
    | sym t => exact h fun _ => s
    | slot j =>
      obtain ⟨t, hne⟩ := exists_symbol_ne s
      exact absurd (Term.sym.inj (h fun _ => t)).symm hne
  | slot i =>
    cases y with
    | sym t =>
      obtain ⟨s, hne⟩ := exists_symbol_ne t
      exact absurd (Term.sym.inj (h fun _ => s)) hne
    | slot j =>
      have hij := Term.sym.inj (h fun k => ⟨0, k⟩)
      rw [(Symbol.mk.inj hij).2]

theorem Atom.eq_of_instantiate {a b : Atom} (h : ∀ σ, a.instantiate σ = b.instantiate σ) : a = b := by
  have hargs : ∀ σ, a.args.map (Term.instantiate σ) = b.args.map (Term.instantiate σ) :=
    fun σ => congrArg Atom.args (h σ)
  have hlen : a.args.length = b.args.length := by simpa using congrArg List.length (hargs fun _ => ⟨0, 0⟩)
  have heq : a.args = b.args := by
    refine List.ext_getElem hlen fun i ha hb => Term.eq_of_instantiate fun σ => ?_
    have hi := congrArg (·[i]?) (hargs σ)
    simpa [ha, hb] using hi
  have hpred := congrArg Atom.predicate (h fun _ => ⟨0, 0⟩)
  cases a
  cases b
  exact (Atom.mk.injEq ..).mpr ⟨hpred, heq⟩

def Atom.SameShape (a b : Atom) : Prop := a.predicate = b.predicate ∧ a.arity = b.arity

theorem Atom.SameShape.instantiate_eq_iff {a b : Atom} (h : a.SameShape b) (σ : Nat → Symbol) :
    a.instantiate σ = b.instantiate σ ↔ a.args.map (Term.instantiate σ) = b.args.map (Term.instantiate σ) := by
  simp [Atom.instantiate, h.1]

namespace Bindings

variable {θ θ' θ'' : Bindings} {σ : Nat → Symbol} {x y z : Term} {i j r : Nat} {s : Symbol}

/-! ## Solutions -/

/-- The choice of symbols is the same for the slots of a class, and gives those of a labelled class its label. -/
structure Admits (θ : Bindings) (σ : Nat → Symbol) : Prop where
  classes : ∀ i < θ.size, ∀ j < θ.size, θ.root i = θ.root j → σ i = σ j
  labels : ∀ i < θ.size, ∀ s, θ.labelAt i = some s → σ i = s

/-- All slots of the term are slots of the bindings. -/
def Covers (θ : Bindings) (x : Term) : Prop := ∀ i, x = .slot i → i < θ.size

theorem resolve_slot (hi : i < θ.size) :
    θ.resolve (.slot i) = .ok (match θ.labelAt i with | some s => .sym s | none => .slot (θ.root i)) := by
  rw [resolve, if_pos hi, ← Forest.labelAt]
  cases θ.labelAt i <;> rfl

/-- Shortening paths, and whatever else keeps classes and labels, changes nothing for `resolve`. -/
theorem resolve_of_unchanged (h : Unchanged θ θ') (x : Term) : θ'.resolve x = θ.resolve x := by
  cases x with
  | sym s => rfl
  | slot i => rw [resolve, resolve, h.size, h.root, Forest.labelOf, h.label, ← Forest.labelOf]

/-- What a term resolves to: a symbol, or the root of a class without label. -/
inductive Resolved (θ : Bindings) : Term → Term → Prop
  | sym (s : Symbol) : Resolved θ (.sym s) (.sym s)
  | bound {i : Nat} {s : Symbol} (hi : i < θ.size) (hl : θ.labelAt i = some s) : Resolved θ (.slot i) (.sym s)
  | free {i : Nat} (hi : i < θ.size) (hl : θ.labelAt i = none) : Resolved θ (.slot i) (.slot (θ.root i))

theorem exists_resolved (h : θ.Covers x) : ∃ y, θ.resolve x = .ok y ∧ Resolved θ x y := by
  cases x with
  | sym s => exact ⟨.sym s, rfl, .sym s⟩
  | slot i =>
    have hi := h i rfl
    rw [resolve_slot hi]
    cases hl : θ.labelAt i with
    | some s => exact ⟨.sym s, rfl, .bound hi hl⟩
    | none => exact ⟨.slot (θ.root i), rfl, .free hi hl⟩

/-- A solution does not tell a term from what it resolves to. -/
theorem Admits.instantiate_eq (hσ : θ.Admits σ) (h : Ranked θ) (hx : Resolved θ x y) :
    y.instantiate σ = x.instantiate σ := by
  cases hx with
  | sym s => rfl
  | bound hi hl => exact congrArg Term.sym (hσ.labels _ hi _ hl).symm
  | free hi hl => exact congrArg Term.sym (hσ.classes _ (h.root_lt hi) _ hi (h.root_root _))

/-- The solution that gives classes without label the symbols chosen for their roots. -/
def complete (θ : Bindings) (σ : Nat → Symbol) (i : Nat) : Symbol := (θ.labelAt i).getD (σ (θ.root i))

theorem admits_complete (θ : Bindings) (σ : Nat → Symbol) : θ.Admits (θ.complete σ) := by
  refine ⟨fun i _ j _ hij => ?_, fun i _ s hs => ?_⟩
  · unfold complete Forest.labelAt
    rw [hij]
  · unfold complete
    rw [hs]
    rfl

theorem Resolved.instantiate_complete (hx : Resolved θ x y) (σ : Nat → Symbol) :
    x.instantiate (θ.complete σ) = y.instantiate σ := by
  cases hx with
  | sym s => rfl
  | bound hi hl =>
    show Term.sym (Option.getD _ _) = _
    rw [hl]
    rfl
  | free hi hl =>
    show Term.sym (Option.getD _ _) = _
    rw [hl]
    rfl

/-- A solution is the one that it gives rise to. -/
theorem Admits.complete_eq (hσ : θ.Admits σ) (h : Ranked θ) (hi : i < θ.size) : θ.complete σ i = σ i := by
  unfold complete
  cases hl : θ.labelAt i with
  | some s => exact (hσ.labels i hi s hl).symm
  | none => exact hσ.classes _ (h.root_lt hi) i hi (h.root_root i)

/-- A slot is bound to a symbol if all solutions give it that. -/
theorem labelAt_eq_some_iff (hi : i < θ.size) : θ.labelAt i = some s ↔ ∀ σ, θ.Admits σ → σ i = s := by
  constructor
  · intro hl σ hσ
    exact hσ.labels i hi s hl
  · intro h
    cases hl : θ.labelAt i with
    | some t =>
      have hs := h _ (admits_complete θ fun _ => s)
      rw [complete, hl] at hs
      exact congrArg some hs
    | none =>
      -- the slot may be given any symbol
      obtain ⟨t, hne⟩ := exists_symbol_ne s
      have hs := h _ (admits_complete θ fun _ => t)
      rw [complete, hl] at hs
      exact absurd hs hne

theorem admits_singletons (n : Nat) (σ : Nat → Symbol) : Admits (.singletons n) σ := by
  refine ⟨fun i _ j _ hij => ?_, fun i _ s hs => ?_⟩
  · rw [Forest.root_singletons, Forest.root_singletons] at hij
    rw [hij]
  · rw [Forest.labelAt_singletons] at hs
    cases hs

/-- An atom under bindings is ground if all its slots are bound, and its instances are the atom's by solutions. -/
theorem substitute_outcome {a : Atom} (ha : ∀ x ∈ a.args, θ.Covers x) :
    ∃ b, θ.substitute a = .ok b ∧ (b.isGround ↔ ∀ i, .slot i ∈ a.args → (θ.labelAt i).isSome) ∧
      ∀ σ, b.instantiate σ = a.instantiate (θ.complete σ) := by
  obtain ⟨ys, hys⟩ := exists_forall₂ fun x hx => exists_resolved (ha x hx)
  refine ⟨⟨a.predicate, ys⟩, ?_, ?_, fun σ => ?_⟩
  · rw [substitute, mapM_eq_ok (hys.imp fun _ _ h => h.1)]
    rfl
  · rw [Atom.isGround_iff]
    constructor
    · intro hg i hi
      obtain ⟨y, hy, -, hres⟩ := exists_right_of_forall₂ hys hi
      cases hres with
      | bound _ hl => rw [hl]; rfl
      | free _ _ => exact absurd hy (hg _)
    · intro hall i hi
      obtain ⟨x, hx, -, hres⟩ := exists_left_of_forall₂ hys hi
      cases hres with
      | free _ hl =>
        have hsome := hall _ hx
        rw [hl] at hsome
        cases hsome
  · have hargs : List.Forall₂ (fun x y => x.instantiate (θ.complete σ) = y.instantiate σ) a.args ys :=
      hys.imp fun _ _ hxy => hxy.2.instantiate_complete σ
    rw [Atom.instantiate, Atom.instantiate, Atom.mk.injEq, eq_comm (a := ys.map _), ← List.forall₂_eq_eq_eq,
      List.forall₂_map_left_iff, List.forall₂_map_right_iff]
    exact ⟨rfl, hargs⟩

/-! ## Narrowing -/

/-- Of the solutions those are left of which `holds` is so. -/
structure Narrowed (θ θ' : Bindings) (holds : (Nat → Symbol) → Prop) : Prop where
  ranked : Ranked θ'
  size : θ'.size = θ.size
  admits : ∀ σ, θ'.Admits σ ↔ θ.Admits σ ∧ holds σ

theorem Narrowed.refl (h : Ranked θ) {P : (Nat → Symbol) → Prop} (hp : ∀ σ, θ.Admits σ → P σ) : Narrowed θ θ P :=
  ⟨h, rfl, fun σ => ⟨fun hσ => ⟨hσ, hp σ hσ⟩, And.left⟩⟩

theorem Narrowed.trans {P Q R : (Nat → Symbol) → Prop} (h₁ : Narrowed θ θ' P) (h₂ : Narrowed θ' θ'' Q)
    (hR : ∀ σ, R σ ↔ P σ ∧ Q σ) : Narrowed θ θ'' R where
  ranked := h₂.ranked
  size := h₂.size.trans h₁.size
  admits σ := by rw [h₂.admits, h₁.admits, hR, and_assoc]

theorem Narrowed.congr {P Q : (Nat → Symbol) → Prop} (h : Narrowed θ θ' P) (hQ : ∀ σ, θ.Admits σ → (Q σ ↔ P σ)) :
    Narrowed θ θ' Q where
  ranked := h.ranked
  size := h.size
  admits σ := by rw [h.admits, and_congr_right (hQ σ)]

theorem Narrowed.covers {P : (Nat → Symbol) → Prop} (h : Narrowed θ θ' P) (hx : θ.Covers x) : θ'.Covers x :=
  fun i hi => h.size.symm ▸ hx i hi

/-- Labelling a class leaves the solutions that choose its label. -/
theorem narrowed_marks (hm : Marks θ θ' i s) (hg : Ranked θ') (hi : i < θ.size) (hl : θ.labelAt i = none) :
    Narrowed θ θ' (fun σ => σ i = s) := by
  refine ⟨hg, hm.size, fun σ => ?_⟩
  constructor
  · intro hσ
    refine ⟨⟨fun a ha b hb hab => ?_, fun a ha t ht => ?_⟩, ?_⟩
    · exact hσ.classes a (hm.size.symm ▸ ha) b (hm.size.symm ▸ hb) (by rw [hm.root, hm.root, hab])
    · refine hσ.labels a (hm.size.symm ▸ ha) t ?_
      rw [hm.label, if_neg, ht]
      intro hai
      rw [Forest.labelAt, hai, ← Forest.labelAt, hl] at ht
      cases ht
    · exact hσ.labels i (hm.size.symm ▸ hi) s (by rw [hm.label, if_pos rfl])
  · rintro ⟨hσ, his⟩
    refine ⟨fun a ha b hb hab => ?_, fun a ha t ht => ?_⟩
    · rw [hm.root, hm.root] at hab
      exact hσ.classes a (hm.size ▸ ha) b (hm.size ▸ hb) hab
    · rw [hm.label] at ht
      split_ifs at ht with hai
      · rw [hσ.classes a (hm.size ▸ ha) i hi hai, his]
        exact Option.some.inj ht
      · exact hσ.labels a (hm.size ▸ ha) t ht

/-- Merging two classes without labels leaves the solutions that choose one symbol for both. -/
theorem narrowed_merges (hm : Merges θ θ' i j r) (hg : Ranked θ') (hi : i < θ.size) (hj : j < θ.size)
    (hli : θ.labelAt i = none) (hlj : θ.labelAt j = none) : Narrowed θ θ' (fun σ => σ i = σ j) := by
  -- neither class has a label, so no label changes
  have hlabel : ∀ k, θ'.labelAt k = θ.labelAt k := by
    intro k
    rw [hm.label]
    split_ifs with hk
    · rw [hli, hlj]
      obtain hk | hk := hk
      · rw [Forest.labelAt, hk, ← Forest.labelAt, hli]
        rfl
      · rw [Forest.labelAt, hk, ← Forest.labelAt, hlj]
        rfl
    · rfl
  refine ⟨hg, hm.size, fun σ => ?_⟩
  constructor
  · intro hσ
    refine ⟨⟨fun a ha b hb hab => ?_, fun a ha t ht => ?_⟩, ?_⟩
    · exact hσ.classes a (hm.size.symm ▸ ha) b (hm.size.symm ▸ hb) ((hm.root_eq_iff a b).2 (.inl hab))
    · exact hσ.labels a (hm.size.symm ▸ ha) t ((hlabel a).trans ht)
    · have hij : θ'.root i = θ'.root j := (hm.root_eq_iff i j).2 (.inr ⟨.inl rfl, .inr rfl⟩)
      exact hσ.classes i (hm.size.symm ▸ hi) j (hm.size.symm ▸ hj) hij
  · rintro ⟨hσ, hij⟩
    have heither : ∀ c < θ.size, θ.root c = θ.root i ∨ θ.root c = θ.root j → σ c = σ i := by
      rintro c hc (hci | hcj)
      · exact hσ.classes c hc i hi hci
      · exact (hσ.classes c hc j hj hcj).trans hij.symm
    refine ⟨fun a ha b hb hab => ?_, fun a ha t ht => ?_⟩
    · rw [hm.size] at ha hb
      obtain hab | ⟨ha', hb'⟩ := (hm.root_eq_iff a b).1 hab
      · exact hσ.classes a ha b hb hab
      · exact (heither a ha ha').trans (heither b hb hb').symm
    · exact hσ.labels a (hm.size ▸ ha) t ((hlabel a).symm.trans ht)

/-! ## Two terms -/

theorem unifyResolved_of_eq (x : Term) : θ.unifyResolved x x = (.ok (), θ) := by
  cases x with
  | sym s => exact if_pos rfl
  | slot i => exact if_pos rfl

theorem bind_free (h : Ranked θ) (hi : i < θ.size) (hl : θ.labelAt i = none) (s : Symbol) :
    ∃ θ', lift (θ.bind i (some s)) = (.ok (), θ') ∧ Narrowed θ θ' (fun σ => σ i = s) := by
  obtain ⟨hs, -⟩ | ⟨-, θ', hb, hg, hm⟩ := h.bind_outcome hi s
  · rw [hl] at hs
    cases hs
  · exact ⟨θ', by rw [hb, lift], narrowed_marks hm hg hi hl⟩

theorem union_free (h : Ranked θ) (hi : i < θ.size) (hj : j < θ.size) (hli : θ.labelAt i = none)
    (hlj : θ.labelAt j = none) :
    ∃ θ', lift (θ.union i j) = (.ok (), θ') ∧ Narrowed θ θ' (fun σ => σ i = σ j) := by
  obtain ⟨-, r, θ', hu, hg, hm⟩ | ⟨a, b, g, -, ha, -⟩ := h.union_outcome hi hj
  · exact ⟨θ', by rw [hu, lift], narrowed_merges hm hg hi hj hli hlj⟩
  · rw [hli] at ha
    cases ha

/-- Two terms are made equal, or two different symbols meet, which no solution makes equal. -/
theorem unifyTerms_outcome (h : Ranked θ) (hx : θ.Covers x) (hy : θ.Covers y) :
    (∃ θ', θ.unifyTerms x y = (.ok (), θ') ∧ Narrowed θ θ' fun σ => x.instantiate σ = y.instantiate σ) ∨
      ∃ s t, s ≠ t ∧ θ.unifyTerms x y = (.error (.clash s t), θ) ∧
        ∀ σ, θ.Admits σ → x.instantiate σ = .sym s ∧ y.instantiate σ = .sym t := by
  obtain ⟨x', hx', hxr⟩ := exists_resolved hx
  obtain ⟨y', hy', hyr⟩ := exists_resolved hy
  have hunify : θ.unifyTerms x y = θ.unifyResolved x' y' := by rw [unifyTerms, hx', hy']
  have hinst : ∀ σ, θ.Admits σ →
      (x.instantiate σ = y.instantiate σ ↔ x'.instantiate σ = y'.instantiate σ) := by
    intro σ hσ
    rw [hσ.instantiate_eq h hxr, hσ.instantiate_eq h hyr]
  have hroot : ∀ {z k}, Resolved θ z (.slot k) → k < θ.size ∧ θ.labelAt k = none := by
    intro z k hz
    cases hz with
    | free hi hl => exact ⟨h.root_lt hi, by rw [Forest.labelAt, h.root_root, ← Forest.labelAt, hl]⟩
  rw [hunify]
  by_cases heq : x' = y'
  · subst heq
    refine .inl ⟨θ, unifyResolved_of_eq x', .refl h fun σ hσ => ?_⟩
    rw [hinst σ hσ]
  · cases x' with
    | slot i =>
      obtain ⟨hi, hli⟩ := hroot hxr
      cases y' with
      | slot j =>
        obtain ⟨hj, hlj⟩ := hroot hyr
        have hij : i ≠ j := fun hij => heq (by rw [hij])
        obtain ⟨θ', hu, hn⟩ := union_free h hi hj hli hlj
        refine .inl ⟨θ', by rw [unifyResolved, if_neg hij, hu], hn.congr fun σ hσ => (hinst σ hσ).trans ?_⟩
        exact Term.sym.injEq _ _ ▸ Iff.rfl
      | sym t =>
        obtain ⟨θ', hb, hn⟩ := bind_free h hi hli t
        refine .inl ⟨θ', hb, hn.congr fun σ hσ => (hinst σ hσ).trans ?_⟩
        exact Term.sym.injEq _ _ ▸ Iff.rfl
    | sym s =>
      cases y' with
      | slot j =>
        obtain ⟨hj, hlj⟩ := hroot hyr
        obtain ⟨θ', hb, hn⟩ := bind_free h hj hlj s
        refine .inl ⟨θ', hb, hn.congr fun σ hσ => (hinst σ hσ).trans ?_⟩
        exact Term.sym.injEq _ _ ▸ eq_comm
      | sym t =>
        have hst : s ≠ t := fun hst => heq (by rw [hst])
        refine .inr ⟨s, t, hst, by rw [unifyResolved, if_neg hst], fun σ hσ => ⟨?_, ?_⟩⟩
        · exact (hσ.instantiate_eq h hxr).symm
        · exact (hσ.instantiate_eq h hyr).symm

/-! ## Two atoms -/

/-- Arguments are made equal from the left, up to the first two that no solution left over makes equal. -/
theorem unifyArgs_outcome (h : Ranked θ) (xs ys : List Term) (hlen : xs.length = ys.length)
    (hxs : ∀ x ∈ xs, θ.Covers x) (hys : ∀ y ∈ ys, θ.Covers y) :
    (∃ θ', θ.unifyArgs xs ys = (.ok (), θ') ∧
        Narrowed θ θ' fun σ => xs.map (Term.instantiate σ) = ys.map (Term.instantiate σ)) ∨
      ∃ k s t θ', s ≠ t ∧ θ.unifyArgs xs ys = (.error (.clash s t), θ') ∧
        Narrowed θ θ' (fun σ => (xs.take k).map (Term.instantiate σ) = (ys.take k).map (Term.instantiate σ)) ∧
        ∀ σ, θ'.Admits σ → (xs[k]?).map (Term.instantiate σ) = some (.sym s) ∧
          (ys[k]?).map (Term.instantiate σ) = some (.sym t) := by
  induction xs generalizing θ ys with
  | nil =>
    obtain rfl := List.length_eq_zero_iff.1 hlen.symm
    exact .inl ⟨θ, rfl, .refl h fun _ _ => rfl⟩
  | cons x xs ih =>
    obtain _ | ⟨y, ys⟩ := ys
    · cases hlen
    obtain ⟨θ₁, h₁, hn₁⟩ | ⟨s, t, hst, h₁, hclash⟩ :=
      unifyTerms_outcome h (hxs x List.mem_cons_self) (hys y List.mem_cons_self)
    · have hlen' : xs.length = ys.length := by simpa using hlen
      have hxs' : ∀ x ∈ xs, θ₁.Covers x := fun x hx => hn₁.covers (hxs x (List.mem_cons_of_mem _ hx))
      have hys' : ∀ y ∈ ys, θ₁.Covers y := fun y hy => hn₁.covers (hys y (List.mem_cons_of_mem _ hy))
      obtain ⟨θ₂, h₂, hn₂⟩ | ⟨k, s, t, θ₂, hst, h₂, hn₂, hclash⟩ := ih hn₁.ranked ys hlen' hxs' hys'
      · exact .inl ⟨θ₂, by simp only [unifyArgs, h₁, h₂], hn₁.trans hn₂ (by simp)⟩
      · refine .inr ⟨k + 1, s, t, θ₂, hst, by simp only [unifyArgs, h₁, h₂], hn₁.trans hn₂ (by simp), ?_⟩
        simpa using hclash
    · refine .inr ⟨0, s, t, θ, hst, by simp only [unifyArgs, h₁], .refl h fun _ _ => rfl, fun σ hσ => ?_⟩
      simpa using hclash σ hσ

/-- Shapes that differ are refused; else the solutions that make the atoms equal are left, or there is none and those are
left that make the arguments before the clash equal. -/
theorem unify_outcome (h : Ranked θ) {a b : Atom} (ha : ∀ x ∈ a.args, θ.Covers x) (hb : ∀ y ∈ b.args, θ.Covers y) :
    (¬a.SameShape b ∧ θ.unify a b = (.error (.shape a.predicate a.arity b.predicate b.arity), θ)) ∨
    (a.SameShape b ∧ ∃ θ', θ.unify a b = (.ok (), θ') ∧
      Narrowed θ θ' fun σ => a.instantiate σ = b.instantiate σ) ∨
    (a.SameShape b ∧ (∀ σ, θ.Admits σ → a.instantiate σ ≠ b.instantiate σ) ∧
      ∃ k s t θ', s ≠ t ∧ θ.unify a b = (.error (.clash s t), θ') ∧
        Narrowed θ θ' (fun σ =>
          (a.args.take k).map (Term.instantiate σ) = (b.args.take k).map (Term.instantiate σ)) ∧
        ∀ σ, θ'.Admits σ → (a.args[k]?).map (Term.instantiate σ) = some (.sym s) ∧
          (b.args[k]?).map (Term.instantiate σ) = some (.sym t)) := by
  by_cases hs : a.SameShape b
  · have hunify : θ.unify a b = θ.unifyArgs a.args b.args := if_pos hs
    rw [hunify]
    obtain ⟨θ', hu, hn⟩ | ⟨k, s, t, θ', hst, hu, hn, hclash⟩ := unifyArgs_outcome h a.args b.args hs.2 ha hb
    · exact .inr (.inl ⟨hs, θ', hu, hn.congr fun σ _ => hs.instantiate_eq_iff σ⟩)
    · refine .inr (.inr ⟨hs, fun σ hσ hab => ?_, k, s, t, θ', hst, hu, hn, hclash⟩)
      -- a solution of the atoms would be one of what is left, which tells the arguments that clash apart
      have hargs := (hs.instantiate_eq_iff σ).1 hab
      obtain ⟨hak, hbk⟩ := hclash σ ((hn.admits σ).2 ⟨hσ, by rw [List.map_take, List.map_take, hargs]⟩)
      rw [← List.getElem?_map, hargs, List.getElem?_map, hbk] at hak
      exact hst (Term.sym.inj (Option.some.inj hak)).symm
  · exact .inl ⟨hs, if_neg hs⟩

/-- Atoms that all solutions make equal resolve to the same. -/
theorem substitute_congr {a b : Atom} (ha : ∀ x ∈ a.args, θ.Covers x) (hb : ∀ y ∈ b.args, θ.Covers y)
    (h : ∀ σ, θ.Admits σ → a.instantiate σ = b.instantiate σ) :
    ∃ c, θ.substitute a = .ok c ∧ θ.substitute b = .ok c := by
  obtain ⟨c, hc, -, hac⟩ := substitute_outcome ha
  obtain ⟨d, hd, -, hbd⟩ := substitute_outcome hb
  have hcd : c = d := Atom.eq_of_instantiate fun σ =>
    calc c.instantiate σ = a.instantiate (θ.complete σ) := hac σ
      _ = b.instantiate (θ.complete σ) := h _ (admits_complete θ σ)
      _ = d.instantiate σ := (hbd σ).symm
  exact ⟨c, hc, hcd ▸ hd⟩

/-- What becomes of the solutions of bindings when two atoms are unified. Shapes that differ are refused and change
nothing. Else the solutions that make the atoms equal are left, and under what is left the atoms resolve to the same; or
no solution makes them equal, then some argument is another symbol on the left than on the right, and the solutions that
make the arguments before it equal are left. -/
structure Unifies (θ : Bindings) (a b : Atom) : Prop where
  shape_iff : (∃ p m q n, (θ.unify a b).1 = .error (.shape p m q n)) ↔ ¬a.SameShape b
  shape_unchanged : ¬a.SameShape b → (θ.unify a b).2 = θ
  unified : a.SameShape b → (∃ σ, θ.Admits σ ∧ a.instantiate σ = b.instantiate σ) →
    ∃ θ', θ.unify a b = (.ok (), θ') ∧ (∀ σ, θ'.Admits σ ↔ θ.Admits σ ∧ a.instantiate σ = b.instantiate σ) ∧
      ∃ c, θ'.substitute a = .ok c ∧ θ'.substitute b = .ok c
  clash : a.SameShape b → (¬∃ σ, θ.Admits σ ∧ a.instantiate σ = b.instantiate σ) →
    ∃ k s t θ', s ≠ t ∧ θ.unify a b = (.error (.clash s t), θ') ∧
      (∀ σ, θ'.Admits σ ↔ θ.Admits σ ∧
        (a.args.take k).map (Term.instantiate σ) = (b.args.take k).map (Term.instantiate σ)) ∧
      ∀ σ, θ'.Admits σ → (a.args[k]?).map (Term.instantiate σ) = some (.sym s) ∧
        (b.args[k]?).map (Term.instantiate σ) = some (.sym t)
  no_forest_fault : ∀ e, (θ.unify a b).1 ≠ .error (.forest e)

theorem unifies_of_ranked (h : Ranked θ) {a b : Atom} (ha : ∀ x ∈ a.args, θ.Covers x)
    (hb : ∀ y ∈ b.args, θ.Covers y) : Unifies θ a b := by
  obtain ⟨hs, hu⟩ | ⟨hs, θ', hu, hn⟩ | ⟨hs, hno, k, s, t, θ', hst, hu, hn, hclash⟩ := unify_outcome h ha hb
  · refine { shape_iff := ?_, shape_unchanged := fun _ => by rw [hu], unified := fun hs' => absurd hs' hs,
             clash := fun hs' => absurd hs' hs, no_forest_fault := by simp [hu] }
    rw [hu]
    exact iff_of_true ⟨_, _, _, _, rfl⟩ hs
  · refine { shape_iff := ?_, shape_unchanged := fun hns => absurd hs hns,
             unified := fun _ _ => ⟨θ', hu, hn.admits, ?_⟩, clash := fun _ hno => absurd ?_ hno,
             no_forest_fault := by simp [hu] }
    · rw [hu]
      exact iff_of_false (by simp) fun hns => hns hs
    · exact substitute_congr (fun x hx => hn.covers (ha x hx)) (fun y hy => hn.covers (hb y hy))
        fun σ hσ => ((hn.admits σ).1 hσ).2
    · exact ⟨_, (hn.admits _).1 (admits_complete θ' fun _ => ⟨0, 0⟩)⟩
  · have hnone : ¬∃ σ, θ.Admits σ ∧ a.instantiate σ = b.instantiate σ := by
      rintro ⟨σ, hσ, hab⟩
      exact hno σ hσ hab
    refine { shape_iff := ?_, shape_unchanged := fun hns => absurd hs hns, unified := fun _ hex => absurd hex hnone,
             clash := fun _ _ => ⟨k, s, t, θ', hst, hu, hn.admits, hclash⟩, no_forest_fault := by simp [hu] }
    rw [hu]
    exact iff_of_false (by simp) fun hns => hns hs

/-! ## Unifications one after the other -/

def unifyAll (θ : Bindings) (pairs : List (Atom × Atom)) : Bindings :=
  pairs.foldl (fun θ p => (θ.unify p.1 p.2).2) θ

theorem lift_snd {β : Type} (r : Except (ForestFault Symbol) β × Bindings) : (lift r).2 = r.2 := by
  obtain ⟨_ | _, _⟩ := r <;> rfl

theorem ranked_unifyResolved (h : Ranked θ) (x y : Term) :
    Ranked (θ.unifyResolved x y).2 ∧ (θ.unifyResolved x y).2.size = θ.size := by
  have hbind : ∀ i s, Ranked (lift (θ.bind i (some s))).2 ∧ (lift (θ.bind i (some s))).2.size = θ.size := by
    intro i s
    rw [lift_snd]
    obtain ⟨e, g, hb, hg, hu⟩ | ⟨-, g, hb, hg, hm⟩ := h.bind_cases i s
    · exact hb ▸ ⟨hg, hu.size⟩
    · exact hb ▸ ⟨hg, hm.size⟩
  cases x with
  | sym s =>
    cases y with
    | sym t =>
      rw [unifyResolved]
      split_ifs <;> exact ⟨h, rfl⟩
    | slot j => exact hbind j s
  | slot i =>
    cases y with
    | sym t => exact hbind i t
    | slot j =>
      rw [unifyResolved]
      split_ifs
      · exact ⟨h, rfl⟩
      · rw [lift_snd]
        obtain ⟨e, g, hb, hg, hu⟩ | ⟨-, r, g, hb, hg, hm⟩ := h.union_cases i j
        · exact hb ▸ ⟨hg, hu.size⟩
        · exact hb ▸ ⟨hg, hm.size⟩

theorem ranked_unifyArgs (h : Ranked θ) (xs ys : List Term) :
    Ranked (θ.unifyArgs xs ys).2 ∧ (θ.unifyArgs xs ys).2.size = θ.size := by
  induction xs generalizing θ ys with
  | nil => exact ⟨h, rfl⟩
  | cons x xs ih =>
    obtain _ | ⟨y, ys⟩ := ys
    · exact ⟨h, rfl⟩
    have hterms : Ranked (θ.unifyTerms x y).2 ∧ (θ.unifyTerms x y).2.size = θ.size := by
      unfold unifyTerms
      split
      · exact ranked_unifyResolved h _ _
      · exact ⟨h, rfl⟩
      · exact ⟨h, rfl⟩
    rw [unifyArgs]
    split
    · next θ₁ h₁ =>
      rw [h₁] at hterms
      obtain ⟨hg, hsize⟩ := ih hterms.1 ys
      exact ⟨hg, hsize.trans hterms.2⟩
    · exact hterms

theorem ranked_unifyAll (h : Ranked θ) (pairs : List (Atom × Atom)) :
    Ranked (θ.unifyAll pairs) ∧ (θ.unifyAll pairs).size = θ.size := by
  induction pairs generalizing θ with
  | nil => exact ⟨h, rfl⟩
  | cons p pairs ih =>
    have hunify : Ranked (θ.unify p.1 p.2).2 ∧ (θ.unify p.1 p.2).2.size = θ.size := by
      unfold unify
      split_ifs
      · exact ranked_unifyArgs h _ _
      · exact ⟨h, rfl⟩
    obtain ⟨hg, hsize⟩ := ih hunify.1
    exact ⟨hg, hsize.trans hunify.2⟩

/-- Whatever was unified before, two atoms over the slots are unified most generally. -/
theorem unifies_after (n : Nat) (pairs : List (Atom × Atom)) (a b : Atom) (ha : ∀ i, .slot i ∈ a.args → i < n)
    (hb : ∀ i, .slot i ∈ b.args → i < n) : Unifies (unifyAll (.singletons n) pairs) a b := by
  obtain ⟨hr, hsize⟩ := ranked_unifyAll (Forest.ranked_singletons n) pairs
  have hn : (unifyAll (.singletons n) pairs).size = n := hsize.trans Array.size_range
  refine unifies_of_ranked hr (fun x hx i hi => ?_) fun y hy i hi => ?_
  · exact hn.symm ▸ ha i (hi ▸ hx)
  · exact hn.symm ▸ hb i (hi ▸ hy)

/-- Three slots in one class, by two unifications of which the second fails at its last argument, and then a symbol. -/
theorem unifies_chain :
    (∀ i, .slot i ∈ (⟨⟨1, 0⟩, [.slot 0, .sym ⟨1, 1⟩]⟩ : Atom).args → i < 3) ∧
    (∀ i, .slot i ∈ (⟨⟨1, 0⟩, [.slot 2, .slot 1]⟩ : Atom).args → i < 3) ∧
    Unifies
      (unifyAll (.singletons 3)
        [(⟨⟨1, 0⟩, [.slot 0, .slot 1]⟩, ⟨⟨1, 0⟩, [.slot 1, .slot 2]⟩),
          (⟨⟨1, 0⟩, [.slot 2, .sym ⟨1, 1⟩]⟩, ⟨⟨1, 0⟩, [.slot 0, .sym ⟨1, 2⟩]⟩)])
      ⟨⟨1, 0⟩, [.slot 0, .sym ⟨1, 1⟩]⟩ ⟨⟨1, 0⟩, [.slot 2, .slot 1]⟩ := by
  have ha : ∀ i, .slot i ∈ (⟨⟨1, 0⟩, [.slot 0, .sym ⟨1, 1⟩]⟩ : Atom).args → i < 3 := by simp
  have hb : ∀ i, .slot i ∈ (⟨⟨1, 0⟩, [.slot 2, .slot 1]⟩ : Atom).args → i < 3 := by simp
  exact ⟨ha, hb, unifies_after 3 _ _ _ ha hb⟩

end Bindings

end Entail.Coded
