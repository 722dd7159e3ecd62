import Entail.Proofs.Unifiers

/-!
# Paths that are shortened on the way

Resolving a slot by the operations of the forest points numbers at their roots. No one can tell:

* `Forest.Twin f g` : `f` and `g` differ in their paths at most; operations on them have the same outcome and leave such
  forests (`Twin.find`, `Twin.bind`, `Twin.union`);
* `Bindings.Shortening` : resolving, substituting and unifying with the forest that each look at a slot leaves behind;
* `Bindings.shortening_after` : after any unifications the two ways give the same terms and the same outcomes.
-/

namespace Entail

/-! ## Forests that differ in their paths -/

namespace Forest

variable {α ε β : Type} {f g : Forest α} {i j k high low : Nat}

structure Twin (f g : Forest α) : Prop where
  left : Ranked f
  right : Ranked g
  unchanged : Unchanged f g

/-- Two operations have the same outcome, and leave forests that differ in their paths at most. -/
structure Agree (x y : Except ε β × Forest α) : Prop where
  outcome : y.1 = x.1
  twin : Twin x.2 y.2

namespace Twin

theorem refl (h : Ranked f) : Twin f f := ⟨h, h, .refl f⟩

theorem compress (h : Twin f g) (i j : Nat) : Twin (f.compress i) (g.compress j) := by
  refine ⟨h.left.compress i, h.right.compress j, ⟨?_, h.unchanged.rank, h.unchanged.label, fun k => ?_⟩⟩
  · rw [f.size_compress, g.size_compress, h.unchanged.size]
  · rw [h.left.root_compress, h.right.root_compress, h.unchanged.root]

theorem find (h : Twin f g) (i : Nat) : Agree (f.find i) (g.find i) := by
  by_cases hi : i < f.size
  · rw [find_of_lt hi, find_of_lt (h.unchanged.size.symm ▸ hi)]
    exact ⟨congrArg Except.ok (h.unchanged.root i), h.compress i i⟩
  · have hi := Nat.le_of_not_lt hi
    rw [find_of_le hi, find_of_le (h.unchanged.size.symm ▸ hi)]
    exact ⟨rfl, h⟩

theorem setLabel (h : Twin f g) (r : Nat) (v : Option α) :
    Twin { f with label := f.label.setIfInBounds r v } { g with label := g.label.setIfInBounds r v } where
  left := ⟨h.left.ranks, (Array.size_setIfInBounds).trans h.left.labels, h.left.up_lt, h.left.rank_lt⟩
  right := ⟨h.right.ranks, (Array.size_setIfInBounds).trans h.right.labels, h.right.up_lt, h.right.rank_lt⟩
  unchanged := ⟨h.unchanged.size, h.unchanged.rank, congrArg (·.setIfInBounds r v) h.unchanged.label, h.unchanged.root⟩

theorem bind (h : Twin f g) (i : Nat) (v : Option α) : Agree (f.bind i v) (g.bind i v) := by
  have hfind := h.find i
  unfold Forest.bind
  rcases hf : f.find i with ⟨e | r, f'⟩ <;> rcases hg : g.find i with ⟨e' | r', g'⟩ <;> rw [hf, hg] at hfind
  · obtain rfl : e' = e := Except.error.inj hfind.outcome
    exact ⟨rfl, hfind.twin⟩
  · cases hfind.outcome
  · cases hfind.outcome
  · obtain rfl : r' = r := Except.ok.inj hfind.outcome
    have hlabel : g'.labelOf r' = f'.labelOf r' := hfind.twin.unchanged.labelOf r'
    simp only [hlabel]
    cases f'.labelOf r' with
    | some w => exact ⟨rfl, hfind.twin⟩
    | none => exact ⟨rfl, hfind.twin.setLabel r' v⟩

theorem up_eq (h : Twin f g) (hk : f.up k = k) : g.up k = k := by
  have hroot : g.root k = k := (h.unchanged.root k).trans (h.left.root_of_up hk)
  have hup := h.right.up_root k
  rwa [hroot] at hup

theorem link (h : Twin f g) (hh : high < f.size) (hl : low < f.size) (hhigh : f.up high = high) (hlow : f.up low = low)
    (hne : high ≠ low) (hle : f.rankOf low ≤ f.rankOf high) (v : Option α) :
    Twin (f.link high low v) (g.link high low v) := by
  have hh' : high < g.size := h.unchanged.size.symm ▸ hh
  have hl' : low < g.size := h.unchanged.size.symm ▸ hl
  have hle' : g.rankOf low ≤ g.rankOf high := by rwa [h.unchanged.rankOf, h.unchanged.rankOf]
  refine ⟨h.left.link hh hl hhigh hne hle v, h.right.link hh' hl' (h.up_eq hhigh) hne hle' v, ⟨?_, ?_, ?_, fun k => ?_⟩⟩
  · rw [f.size_link, g.size_link, h.unchanged.size]
  · simp only [Forest.link, h.unchanged.rankOf, h.unchanged.rank]
  · simp only [Forest.link, h.unchanged.label]
  · rw [h.right.root_link hh' hl' (h.up_eq hhigh) (h.up_eq hlow) hne hle',
      h.left.root_link hh hl hhigh hlow hne hle, h.unchanged.root]

variable [DecidableEq α]

/-- Of two roots that are merged, both forests keep the same one. -/
theorem merge (h : Twin f g) (hi : i < f.size) (hj : j < f.size) (hri : f.up i = i) (hrj : f.up j = j) :
    Agree (f.merge i j) (g.merge i j) := by
  by_cases hij : i = j
  · simp only [Forest.merge, if_pos hij]
    exact ⟨rfl, h⟩
  have hlinked : ∀ v, (g.linkByRank i j v).1 = (f.linkByRank i j v).1 ∧
      Twin (f.linkByRank i j v).2 (g.linkByRank i j v).2 := by
    intro v
    simp only [linkByRank, h.unchanged.rankOf]
    split_ifs with hlt
    · exact ⟨rfl, h.link hj hi hrj hri (Ne.symm hij) (Nat.le_of_lt hlt) v⟩
    · exact ⟨rfl, h.link hi hj hri hrj hij (Nat.le_of_not_lt hlt) v⟩
  have hagree : ∀ v, Agree ((.ok (f.linkByRank i j v).1, (f.linkByRank i j v).2) : Except (ForestFault α) Nat × _)
      (.ok (g.linkByRank i j v).1, (g.linkByRank i j v).2) := fun v =>
    ⟨congrArg Except.ok (hlinked v).1, (hlinked v).2⟩
  simp only [Forest.merge, if_neg hij, h.unchanged.labelOf]
  split
  · split_ifs
    · exact hagree _
    · exact ⟨rfl, h⟩
  · exact hagree _

theorem union (h : Twin f g) (i j : Nat) : Agree (f.union i j) (g.union i j) := by
  by_cases hi : i < f.size
  · have hi' : i < g.size := h.unchanged.size.symm ▸ hi
    have hc := h.compress i i
    by_cases hj : j < f.size
    · have hjf : j < (f.compress i).size := (f.size_compress i).symm ▸ hj
      have hjg : j < (g.compress i).size := by rwa [g.size_compress, h.unchanged.size]
      have hcc := hc.compress j j
      have hfix : ∀ k, ((f.compress i).compress j).up (f.root k) = f.root k := by
        intro k
        have hup := hcc.left.up_root k
        rwa [(h.left.compress i).root_compress, h.left.root_compress] at hup
      have hlt : ∀ k < f.size, f.root k < ((f.compress i).compress j).size := fun k hk => by
        rw [size_compress, size_compress]
        exact h.left.root_lt hk
      simp only [Forest.union, find_of_lt hi, find_of_lt hi', find_of_lt hjf, find_of_lt hjg, h.left.root_compress,
        h.right.root_compress, h.unchanged.root]
      exact hcc.merge (hlt i hi) (hlt j hj) (hfix i) (hfix j)
    · have hjf : (f.compress i).size ≤ j := (f.size_compress i).symm ▸ Nat.le_of_not_lt hj
      have hjg : (g.compress i).size ≤ j := hc.unchanged.size.symm ▸ hjf
      simp only [Forest.union, find_of_lt hi, find_of_lt hi', find_of_le hjf, find_of_le hjg]
      exact ⟨rfl, hc⟩
  · have hi := Nat.le_of_not_lt hi
    simp only [Forest.union, find_of_le hi, find_of_le (h.unchanged.size.symm ▸ hi)]
    exact ⟨rfl, h⟩

end Twin

end Forest

/-! ## Unification -/

namespace Coded.Bindings

open Forest (Ranked Unchanged Twin Agree)

variable {θ θ' : Bindings}

namespace Shortening

/-- A term resolved by the operations of the forest. -/
def resolve (θ : Bindings) : Term → Except (ForestFault Symbol) Term × Bindings
  | .sym s => (.ok (.sym s), θ)
  | .slot i =>
    match θ.value i with
    | (.ok (some s), θ) => (.ok (.sym s), θ)
    | (.ok none, θ) =>
      match θ.find i with
      | (.ok r, θ) => (.ok (.slot r), θ)
      | (.error e, θ) => (.error e, θ)
    | (.error e, θ) => (.error e, θ)

def resolveAll (θ : Bindings) : List Term → Except (ForestFault Symbol) (List Term) × Bindings
  | [] => (.ok [], θ)
  | x :: xs =>
    match resolve θ x with
    | (.error e, θ) => (.error e, θ)
    | (.ok y, θ) =>
      match resolveAll θ xs with
      | (.error e, θ) => (.error e, θ)
      | (.ok ys, θ) => (.ok (y :: ys), θ)

def substitute (θ : Bindings) (a : Atom) : Except (ForestFault Symbol) Atom × Bindings :=
  match resolveAll θ a.args with
  | (.error e, θ) => (.error e, θ)
  | (.ok args, θ) => (.ok ⟨a.predicate, args⟩, θ)

def unifyTerms (θ : Bindings) (a b : Term) : Except UnifyFault Unit × Bindings :=
  match resolve θ a with
  | (.error e, θ) => (.error (.forest e), θ)
  | (.ok a, θ) =>
    match resolve θ b with
    | (.error e, θ) => (.error (.forest e), θ)
    | (.ok b, θ) => θ.unifyResolved a b

def unifyArgs (θ : Bindings) : List Term → List Term → Except UnifyFault Unit × Bindings
  | a :: as, b :: bs =>
    match unifyTerms θ a b with
    | (.ok (), θ) => unifyArgs θ as bs
    | failed => failed
  | _, _ => (.ok (), θ)

def unify (θ : Bindings) (a b : Atom) : Except UnifyFault Unit × Bindings :=
  if a.predicate = b.predicate ∧ a.arity = b.arity then unifyArgs θ a.args b.args
  else (.error (.shape a.predicate a.arity b.predicate b.arity), θ)

def unifyAll (θ : Bindings) (pairs : List (Atom × Atom)) : Bindings :=
  pairs.foldl (fun θ p => (unify θ p.1 p.2).2) θ

end Shortening

/-- A look at a slot finds what it is bound to, and shortens paths at most. -/
theorem shortening_resolve (h : Ranked θ) (x : Term) :
    (Shortening.resolve θ x).1 = θ.resolve x ∧ Twin θ (Shortening.resolve θ x).2 := by
  cases x with
  | sym s => exact ⟨rfl, .refl h⟩
  | slot i =>
    by_cases hi : i < θ.size
    · have hi' : i < (θ.compress i).size := (θ.size_compress i).symm ▸ hi
      have hc : Twin θ (θ.compress i) := ⟨h, h.compress i, h.unchanged_compress i⟩
      rw [Shortening.resolve, Forest.value_of_lt hi, resolve_slot hi]
      cases θ.labelAt i with
      | some s => exact ⟨rfl, hc⟩
      | none =>
        have hcc := (h.compress i).unchanged_compress i
        simp only [Forest.find_of_lt hi', h.root_compress, true_and]
        exact ⟨h, (h.compress i).compress i, hc.unchanged.trans hcc⟩
    · rw [Shortening.resolve, Forest.value_of_le (Nat.le_of_not_lt hi), resolve, if_neg hi]
      exact ⟨rfl, .refl h⟩

/-- Where only paths differ, a look finds the same. -/
theorem resolve_twin (h : Twin θ θ') (x : Term) :
    (Shortening.resolve θ' x).1 = θ.resolve x ∧ Twin θ (Shortening.resolve θ' x).2 := by
  obtain ⟨hx, ht⟩ := shortening_resolve h.right x
  exact ⟨hx.trans (resolve_of_unchanged h.unchanged x), h.left, ht.right, h.unchanged.trans ht.unchanged⟩

theorem resolveAll_twin (h : Twin θ θ') (xs : List Term) :
    (Shortening.resolveAll θ' xs).1 = xs.mapM θ.resolve ∧ Twin θ (Shortening.resolveAll θ' xs).2 := by
  induction xs generalizing θ' with
  | nil => exact ⟨rfl, h⟩
  | cons x xs ih =>
    obtain ⟨hx, ht⟩ := resolve_twin h x
    rw [Shortening.resolveAll, List.mapM_cons, ← hx]
    rcases hr : Shortening.resolve θ' x with ⟨e | y, θ₁⟩ <;> rw [hr] at ht
    · exact ⟨rfl, ht⟩
    · obtain ⟨hxs, hts⟩ := ih ht
      simp only
      rw [← hxs]
      rcases hrs : Shortening.resolveAll θ₁ xs with ⟨e | ys, θ₂⟩ <;> rw [hrs] at hts <;> exact ⟨rfl, hts⟩

theorem substitute_twin (h : Twin θ θ') (a : Atom) : (Shortening.substitute θ' a).1 = θ.substitute a := by
  obtain ⟨hargs, -⟩ := resolveAll_twin h a.args
  rw [Shortening.substitute, substitute, ← hargs]
  rcases Shortening.resolveAll θ' a.args with ⟨e | ys, θ₁⟩ <;> rfl

theorem agree_lift {β : Type} {r r' : Except (ForestFault Symbol) β × Bindings} (h : Agree r r') :
    Agree (lift r) (lift r') := by
  obtain ⟨x, f⟩ := r
  obtain ⟨x', f'⟩ := r'
  obtain rfl : x' = x := h.outcome
  cases x' <;> exact ⟨rfl, h.twin⟩

theorem unifyResolved_twin (h : Twin θ θ') (x y : Term) : Agree (θ.unifyResolved x y) (θ'.unifyResolved x y) := by
  cases x with
  | sym s =>
    cases y with
    | sym t =>
      simp only [unifyResolved]
      split_ifs <;> exact ⟨rfl, h⟩
    | slot j => exact agree_lift (h.bind j _)
  | slot i =>
    cases y with
    | sym t => exact agree_lift (h.bind i _)
    | slot j =>
      simp only [unifyResolved]
      split_ifs
      · exact ⟨rfl, h⟩
      · exact agree_lift (h.union i j)

theorem unifyTerms_twin (h : Twin θ θ') (x y : Term) : Agree (θ.unifyTerms x y) (Shortening.unifyTerms θ' x y) := by
  obtain ⟨hx, ht⟩ := resolve_twin h x
  rw [Shortening.unifyTerms, unifyTerms, ← hx]
  rcases hr : Shortening.resolve θ' x with ⟨e | x', θ₁⟩ <;> rw [hr] at ht
  · exact ⟨rfl, ht⟩
  · obtain ⟨hy, hu⟩ := resolve_twin ht y
    rw [← hy]
    simp only
    rcases hs : Shortening.resolve θ₁ y with ⟨e | y', θ₂⟩ <;> rw [hs] at hu
    · exact ⟨rfl, hu⟩
    · exact unifyResolved_twin hu x' y'

theorem unifyArgs_twin (h : Twin θ θ') (xs ys : List Term) :
    Agree (θ.unifyArgs xs ys) (Shortening.unifyArgs θ' xs ys) := by
  induction xs generalizing θ θ' ys with
  | nil => exact ⟨rfl, h⟩
  | cons x xs ih =>
    obtain _ | ⟨y, ys⟩ := ys
    · exact ⟨rfl, h⟩
    have hterms := unifyTerms_twin h x y
    rw [unifyArgs, Shortening.unifyArgs]
    rcases hr : θ.unifyTerms x y with ⟨e | u, θ₁⟩ <;> rcases hs : Shortening.unifyTerms θ' x y with ⟨e' | u', θ₂⟩ <;>
      rw [hr, hs] at hterms
    · exact ⟨hterms.outcome, hterms.twin⟩
    · cases hterms.outcome
    · cases hterms.outcome
    · exact ih hterms.twin ys

theorem unify_twin (h : Twin θ θ') (a b : Atom) : Agree (θ.unify a b) (Shortening.unify θ' a b) := by
  unfold unify Shortening.unify
  split_ifs
  · exact unifyArgs_twin h _ _
  · exact ⟨rfl, h⟩

theorem unifyAll_twin (h : Twin θ θ') (pairs : List (Atom × Atom)) :
    Twin (θ.unifyAll pairs) (Shortening.unifyAll θ' pairs) := by
  induction pairs generalizing θ θ' with
  | nil => exact h
  | cons p pairs ih => exact ih (unify_twin h p.1 p.2).twin

/-- Whatever was unified before, looks that shorten paths give the same terms and the same outcomes as looks that leave
the forest as it is. -/
theorem shortening_after (n : Nat) (pairs : List (Atom × Atom)) (a b : Atom) :
    (Shortening.substitute (Shortening.unifyAll (.singletons n) pairs) a).1 =
      (unifyAll (.singletons n) pairs).substitute a ∧
    Agree ((unifyAll (.singletons n) pairs).unify a b)
      (Shortening.unify (Shortening.unifyAll (.singletons n) pairs) a b) := by
  have h := unifyAll_twin (.refl (Forest.ranked_singletons n)) pairs
  exact ⟨substitute_twin h a, unify_twin h a b⟩

end Coded.Bindings

end Entail
