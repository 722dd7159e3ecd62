import Entail.Proofs.Forest.Paths
import Mathlib.Logic.Relation

/-!
# Forests as labelled partitions

* `Unchanged f g` : `g` differs from `f` in its paths at most; so it is after `find`, `value` and every operation that
  fails;
* `Marks`, `Merges`, `Ranked.bind_outcome`, `Ranked.union_outcome` : what labelling a class and merging two does;
* `Step`, `after` : a history of operations from the forest of singletons; `Joined`, `Bound` : which numbers were united
  and which labels were given in it, where it succeeded;
* `Tracks` : two numbers have the same root if unions connect them, and the label of a class is the one given to one of
  its numbers. Every step keeps it (`Tracks.perform`), so it is so after every history (`tracks_after`);
* `Partition` : the same as answers of the operations (`partition_after`).
-/

namespace Entail

inductive Forest.Step (α : Type) where
  | find (i : Nat)
  | value (i : Nat)
  | bind (i : Nat) (v : α)
  | union (i j : Nat)

namespace Forest

variable {α : Type} {f g : Forest α} {i j k n r : Nat} {v : α}

/-! ## Labels of classes -/

def labelAt (f : Forest α) (i : Nat) : Option α := f.labelOf (f.root i)

theorem labelAt_singletons (n i : Nat) : (singletons n : Forest α).labelAt i = none := by
  rw [labelAt, labelOf, singletons, Array.getElem?_replicate]
  split_ifs <;> rfl

/-- Classes, roots, ranks and labels are the same. -/
structure Unchanged (f g : Forest α) : Prop where
  size : g.size = f.size
  rank : g.rank = f.rank
  label : g.label = f.label
  root : ∀ i, g.root i = f.root i

theorem Unchanged.refl (f : Forest α) : Unchanged f f := ⟨rfl, rfl, rfl, fun _ => rfl⟩

theorem Unchanged.trans {h : Forest α} (h₁ : Unchanged f g) (h₂ : Unchanged g h) : Unchanged f h :=
  ⟨h₂.size.trans h₁.size, h₂.rank.trans h₁.rank, h₂.label.trans h₁.label, fun i => (h₂.root i).trans (h₁.root i)⟩

theorem Unchanged.rankOf (h : Unchanged f g) (i : Nat) : g.rankOf i = f.rankOf i := by
  rw [Forest.rankOf, h.rank, Forest.rankOf]

theorem Unchanged.labelOf (h : Unchanged f g) (i : Nat) : g.labelOf i = f.labelOf i := by
  rw [Forest.labelOf, h.label, Forest.labelOf]

theorem Unchanged.labelAt (h : Unchanged f g) (i : Nat) : g.labelAt i = f.labelAt i := by
  rw [Forest.labelAt, h.root, h.labelOf, Forest.labelAt]

theorem Ranked.unchanged_compress (h : Ranked f) (i : Nat) : Unchanged f (f.compress i) :=
  ⟨f.size_compress i, rfl, rfl, h.root_compress i⟩

/-! ## Finding -/

theorem find_of_lt (hi : i < f.size) : f.find i = (.ok (f.root i), f.compress i) := if_pos hi

theorem find_of_le (hi : f.size ≤ i) : f.find i = (.error .outOfRange, f) := if_neg (Nat.not_lt.2 hi)

theorem value_of_lt (hi : i < f.size) : f.value i = (.ok (f.labelAt i), f.compress i) := by
  rw [value, find_of_lt hi]
  rfl

theorem value_of_le (hi : f.size ≤ i) : f.value i = (.error .outOfRange, f) := by
  rw [value, find_of_le hi]

theorem Ranked.find (h : Ranked f) (i : Nat) : Ranked (f.find i).2 ∧ Unchanged f (f.find i).2 := by
  by_cases hi : i < f.size
  · rw [find_of_lt hi]
    exact ⟨h.compress i, h.unchanged_compress i⟩
  · rw [find_of_le (Nat.le_of_not_lt hi)]
    exact ⟨h, .refl f⟩

theorem Ranked.value (h : Ranked f) (i : Nat) : Ranked (f.value i).2 ∧ Unchanged f (f.value i).2 := by
  by_cases hi : i < f.size
  · rw [value_of_lt hi]
    exact ⟨h.compress i, h.unchanged_compress i⟩
  · rw [value_of_le (Nat.le_of_not_lt hi)]
    exact ⟨h, .refl f⟩

/-! ## Labelling a class -/

/-- The class of a number, which had no label, gets one. -/
structure Marks (f g : Forest α) (i : Nat) (v : α) : Prop where
  size : g.size = f.size
  rank : g.rank = f.rank
  root : ∀ k, g.root k = f.root k
  label : ∀ k, g.labelAt k = if f.root k = f.root i then some v else f.labelAt k

/-- A class is labelled exactly if it has no label. -/
theorem Ranked.bind_outcome (h : Ranked f) (hi : i < f.size) (v : α) :
    ((f.labelAt i).isSome ∧ f.bind i (some v) = (.error (.labelled i), f.compress i)) ∨
      (f.labelAt i = none ∧ ∃ g, f.bind i (some v) = (.ok (), g) ∧ Ranked g ∧ Marks f g i v) := by
  cases hl : f.labelAt i with
  | some w =>
    refine .inl ⟨rfl, ?_⟩
    have hl' : (f.compress i).labelOf (f.root i) = some w := hl
    simp only [bind, find_of_lt hi, hl']
  | none =>
    have hl' : (f.compress i).labelOf (f.root i) = none := hl
    have hc := h.compress i
    have hsize : f.root i < f.label.size := h.labels ▸ h.root_lt hi
    refine .inr ⟨rfl, { f.compress i with label := f.label.setIfInBounds (f.root i) (some v) }, ?_, ?_, ?_⟩
    · simp only [bind, find_of_lt hi, hl']
      rfl
    · exact ⟨hc.ranks, (Array.size_setIfInBounds).trans hc.labels, hc.up_lt, hc.rank_lt⟩
    · refine ⟨f.size_compress i, rfl, h.root_compress i, fun k => ?_⟩
      show ((f.label.setIfInBounds (f.root i) (some v))[(f.compress i).root k]?).join = _
      rw [h.root_compress, Array.getElem?_setIfInBounds, if_pos hsize]
      by_cases hk : f.root i = f.root k
      · rw [if_pos hk, if_pos hk.symm]
        rfl
      · rw [if_neg hk, if_neg (Ne.symm hk)]
        rfl

theorem Ranked.bind_cases (h : Ranked f) (i : Nat) (v : α) :
    (∃ e g, f.bind i (some v) = (.error e, g) ∧ Ranked g ∧ Unchanged f g) ∨
      (f.labelAt i = none ∧ ∃ g, f.bind i (some v) = (.ok (), g) ∧ Ranked g ∧ Marks f g i v) := by
  by_cases hi : i < f.size
  · obtain ⟨-, hb⟩ | hb := h.bind_outcome hi v
    · exact .inl ⟨_, _, hb, h.compress i, h.unchanged_compress i⟩
    · exact .inr hb
  · have hb : f.bind i (some v) = (.error .outOfRange, f) := by rw [bind, find_of_le (Nat.le_of_not_lt hi)]
    exact .inl ⟨_, _, hb, h, .refl f⟩

/-! ## Merging two classes -/

/-- The classes of two numbers become one with a root of theirs and with the label that there is. -/
structure Merges (f g : Forest α) (i j r : Nat) : Prop where
  size : g.size = f.size
  top : r = f.root i ∨ r = f.root j
  root : ∀ k, g.root k = if f.root k = f.root i ∨ f.root k = f.root j then r else f.root k
  label : ∀ k, g.labelAt k =
    if f.root k = f.root i ∨ f.root k = f.root j then (f.labelAt i <|> f.labelAt j) else f.labelAt k

/-- A class is merged with itself by leaving it as it is. -/
theorem merges_self (f : Forest α) (i : Nat) : Merges f f i i (f.root i) := by
  refine ⟨rfl, .inl rfl, fun k => ?_, fun k => ?_⟩
  · split_ifs with hk
    · exact hk.elim id id
    · rfl
  · split_ifs with hk
    · rw [labelAt, hk.elim id id, ← labelAt]
      cases f.labelAt i <;> rfl
    · rfl

/-- Numbers have the same root afterwards if they had it before or are in the classes that are merged. -/
theorem Merges.root_eq_iff (h : Merges f g i j r) (a b : Nat) :
    g.root a = g.root b ↔ f.root a = f.root b ∨
      ((f.root a = f.root i ∨ f.root a = f.root j) ∧ (f.root b = f.root i ∨ f.root b = f.root j)) := by
  have htop := h.top
  rw [h.root, h.root]
  split_ifs with ha hb hb
  · exact iff_of_true rfl (.inr ⟨ha, hb⟩)
  · refine iff_of_false (fun heq => hb ?_) ?_
    · exact htop.imp (heq ▸ ·) (heq ▸ ·)
    · rintro (heq | ⟨-, hb'⟩)
      · exact hb (heq ▸ ha)
      · exact hb hb'
  · refine iff_of_false (fun heq => ha ?_) ?_
    · exact htop.imp (heq ▸ ·) (heq ▸ ·)
    · rintro (heq | ⟨ha', -⟩)
      · exact ha (heq ▸ hb)
      · exact ha ha'
  · exact ⟨.inl, fun heq => heq.resolve_right fun hab => ha hab.1⟩

theorem Merges.of_unchanged {f' : Forest α} (h : Merges f g i j r) (hu : Unchanged f' f) : Merges f' g i j r where
  size := h.size.trans hu.size
  top := by simpa only [hu.root] using h.top
  root k := by simpa only [hu.root] using h.root k
  label k := by simpa only [hu.root, hu.labelAt] using h.label k

/-- Putting one of two roots under the other merges their classes. -/
theorem Ranked.merges_link (h : Ranked f) {high low : Nat} (hh : high < f.size) (hl : low < f.size)
    (hhigh : f.up high = high) (hlow : f.up low = low) (hne : high ≠ low) (hle : f.rankOf low ≤ f.rankOf high)
    (hij : (high = i ∧ low = j) ∨ (high = j ∧ low = i)) :
    Ranked (f.link high low (f.labelOf i <|> f.labelOf j)) ∧
      Merges f (f.link high low (f.labelOf i <|> f.labelOf j)) i j high := by
  have hroots : f.root i = i ∧ f.root j = j := by
    obtain ⟨rfl, rfl⟩ | ⟨rfl, rfl⟩ := hij
    · exact ⟨h.root_of_up hhigh, h.root_of_up hlow⟩
    · exact ⟨h.root_of_up hlow, h.root_of_up hhigh⟩
  have hmem : ∀ k, (f.root k = i ∨ f.root k = j) ↔ f.root k = low ∨ f.root k = high := by
    obtain ⟨rfl, rfl⟩ | ⟨rfl, rfl⟩ := hij
    · exact fun k => or_comm
    · exact fun k => Iff.rfl
  refine ⟨h.link hh hl hhigh hne hle _, f.size_link _ _ _, ?_, fun k => ?_, fun k => ?_⟩
  · rw [hroots.1, hroots.2]
    exact hij.imp And.left And.left
  · rw [h.root_link hh hl hhigh hlow hne hle, hroots.1, hroots.2]
    simp only [hmem]
    by_cases hk : f.root k = low
    · rw [if_pos hk, if_pos (.inl hk)]
    · by_cases hk' : f.root k = high
      · rw [if_neg hk, if_pos (.inr hk'), hk']
      · rw [if_neg hk, if_neg (by simp [hk, hk'])]
  · rw [labelAt, h.root_link hh hl hhigh hlow hne hle, h.labelOf_link hh, labelAt, labelAt, hroots.1, hroots.2]
    simp only [hmem]
    by_cases hk : f.root k = low
    · rw [if_pos hk, if_pos rfl, if_pos (.inl hk)]
    · by_cases hk' : f.root k = high
      · rw [if_neg hk, if_pos hk'.symm, if_pos (.inr hk')]
      · rw [if_neg hk, if_neg (Ne.symm hk'), if_neg (by simp [hk, hk'])]
        rfl

section
variable [DecidableEq α]

theorem merge_of_agree (hne : i ≠ j) (hag : ∀ a b, f.labelOf i = some a → f.labelOf j = some b → a = b) :
    f.merge i j = (.ok (f.linkByRank i j (f.labelOf i <|> f.labelOf j)).1,
      (f.linkByRank i j (f.labelOf i <|> f.labelOf j)).2) := by
  rw [merge, if_neg hne]
  cases ha : f.labelOf i with
  | none => cases hb : f.labelOf j <;> rfl
  | some a =>
    cases hb : f.labelOf j with
    | none => rfl
    | some b => exact if_pos (hag a b ha hb)

/-- Merging two roots, unless their labels differ. -/
theorem Ranked.merge_outcome (h : Ranked f) (hi : i < f.size) (hj : j < f.size) (hri : f.up i = i) (hrj : f.up j = j) :
    ((∀ a b, f.labelOf i = some a → f.labelOf j = some b → a = b) ∧
        ∃ r g, f.merge i j = (.ok r, g) ∧ Ranked g ∧ Merges f g i j r) ∨
      ∃ a b, i ≠ j ∧ f.labelOf i = some a ∧ f.labelOf j = some b ∧ a ≠ b ∧ f.merge i j = (.error (.conflict a b), f) := by
  by_cases hij : i = j
  · subst hij
    have hm := merges_self f i
    rw [h.root_of_up hri] at hm
    exact .inl ⟨fun a b ha hb => Option.some.inj (ha.symm.trans hb), i, f, if_pos rfl, h, hm⟩
  · by_cases hag : ∀ a b, f.labelOf i = some a → f.labelOf j = some b → a = b
    · refine .inl ⟨hag, ?_⟩
      rw [merge_of_agree hij hag, linkByRank]
      split_ifs with hlt
      · obtain ⟨hr, hm⟩ := h.merges_link hj hi hrj hri (Ne.symm hij) (Nat.le_of_lt hlt) (.inr ⟨rfl, rfl⟩)
        exact ⟨j, _, rfl, hr, hm⟩
      · obtain ⟨hr, hm⟩ := h.merges_link hi hj hri hrj hij (Nat.le_of_not_lt hlt) (.inl ⟨rfl, rfl⟩)
        exact ⟨i, _, rfl, hr, hm⟩
    · push Not at hag
      obtain ⟨a, b, ha, hb, hab⟩ := hag
      refine .inr ⟨a, b, hij, ha, hb, hab, ?_⟩
      rw [merge, if_neg hij, ha, hb]
      exact if_neg hab

/-- Two classes are merged exactly if they are one or their labels do not differ. -/
theorem Ranked.union_outcome (h : Ranked f) (hi : i < f.size) (hj : j < f.size) :
    ((∀ a b, f.labelAt i = some a → f.labelAt j = some b → a = b) ∧
        ∃ r g, f.union i j = (.ok r, g) ∧ Ranked g ∧ Merges f g i j r) ∨
      ∃ a b g, f.root i ≠ f.root j ∧ f.labelAt i = some a ∧ f.labelAt j = some b ∧ a ≠ b ∧
        f.union i j = (.error (.conflict a b), g) ∧ Unchanged f g ∧ Ranked g := by
  have hci := h.unchanged_compress i
  have hcj := (h.compress i).unchanged_compress j
  have hu := hci.trans hcj
  have hr := (h.compress i).compress j
  have hj' : j < (f.compress i).size := hci.size.symm ▸ hj
  have hunion : f.union i j = ((f.compress i).compress j).merge (f.root i) (f.root j) := by
    simp only [union, find_of_lt hi, find_of_lt hj', hci.root]
  have hfix : ∀ k, ((f.compress i).compress j).up (f.root k) = f.root k := by
    intro k
    have := hr.up_root k
    rwa [hu.root] at this
  have hlt : ∀ k < f.size, f.root k < ((f.compress i).compress j).size := fun k hk => hu.size.symm ▸ h.root_lt hk
  rw [hunion]
  obtain ⟨hag, r, g, hm, hg, hmerges⟩ | ⟨a, b, hne, ha, hb, hab, hm⟩ :=
    hr.merge_outcome (hlt i hi) (hlt j hj) (hfix i) (hfix j)
  · simp only [hu.labelOf] at hag
    refine .inl ⟨hag, r, g, hm, hg, ?_⟩
    have := hmerges.of_unchanged hu
    refine ⟨this.size, ?_, fun k => ?_, fun k => ?_⟩
    · simpa only [h.root_root] using this.top
    · simpa only [h.root_root] using this.root k
    · simpa only [h.root_root, labelAt] using this.label k
  · rw [hu.labelOf] at ha hb
    exact .inr ⟨a, b, _, hne, ha, hb, hab, hm, hu, hr⟩

theorem Ranked.union_cases (h : Ranked f) (i j : Nat) :
    (∃ e g, f.union i j = (.error e, g) ∧ Ranked g ∧ Unchanged f g) ∨
      ((∀ a b, f.labelAt i = some a → f.labelAt j = some b → a = b) ∧
        ∃ r g, f.union i j = (.ok r, g) ∧ Ranked g ∧ Merges f g i j r) := by
  by_cases hi : i < f.size
  · by_cases hj : j < f.size
    · obtain hu | ⟨a, b, g, -, -, -, -, hu, hg, hr⟩ := h.union_outcome hi hj
      · exact .inr hu
      · exact .inl ⟨_, g, hu, hr, hg⟩
    · have hj : (f.compress i).size ≤ j := (f.size_compress i).symm ▸ Nat.le_of_not_lt hj
      have hu : f.union i j = (.error .outOfRange, f.compress i) := by
        simp only [union, find_of_lt hi, find_of_le hj]
      exact .inl ⟨_, _, hu, h.compress i, h.unchanged_compress i⟩
  · have hu : f.union i j = (.error .outOfRange, f) := by rw [union, find_of_le (Nat.le_of_not_lt hi)]
    exact .inl ⟨_, _, hu, h, .refl f⟩

end

/-! ## Connected numbers -/

section
variable {joined joined' : Nat → Nat → Prop} {bound bound' : Nat → α → Prop}

/-- What unions and labels say of a forest: two numbers have the same root if they are connected, and the label of a
class is one that was given to a number of it. -/
structure Tracks (f : Forest α) (n : Nat) (joined : Nat → Nat → Prop) (bound : Nat → α → Prop) : Prop where
  ranked : Ranked f
  size : f.size = n
  root : ∀ i j, f.root i = f.root j ↔ Relation.EqvGen joined i j
  label : ∀ i v, f.labelAt i = some v ↔ ∃ k, Relation.EqvGen joined i k ∧ bound k v

theorem Tracks.congr (h : Tracks f n joined bound) (hj : ∀ a b, joined' a b ↔ joined a b)
    (hb : ∀ k w, bound' k w ↔ bound k w) : Tracks f n joined' bound' := by
  obtain rfl : joined' = joined := funext₂ fun a b => propext (hj a b)
  obtain rfl : bound' = bound := funext₂ fun k w => propext (hb k w)
  exact h

theorem tracks_singletons (n : Nat) : Tracks (singletons n : Forest α) n (fun _ _ => False) (fun _ _ => False) := by
  refine ⟨ranked_singletons n, by simp [size, singletons], fun i j => ?_, fun i v => ?_⟩
  · rw [root_singletons, root_singletons]
    constructor
    · rintro rfl
      exact .refl i
    · intro h
      induction h with
      | rel _ _ h => exact h.elim
      | refl => rfl
      | symm _ _ _ ih => exact ih.symm
      | trans _ _ _ _ _ ih₁ ih₂ => exact ih₁.trans ih₂
  · simp [labelAt_singletons]

theorem Tracks.unchanged (h : Tracks f n joined bound) (hu : Unchanged f g) (hg : Ranked g) :
    Tracks g n joined bound where
  ranked := hg
  size := hu.size.trans h.size
  root i j := by rw [hu.root, hu.root, h.root]
  label i v := by rw [hu.labelAt, h.label]

theorem Tracks.marks (h : Tracks f n joined bound) (hm : Marks f g i v) (hg : Ranked g) (hl : f.labelAt i = none) :
    Tracks g n joined fun k w => bound k w ∨ (k = i ∧ w = v) where
  ranked := hg
  size := hm.size.trans h.size
  root a b := by rw [hm.root, hm.root, h.root]
  label a w := by
    -- no label was given to the class before
    have hfree : ∀ k u, bound k u → ¬Relation.EqvGen joined i k := by
      intro k u hb hik
      rw [(h.label i u).2 ⟨k, hik, hb⟩] at hl
      cases hl
    rw [hm.label]
    split_ifs with ha
    · constructor
      · intro hw
        exact ⟨i, (h.root a i).1 ha, .inr ⟨rfl, (Option.some.inj hw).symm⟩⟩
      · rintro ⟨k, hak, hb | ⟨-, rfl⟩⟩
        · exact absurd ((h.root i k).1 (ha.symm.trans ((h.root a k).2 hak))) (hfree k w hb)
        · rfl
    · rw [h.label]
      constructor
      · rintro ⟨k, hak, hb⟩
        exact ⟨k, hak, .inl hb⟩
      · rintro ⟨k, hak, hb | ⟨rfl, -⟩⟩
        · exact ⟨k, hak, hb⟩
        · exact absurd ((h.root a k).2 hak) ha

theorem Tracks.merges (h : Tracks f n joined bound) (hm : Merges f g i j r) (hg : Ranked g)
    (hag : ∀ a b, f.labelAt i = some a → f.labelAt j = some b → a = b) :
    Tracks g n (fun a b => joined a b ∨ (a = i ∧ b = j)) bound := by
  have hmono : ∀ {a b}, f.root a = f.root b → Relation.EqvGen (fun a b => joined a b ∨ (a = i ∧ b = j)) a b :=
    fun hab => ((h.root _ _).1 hab).mono fun _ _ => .inl
  have hroot : ∀ a b, g.root a = g.root b ↔ Relation.EqvGen (fun a b => joined a b ∨ (a = i ∧ b = j)) a b := by
    intro a b
    rw [hm.root_eq_iff]
    constructor
    · have hi : ∀ {a}, f.root a = f.root i ∨ f.root a = f.root j →
          Relation.EqvGen (fun a b => joined a b ∨ (a = i ∧ b = j)) a i := by
        rintro a (ha | ha)
        · exact hmono ha
        · exact (hmono ha).trans _ _ _ (.symm _ _ (.rel _ _ (.inr ⟨rfl, rfl⟩)))
      rintro (hab | ⟨ha, hb⟩)
      · exact hmono hab
      · exact (hi ha).trans _ _ _ ((hi hb).symm _ _)
    · rw [← hm.root_eq_iff]
      intro hab
      induction hab with
      | rel a b hab =>
        rw [hm.root_eq_iff]
        obtain hab | ⟨rfl, rfl⟩ := hab
        · exact .inl ((h.root a b).2 (.rel _ _ hab))
        · exact .inr ⟨.inl rfl, .inr rfl⟩
      | refl => rfl
      | symm _ _ _ ih => exact ih.symm
      | trans _ _ _ _ _ ih₁ ih₂ => exact ih₁.trans ih₂
  have hor : ∀ w, (f.labelAt i <|> f.labelAt j) = some w ↔ f.labelAt i = some w ∨ f.labelAt j = some w := by
    intro w
    cases hi : f.labelAt i with
    | none => simp
    | some u =>
      refine ⟨fun hw => .inl hw, fun hw => hw.elim id fun hj => ?_⟩
      rw [hag u w hi hj]
      rfl
  refine ⟨hg, hm.size.trans h.size, hroot, fun a w => ?_⟩
  simp only [← hroot, hm.root_eq_iff, hm.label]
  by_cases ha : f.root a = f.root i ∨ f.root a = f.root j
  · rw [if_pos ha]
    simp only [hor, h.label, ← h.root]
    constructor
    · rintro (⟨k, hk, hb⟩ | ⟨k, hk, hb⟩)
      · exact ⟨k, .inr ⟨ha, .inl hk.symm⟩, hb⟩
      · exact ⟨k, .inr ⟨ha, .inr hk.symm⟩, hb⟩
    · rintro ⟨k, hk, hb⟩
      have hk : f.root k = f.root i ∨ f.root k = f.root j := hk.elim (fun hak => hak ▸ ha) And.right
      exact hk.imp (fun hk => ⟨k, hk.symm, hb⟩) fun hk => ⟨k, hk.symm, hb⟩
  · simp only [ha, false_and, or_false]
    simp only [h.root]
    exact h.label a w

end

/-! ## Histories -/

section
variable [DecidableEq α] {joined : Nat → Nat → Prop} {bound : Nat → α → Prop}

def perform (f : Forest α) : Step α → Forest α
  | .find i => (f.find i).2
  | .value i => (f.value i).2
  | .bind i v => (f.bind i (some v)).2
  | .union i j => (f.union i j).2

/-- The forest after a history of steps, those that fail included. -/
def after (n : Nat) (steps : List (Step α)) : Forest α := steps.foldl perform (singletons n)

theorem after_concat (n : Nat) (steps : List (Step α)) (s : Step α) :
    after n (steps ++ [s]) = (after n steps).perform s := by
  rw [after, List.foldl_append]
  rfl

/-- Some step of the history was as `P` says of it and of the forest that it was made on. -/
def Happened (n : Nat) (steps : List (Step α)) (P : Forest α → Step α → Prop) : Prop :=
  ∃ before s later, steps = before ++ s :: later ∧ P (after n before) s

theorem happened_concat {steps : List (Step α)} {s : Step α} {P : Forest α → Step α → Prop} :
    Happened n (steps ++ [s]) P ↔ Happened n steps P ∨ P (after n steps) s := by
  constructor
  · rintro ⟨before, t, later, heq, ht⟩
    rcases List.eq_nil_or_concat later with rfl | ⟨later, u, rfl⟩
    · obtain ⟨rfl, hst⟩ := List.append_inj' heq rfl
      rw [List.cons.inj hst |>.1]
      exact .inr ht
    · rw [List.concat_eq_append, ← List.cons_append, ← List.append_assoc] at heq
      exact .inl ⟨before, t, later, (List.append_inj' heq rfl).1, ht⟩
  · rintro (⟨before, t, later, rfl, ht⟩ | hs)
    · exact ⟨before, t, later ++ [s], by simp, ht⟩
    · exact ⟨steps, s, [], rfl, hs⟩

def Joined (n : Nat) (steps : List (Step α)) (i j : Nat) : Prop :=
  Happened n steps fun f s => s = .union i j ∧ ∃ r, (f.union i j).1 = .ok r

def Bound (n : Nat) (steps : List (Step α)) (i : Nat) (v : α) : Prop :=
  Happened n steps fun f s => s = .bind i v ∧ (f.bind i (some v)).1 = .ok ()

/-- Unions that succeeded lead from one number to the other. -/
def Connected (n : Nat) (steps : List (Step α)) : Nat → Nat → Prop := Relation.EqvGen (Joined n steps)

/-- Every step keeps what unions and labels say of the forest. -/
theorem Tracks.perform (h : Tracks f n joined bound) (s : Step α) :
    Tracks (f.perform s) n (fun a b => joined a b ∨ (s = .union a b ∧ ∃ r, (f.union a b).1 = .ok r))
      fun k w => bound k w ∨ (s = .bind k w ∧ (f.bind k (some w)).1 = .ok ()) := by
  have hr := h.ranked
  cases s with
  | find i =>
    obtain ⟨hg, hu⟩ := hr.find i
    exact (h.unchanged hu hg).congr (by simp) (by simp)
  | value i =>
    obtain ⟨hg, hu⟩ := hr.value i
    exact (h.unchanged hu hg).congr (by simp) (by simp)
  | bind i v =>
    show Tracks (f.bind i (some v)).2 n _ _
    obtain ⟨e, g, hb, hg, hu⟩ | ⟨hl, g, hb, hg, hm⟩ := hr.bind_cases i v
    · rw [hb]
      refine (h.unchanged hu hg).congr (by simp) fun k w => or_iff_left ?_
      rintro ⟨hs, hok⟩
      obtain ⟨rfl, rfl⟩ := Step.bind.inj hs
      rw [hb] at hok
      cases hok
    · rw [hb]
      refine (h.marks hm hg hl).congr (by simp) fun k w => or_congr_right ⟨?_, ?_⟩
      · rintro ⟨hs, -⟩
        obtain ⟨rfl, rfl⟩ := Step.bind.inj hs
        exact ⟨rfl, rfl⟩
      · rintro ⟨rfl, rfl⟩
        exact ⟨rfl, by rw [hb]⟩
  | union i j =>
    show Tracks (f.union i j).2 n _ _
    obtain ⟨e, g, hu, hg, hun⟩ | ⟨hag, r, g, hu, hg, hm⟩ := hr.union_cases i j
    · rw [hu]
      refine (h.unchanged hun hg).congr (fun a b => or_iff_left ?_) (by simp)
      rintro ⟨hs, r, hok⟩
      obtain ⟨rfl, rfl⟩ := Step.union.inj hs
      rw [hu] at hok
      cases hok
    · rw [hu]
      refine (h.merges hm hg hag).congr (fun a b => or_congr_right ⟨?_, ?_⟩) (by simp)
      · rintro ⟨hs, -⟩
        obtain ⟨rfl, rfl⟩ := Step.union.inj hs
        exact ⟨rfl, rfl⟩
      · rintro ⟨rfl, rfl⟩
        exact ⟨rfl, r, by rw [hu]⟩

theorem tracks_after (n : Nat) (steps : List (Step α)) :
    Tracks (after n steps) n (Joined n steps) (Bound n steps) := by
  induction steps using List.reverseRecOn with
  | nil =>
    refine (tracks_singletons n).congr (fun a b => ?_) fun k w => ?_
    · simp [Joined, Happened]
    · simp [Bound, Happened]
  | append_singleton steps s ih =>
    rw [after_concat]
    exact (ih.perform s).congr (fun _ _ => happened_concat) fun _ _ => happened_concat

/-! ## Partitions -/

/-- What the operations answer on a forest of `n` numbers, two of which are in one class if `same` says so, where `bound`
says which labels were given; and what they leave behind.

Finding ends at a number that is its own parent, after no more links than there are numbers, and so does shortening the
path, after which all numbers of the path point there. -/
structure Partition (f : Forest α) (n : Nat) (same : Nat → Nat → Prop) (bound : Nat → α → Prop) : Prop where
  find_ends : ∀ i < n, ∃ r < n, (f.find i).1 = .ok r ∧ f.up r = r ∧ (∃ k ≤ n, f.up^[k] i = r) ∧
    (∀ k, (f.find i).2.parent[f.up^[k] i]? = some r) ∧
      ∀ m ≥ n, climb f.parent m i = r ∧ repoint r m f.parent i = (f.find i).2.parent
  find_eq_iff : ∀ i < n, ∀ j < n, (f.find i).1 = (f.find j).1 ↔ same i j
  find_unchanged : ∀ i < n, Unchanged f (f.find i).2
  value : ∀ i < n, ∃ l, (f.value i).1 = .ok l ∧ ∀ v, l = some v ↔ ∃ k, same i k ∧ bound k v
  value_unchanged : ∀ i < n, Unchanged f (f.value i).2
  bind_error_iff : ∀ i < n, ∀ v, (∃ e, (f.bind i (some v)).1 = .error e) ↔ ∃ k w, same i k ∧ bound k w
  bind_error : ∀ i < n, ∀ v e g, f.bind i (some v) = (.error e, g) → e = .labelled i ∧ Unchanged f g
  bind_ok : ∀ i < n, ∀ v g, f.bind i (some v) = (.ok (), g) → Marks f g i v
  union_error_iff : ∀ i < n, ∀ j < n, (∃ e, (f.union i j).1 = .error e) ↔
    ¬same i j ∧ ∃ k a l b, same i k ∧ bound k a ∧ same j l ∧ bound l b ∧ a ≠ b
  union_error : ∀ i < n, ∀ j < n, ∀ e g, f.union i j = (.error e, g) → Unchanged f g ∧
    ∃ a b, e = .conflict a b ∧ (f.value i).1 = .ok (some a) ∧ (f.value j).1 = .ok (some b)
  union_ok : ∀ i < n, ∀ j < n, ∀ r g, f.union i j = (.ok r, g) → (g.find i).1 = .ok r ∧ (g.find j).1 = .ok r ∧
    (∀ a < n, ∀ b < n, (g.find a).1 = (g.find b).1 ↔
      same a b ∨ ((same a i ∨ same a j) ∧ (same b i ∨ same b j))) ∧
    ∀ a < n, ∃ l, (g.value a).1 = .ok l ∧ ∀ v, l = some v ↔
      ∃ k, (same a k ∨ ((same a i ∨ same a j) ∧ (same k i ∨ same k j))) ∧ bound k v

theorem Tracks.partition (h : Tracks f n joined bound) : Partition f n (Relation.EqvGen joined) bound := by
  have hr := h.ranked
  obtain rfl := h.size
  have hlabel : ∀ i, (f.labelAt i).isSome ↔ ∃ k w, Relation.EqvGen joined i k ∧ bound k w := by
    intro i
    rw [Option.isSome_iff_exists, exists_comm]
    exact exists_congr fun w => h.label i w
  refine { find_ends := fun i hi => ?_, find_eq_iff := fun i hi j hj => ?_, find_unchanged := fun i _ => (hr.find i).2,
           value := fun i hi => ⟨f.labelAt i, by rw [value_of_lt hi], h.label i⟩,
           value_unchanged := fun i _ => (hr.value i).2, bind_error_iff := fun i hi v => ?_,
           bind_error := fun i hi v e g hb => ?_, bind_ok := fun i hi v g hb => ?_,
           union_error_iff := fun i hi j hj => ?_, union_error := fun i hi j hj e g hu => ?_,
           union_ok := fun i hi j hj r g hu => ?_ }
  · rw [find_of_lt hi]
    refine ⟨f.root i, hr.root_lt hi, rfl, hr.up_root i, f.exists_iterate_eq_root i, fun k => ?_, fun m hm => ?_⟩
    · have hk : f.up^[k] i < (f.compress i).size := (f.size_compress i).symm ▸ hr.iterate_lt hi k
      rw [getElem?_parent hk, hr.up_compress_path]
    · exact ⟨hr.climb_eq_root hm i, hr.repoint_eq_compress hm i⟩
  · rw [find_of_lt hi, find_of_lt hj, Except.ok.injEq]
    exact h.root i j
  · rw [← hlabel]
    obtain ⟨hl, hb⟩ | ⟨hl, g, hb, -⟩ := hr.bind_outcome hi v
    · rw [hb]
      exact iff_of_true ⟨_, rfl⟩ hl
    · rw [hb, hl]
      simp
  · obtain ⟨-, hb'⟩ | ⟨-, g', hb', -⟩ := hr.bind_outcome hi v
    · obtain ⟨he, rfl⟩ := Prod.mk.inj (hb'.symm.trans hb)
      exact ⟨(Except.error.inj he).symm, hr.unchanged_compress i⟩
    · cases (Prod.mk.inj (hb'.symm.trans hb)).1
  · obtain ⟨-, hb'⟩ | ⟨-, g', hb', -, hm⟩ := hr.bind_outcome hi v
    · cases (Prod.mk.inj (hb'.symm.trans hb)).1
    · obtain ⟨-, rfl⟩ := Prod.mk.inj (hb'.symm.trans hb)
      exact hm
  · obtain ⟨hag, r, g, hu, -⟩ | ⟨a, b, g, hne, ha, hb, hab, hu, -⟩ := hr.union_outcome hi hj
    · rw [hu]
      refine iff_of_false (by simp) ?_
      rintro ⟨-, k, a, l, b, hik, hka, hjl, hlb, hab⟩
      exact hab (hag a b ((h.label i a).2 ⟨k, hik, hka⟩) ((h.label j b).2 ⟨l, hjl, hlb⟩))
    · rw [hu]
      obtain ⟨k, hik, hka⟩ := (h.label i a).1 ha
      obtain ⟨l, hjl, hlb⟩ := (h.label j b).1 hb
      exact iff_of_true ⟨_, rfl⟩ ⟨fun hij => hne ((h.root i j).2 hij), k, a, l, b, hik, hka, hjl, hlb, hab⟩
  · obtain ⟨-, r, g', hu', -⟩ | ⟨a, b, g', -, ha, hb, -, hu', hun, -⟩ := hr.union_outcome hi hj
    · cases (Prod.mk.inj (hu'.symm.trans hu)).1
    · obtain ⟨he, rfl⟩ := Prod.mk.inj (hu'.symm.trans hu)
      refine ⟨hun, a, b, (Except.error.inj he).symm, ?_, ?_⟩
      · rw [value_of_lt hi, ha]
      · rw [value_of_lt hj, hb]
  · obtain ⟨hag, r', g', hu', hg, hm⟩ | ⟨a, b, g', -, -, -, -, hu', -⟩ := hr.union_outcome hi hj
    · obtain ⟨hok, rfl⟩ := Prod.mk.inj (hu'.symm.trans hu)
      obtain rfl := Except.ok.inj hok
      have hroot : ∀ a b, Relation.EqvGen (fun a b => joined a b ∨ (a = i ∧ b = j)) a b ↔
          Relation.EqvGen joined a b ∨ ((Relation.EqvGen joined a i ∨ Relation.EqvGen joined a j) ∧
            (Relation.EqvGen joined b i ∨ Relation.EqvGen joined b j)) := by
        intro a b
        simp only [← h.root]
        rw [← hm.root_eq_iff]
        exact ((h.merges hm hg hag).root a b).symm
      have hlt : ∀ a < f.size, a < g'.size := fun a ha => hm.size.symm ▸ ha
      refine ⟨?_, ?_, fun a ha b hb => ?_, fun a ha => ⟨g'.labelAt a, by rw [value_of_lt (hlt a ha)], fun v => ?_⟩⟩
      · rw [find_of_lt (hlt i hi), hm.root, if_pos (.inl rfl)]
      · rw [find_of_lt (hlt j hj), hm.root, if_pos (.inr rfl)]
      · rw [find_of_lt (hlt a ha), find_of_lt (hlt b hb), Except.ok.injEq, (h.merges hm hg hag).root, hroot]
      · simp only [← hroot]
        exact (h.merges hm hg hag).label a v
    · cases (Prod.mk.inj (hu'.symm.trans hu)).1

/-- After every history a forest is the partition that the successful unions generate, labelled as the successful
bindings say. -/
theorem partition_after (n : Nat) (steps : List (Step α)) :
    Partition (after n steps) n (Connected n steps) (Bound n steps) :=
  (tracks_after n steps).partition

/-- A label goes with its class, whichever root stays on top. -/
example : ((after 4 [.union 0 1, .bind 3 'x', .union 2 0, .union 3 2]).value 1).1 = .ok (some 'x') := by rfl

end

end Forest

end Entail
