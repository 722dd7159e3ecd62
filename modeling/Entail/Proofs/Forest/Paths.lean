import Entail.Forest
import Mathlib.Data.Finset.Card
import Mathlib.Logic.Function.Iterate

/-!
# Paths of a forest

* `Forest.up` : the parent of a number, where a number beyond the size is its own; the path of `i` are the numbers
  `f.up^[k] i`;
* `Forest.Ranked` : parents are numbers of the forest and have greater ranks than their children, so that no path comes
  back to where it was;
* `Ranked.up_root`, `root_eq_of_iterate`, `Ranked.root_eq` : a path ends at a root, within as many links as there are
  numbers, and what a root is;
* `Ranked.aim_path` : what one step of shortening a path does;
* `Ranked.up_compress_path`, `Ranked.up_compress_of_ne` : shortening a path points every number on it at the root and no
  other number elsewhere (`Ranked.compress`, `Ranked.root_compress`);
* `Ranked.link`, `Ranked.root_link` : one root put under another.
-/

namespace Entail.Forest

variable {α : Type} {f : Forest α} {i j k n r : Nat}

/-! ## Parents -/

def up (f : Forest α) (i : Nat) : Nat := f.parent.getD i i

theorem up_of_le (hi : f.size ≤ i) : f.up i = i := by
  unfold up
  rw [Array.getD_eq_getD_getElem?, Array.getElem?_eq_none hi]
  rfl

theorem lt_size_of_up_ne (hi : f.up i ≠ i) : i < f.size := by
  by_contra hle
  exact hi (up_of_le (Nat.le_of_not_lt hle))

theorem getElem?_parent (hi : i < f.size) : f.parent[i]? = some (f.up i) := by
  unfold up
  rw [Array.getD_eq_getD_getElem?, Array.getElem?_eq_getElem hi]
  rfl

theorem climb_succ (f : Forest α) (n i : Nat) :
    climb f.parent (n + 1) i = if f.up i = i then i else climb f.parent n (f.up i) := rfl

/-- Climbing follows the path. -/
theorem climb_eq_iterate (f : Forest α) (n i : Nat) : ∃ k ≤ n, climb f.parent n i = f.up^[k] i := by
  induction n generalizing i with
  | zero => exact ⟨0, Nat.le_refl 0, rfl⟩
  | succ n ih =>
    rw [climb_succ]
    split_ifs with hi
    · exact ⟨0, Nat.zero_le _, rfl⟩
    · obtain ⟨k, hk, heq⟩ := ih (f.up i)
      exact ⟨k + 1, Nat.succ_le_succ hk, heq⟩

theorem exists_iterate_eq_root (f : Forest α) (i : Nat) : ∃ k ≤ f.size, f.up^[k] i = f.root i := by
  obtain ⟨k, hk, heq⟩ := f.climb_eq_iterate f.size i
  exact ⟨k, hk, heq.symm⟩

/-- Two numbers of one path that are their own parents are the same. -/
theorem eq_of_fixed {l s : Nat} (hk : f.up^[k] i = r) (hr : f.up r = r) (hl : f.up^[l] i = s) (hs : f.up s = s) :
    r = s :=
  calc r = f.up^[l] r := (Function.iterate_fixed hr l).symm
    _ = f.up^[l] (f.up^[k] i) := by rw [hk]
    _ = f.up^[k] (f.up^[l] i) := by rw [← Function.iterate_add_apply, Nat.add_comm, Function.iterate_add_apply]
    _ = f.up^[k] s := by rw [hl]
    _ = s := Function.iterate_fixed hs k

/-! ## Ranks -/

/-- Parents are numbers of the forest and have greater ranks than their children. -/
structure Ranked (f : Forest α) : Prop where
  ranks : f.rank.size = f.parent.size
  labels : f.label.size = f.parent.size
  up_lt : ∀ i < f.size, f.up i < f.size
  rank_lt : ∀ i, f.up i ≠ i → f.rankOf i < f.rankOf (f.up i)

theorem Ranked.rank_le_iterate (h : Ranked f) (k i : Nat) : f.rankOf i ≤ f.rankOf (f.up^[k] i) := by
  induction k generalizing i with
  | zero => exact Nat.le_refl _
  | succ k ih =>
    rw [Function.iterate_succ_apply]
    by_cases hi : f.up i = i
    · rw [hi]
      exact ih i
    · exact Nat.le_of_lt (Nat.lt_of_lt_of_le (h.rank_lt i hi) (ih _))

/-- A path does not come back. -/
theorem Ranked.iterate_up_ne (h : Ranked f) (hi : f.up i ≠ i) (k : Nat) : f.up^[k] (f.up i) ≠ i := by
  intro heq
  have hle := h.rank_le_iterate k (f.up i)
  rw [heq] at hle
  exact absurd (h.rank_lt i hi) (Nat.not_lt.2 hle)

def above (f : Forest α) (i : Nat) : Finset Nat := (Finset.range f.size).filter fun j => f.rankOf i < f.rankOf j

theorem card_above_le (f : Forest α) (i : Nat) : (f.above i).card ≤ f.size := by
  have h := Finset.card_filter_le (Finset.range f.size) fun j => f.rankOf i < f.rankOf j
  rwa [Finset.card_range] at h

theorem Ranked.card_above_up_lt (h : Ranked f) (hi : f.up i ≠ i) : (f.above (f.up i)).card < (f.above i).card := by
  have hlt := h.rank_lt i hi
  refine Finset.card_lt_card (Finset.ssubset_iff_subset_ne.2 ⟨fun j hj => ?_, fun heq => ?_⟩)
  · obtain ⟨hj, hrank⟩ := Finset.mem_filter.1 hj
    exact Finset.mem_filter.2 ⟨hj, Nat.lt_trans hlt hrank⟩
  · have hmem : f.up i ∈ f.above i :=
      Finset.mem_filter.2 ⟨Finset.mem_range.2 (h.up_lt i (lt_size_of_up_ne hi)), hlt⟩
    rw [← heq] at hmem
    exact Nat.lt_irrefl _ (Finset.mem_filter.1 hmem).2

/-- Climbing ends at a root, as ranks grow on the way. -/
theorem Ranked.up_climb (h : Ranked f) (n i : Nat) (hn : (f.above i).card ≤ n) :
    f.up (climb f.parent n i) = climb f.parent n i := by
  induction n generalizing i with
  | zero =>
    show f.up i = i
    by_contra hi
    have := h.card_above_up_lt hi
    omega
  | succ n ih =>
    rw [climb_succ]
    split_ifs with hi
    · exact hi
    · have := h.card_above_up_lt hi
      exact ih (f.up i) (by omega)

/-! ## Roots -/

theorem Ranked.up_root (h : Ranked f) (i : Nat) : f.up (f.root i) = f.root i :=
  h.up_climb f.size i (f.card_above_le i)

theorem Ranked.root_eq_of_iterate (h : Ranked f) (hk : f.up^[k] i = r) (hr : f.up r = r) : f.root i = r := by
  obtain ⟨l, -, hl⟩ := f.exists_iterate_eq_root i
  exact eq_of_fixed hl (h.up_root i) hk hr

theorem Ranked.root_of_up (h : Ranked f) (hi : f.up i = i) : f.root i = i := h.root_eq_of_iterate (k := 0) rfl hi

theorem Ranked.root_iterate (h : Ranked f) (k i : Nat) : f.root (f.up^[k] i) = f.root i := by
  obtain ⟨l, -, hl⟩ := f.exists_iterate_eq_root (f.up^[k] i)
  rw [← Function.iterate_add_apply] at hl
  exact (h.root_eq_of_iterate hl (h.up_root _)).symm

theorem Ranked.root_up (h : Ranked f) (i : Nat) : f.root (f.up i) = f.root i := h.root_iterate 1 i

theorem Ranked.root_root (h : Ranked f) (i : Nat) : f.root (f.root i) = f.root i := h.root_of_up (h.up_root i)

theorem Ranked.iterate_lt (h : Ranked f) (hi : i < f.size) (k : Nat) : f.up^[k] i < f.size := by
  induction k generalizing i with
  | zero => exact hi
  | succ k ih => exact ih (h.up_lt i hi)

theorem Ranked.root_lt (h : Ranked f) (hi : i < f.size) : f.root i < f.size := by
  obtain ⟨k, -, hk⟩ := f.exists_iterate_eq_root i
  exact hk ▸ h.iterate_lt hi k

theorem Ranked.rank_lt_root (h : Ranked f) (hi : f.root i ≠ i) : f.rankOf i < f.rankOf (f.root i) := by
  have hup : f.up i ≠ i := fun hup => hi (h.root_of_up hup)
  obtain ⟨k, -, hk⟩ := f.exists_iterate_eq_root (f.up i)
  rw [h.root_up] at hk
  have hle := h.rank_le_iterate k (f.up i)
  rw [hk] at hle
  exact Nat.lt_of_lt_of_le (h.rank_lt i hup) hle

/-- A function that is the same along paths, and fixes what is its own parent, gives the roots. -/
theorem Ranked.root_eq (h : Ranked f) {g : Nat → Nat} (hup : ∀ j, g (f.up j) = g j) (hfix : ∀ j, f.up j = j → g j = j)
    (i : Nat) : f.root i = g i := by
  have hpath : ∀ k j, g (f.up^[k] j) = g j := by
    intro k
    induction k with
    | zero => exact fun _ => rfl
    | succ k ih => exact fun j => (ih (f.up j)).trans (hup j)
  obtain ⟨k, -, hk⟩ := f.exists_iterate_eq_root i
  calc f.root i = g (f.root i) := (hfix _ (h.up_root i)).symm
    _ = g (f.up^[k] i) := by rw [hk]
    _ = g i := hpath k i

/-- More links than there are numbers are of no use. -/
theorem Ranked.climb_eq_root (h : Ranked f) (hn : f.size ≤ n) (i : Nat) : climb f.parent n i = f.root i := by
  obtain ⟨k, -, hk⟩ := f.climb_eq_iterate n i
  exact (h.root_eq_of_iterate hk.symm (h.up_climb n i (Nat.le_trans (f.card_above_le i) hn))).symm

/-! ## One number alone -/

theorem up_singletons (n i : Nat) : (singletons n : Forest α).up i = i := by
  unfold up singletons
  rw [Array.getD_eq_getD_getElem?]
  by_cases hi : i < n
  · simp [hi]
  · simp [hi]

theorem ranked_singletons (n : Nat) : Ranked (singletons n : Forest α) where
  ranks := by simp [singletons]
  labels := by simp [singletons]
  up_lt i hi := by rwa [up_singletons]
  rank_lt i hi := absurd (up_singletons n i) hi

theorem root_singletons (n i : Nat) : (singletons n : Forest α).root i = i :=
  (ranked_singletons n).root_of_up (up_singletons n i)

/-! ## Shortening a path -/

theorem getD_setIfInBounds {β : Type} {xs : Array β} (hi : i < xs.size) (x d : β) (j : Nat) :
    (xs.setIfInBounds i x).getD j d = if i = j then x else xs.getD j d := by
  simp only [Array.getD_eq_getD_getElem?, Array.getElem?_setIfInBounds, if_pos hi]
  split_ifs <;> rfl

/-- The forest with one number pointed at another. -/
def aim (f : Forest α) (i r : Nat) : Forest α := { f with parent := f.parent.setIfInBounds i r }

theorem size_aim (f : Forest α) (i r : Nat) : (f.aim i r).size = f.size := Array.size_setIfInBounds

theorem up_aim (hi : i < f.size) (r j : Nat) : (f.aim i r).up j = if i = j then r else f.up j :=
  getD_setIfInBounds hi r j j

theorem Ranked.aim (h : Ranked f) (hi : i < f.size) (hr : r < f.size) (hlt : f.rankOf i < f.rankOf r) :
    Ranked (f.aim i r) where
  ranks := h.ranks.trans (f.size_aim i r).symm
  labels := h.labels.trans (f.size_aim i r).symm
  up_lt j hj := by
    rw [up_aim hi, size_aim]
    split_ifs
    · exact hr
    · exact h.up_lt j (f.size_aim i r ▸ hj)
  rank_lt j hj := by
    show f.rankOf j < f.rankOf _
    rw [up_aim hi] at hj ⊢
    split_ifs at hj ⊢ with hij
    · exact hij ▸ hlt
    · exact h.rank_lt j hj

/-- Pointing a number at its root leaves the rest of its path as it is. -/
theorem Ranked.aim_path (h : Ranked f) (hup : f.up i ≠ i) (hr : f.up^[n] (f.up i) = r) (hroot : f.up r = r) :
    Ranked (f.aim i r) ∧ (f.aim i r).up r = r ∧ ∀ k, (f.aim i r).up^[k] (f.up i) = f.up^[k] (f.up i) := by
  have hlt := lt_size_of_up_ne hup
  have hri : r ≠ i := fun hri => h.iterate_up_ne hup n (hr.trans hri)
  have hroot_i : f.root i = r := h.root_eq_of_iterate (k := n + 1) hr hroot
  have hrank : f.rankOf i < f.rankOf r := hroot_i ▸ h.rank_lt_root (hroot_i.symm ▸ hri)
  refine ⟨h.aim hlt (hroot_i ▸ h.root_lt hlt) hrank, ?_, fun k => ?_⟩
  · rw [up_aim hlt, if_neg hri.symm, hroot]
  · induction k with
    | zero => rfl
    | succ k ih =>
      -- the path does not come back to the number that was pointed elsewhere
      rw [Function.iterate_succ_apply', Function.iterate_succ_apply', ih, up_aim hlt,
        if_neg (h.iterate_up_ne hup k).symm]

/-- The numbers on the path of a number are pointed at its end, all others stay. The first step of the loop leaves a
forest that has the rest of the path unchanged. -/
theorem Ranked.getD_repoint (h : Ranked f) {m : Nat} (hm : m ≤ n) (hr : f.up^[m] i = r) (hroot : f.up r = r) :
    (∀ k, (repoint r n f.parent i).getD (f.up^[k] i) (f.up^[k] i) = r) ∧
      ∀ j, (∀ k, f.up^[k] i ≠ j) → (repoint r n f.parent i).getD j j = f.up j := by
  induction n generalizing f i m with
  | zero =>
    obtain rfl : m = 0 := Nat.le_zero.1 hm
    obtain rfl : i = r := hr
    refine ⟨fun k => ?_, fun j _ => rfl⟩
    rw [Function.iterate_fixed hroot]
    exact hroot
  | succ n ih =>
    have hstep : repoint r (n + 1) f.parent i =
      if f.up i = r then f.parent else repoint r n (f.aim i r).parent (f.up i) := rfl
    rw [hstep]
    split_ifs with hi
    · refine ⟨fun k => ?_, fun j _ => rfl⟩
      cases k with
      | zero => exact hi
      | succ k =>
        rw [Function.iterate_succ_apply, hi, Function.iterate_fixed hroot]
        exact hroot
    · -- the path goes on beyond the parent, so the number is no root and is not met again
      obtain _ | m := m
      · exact absurd (show f.up i = r from (show i = r from hr) ▸ hroot) hi
      rw [Function.iterate_succ_apply] at hr
      have hup : f.up i ≠ i := by
        intro hup
        rw [hup, Function.iterate_fixed hup] at hr
        exact hi (hup.trans hr)
      have hlt := lt_size_of_up_ne hup
      obtain ⟨haim, hend, hpath⟩ := h.aim_path hup hr hroot
      obtain ⟨hon, hoff⟩ := ih haim (Nat.le_of_succ_le_succ hm) ((hpath m).trans hr) hend
      refine ⟨fun k => ?_, fun j hj => ?_⟩
      · cases k with
        | zero =>
          show (repoint r n (f.aim i r).parent (f.up i)).getD i i = r
          rw [hoff i fun k => (hpath k).symm ▸ h.iterate_up_ne hup k, up_aim hlt, if_pos rfl]
        | succ k =>
          rw [Function.iterate_succ_apply, ← hpath]
          exact hon k
      · have hij : i ≠ j := hj 0
        rw [hoff j fun k => (hpath k).symm ▸ hj (k + 1), up_aim hlt, if_neg hij]

theorem size_repoint (r n : Nat) (parent : Array Nat) (i : Nat) : (repoint r n parent i).size = parent.size := by
  induction n generalizing parent i with
  | zero => rfl
  | succ n ih =>
    unfold repoint
    split_ifs
    · rfl
    · rw [ih, Array.size_setIfInBounds]

theorem size_compress (f : Forest α) (i : Nat) : (f.compress i).size = f.size := size_repoint _ _ _ _

theorem Ranked.up_compress_path (h : Ranked f) (i k : Nat) : (f.compress i).up (f.up^[k] i) = f.root i := by
  obtain ⟨m, hm, hr⟩ := f.exists_iterate_eq_root i
  exact (h.getD_repoint hm hr (h.up_root i)).1 k

theorem Ranked.up_compress_of_ne (h : Ranked f) (hj : ∀ k, f.up^[k] i ≠ j) : (f.compress i).up j = f.up j := by
  obtain ⟨m, hm, hr⟩ := f.exists_iterate_eq_root i
  exact (h.getD_repoint hm hr (h.up_root i)).2 j hj

/-- More steps than there are numbers are of no use. -/
theorem Ranked.repoint_eq_compress (h : Ranked f) (hn : f.size ≤ n) (i : Nat) :
    repoint (f.root i) n f.parent i = (f.compress i).parent := by
  obtain ⟨m, hm, hr⟩ := f.exists_iterate_eq_root i
  obtain ⟨hon, hoff⟩ := h.getD_repoint (Nat.le_trans hm hn) hr (h.up_root i)
  have hsize : (repoint (f.root i) n f.parent i).size = (f.compress i).parent.size :=
    (size_repoint _ _ _ _).trans (f.size_compress i).symm
  have hget : ∀ j, (repoint (f.root i) n f.parent i).getD j j = (f.compress i).up j := by
    intro j
    by_cases hj : ∃ k, f.up^[k] i = j
    · obtain ⟨k, rfl⟩ := hj
      rw [hon, h.up_compress_path]
    · push Not at hj
      rw [hoff j hj, h.up_compress_of_ne hj]
  refine Array.ext hsize fun j hj hj' => ?_
  have hgetj := hget j
  unfold up at hgetj
  rw [Array.getD_eq_getD_getElem?, Array.getD_eq_getD_getElem?, Array.getElem?_eq_getElem hj,
    Array.getElem?_eq_getElem hj'] at hgetj
  exact hgetj

theorem Ranked.up_compress_cases (h : Ranked f) (i j : Nat) :
    (f.root j = f.root i ∧ (f.compress i).up j = f.root j) ∨ (f.compress i).up j = f.up j := by
  by_cases hj : ∃ k, f.up^[k] i = j
  · obtain ⟨k, rfl⟩ := hj
    rw [h.root_iterate]
    exact .inl ⟨rfl, h.up_compress_path i k⟩
  · push Not at hj
    exact .inr (h.up_compress_of_ne hj)

theorem Ranked.compress (h : Ranked f) (i : Nat) : Ranked (f.compress i) where
  ranks := h.ranks.trans (f.size_compress i).symm
  labels := h.labels.trans (f.size_compress i).symm
  up_lt j hj := by
    rw [size_compress] at hj ⊢
    obtain ⟨-, hup⟩ | hup := h.up_compress_cases i j
    · exact hup ▸ h.root_lt hj
    · exact hup ▸ h.up_lt j hj
  rank_lt j hj := by
    show f.rankOf j < f.rankOf _
    obtain ⟨-, hup⟩ | hup := h.up_compress_cases i j
    · rw [hup] at hj ⊢
      exact h.rank_lt_root hj
    · rw [hup] at hj ⊢
      exact h.rank_lt j hj

theorem Ranked.root_compress (h : Ranked f) (i j : Nat) : (f.compress i).root j = f.root j := by
  refine (h.compress i).root_eq (fun j => ?_) (fun j hj => ?_) j
  · obtain ⟨-, hup⟩ | hup := h.up_compress_cases i j
    · rw [hup, h.root_root]
    · rw [hup, h.root_up]
  · obtain ⟨-, hup⟩ | hup := h.up_compress_cases i j
    · rw [← hup, hj]
    · exact h.root_of_up (hup ▸ hj)

/-! ## Putting a root under another -/

section
variable {high low : Nat} {v : Option α}

theorem size_link (f : Forest α) (high low : Nat) (v : Option α) : (f.link high low v).size = f.size :=
  Array.size_setIfInBounds

theorem up_link (hl : low < f.size) (high j : Nat) (v : Option α) :
    (f.link high low v).up j = if low = j then high else f.up j := up_aim hl high j

theorem Ranked.rankOf_link (h : Ranked f) (hh : high < f.size) (low j : Nat) (v : Option α) :
    (f.link high low v).rankOf j =
      if f.rankOf high = f.rankOf low ∧ high = j then f.rankOf high + 1 else f.rankOf j := by
  have hh' : high < f.rank.size := h.ranks ▸ hh
  show (if f.rankOf high = f.rankOf low then f.rank.setIfInBounds high (f.rankOf high + 1) else f.rank).getD j 0 = _
  by_cases heq : f.rankOf high = f.rankOf low
  · simp only [heq, true_and, if_true]
    exact getD_setIfInBounds hh' _ _ j
  · simp only [heq, false_and, if_false]
    rfl

theorem Ranked.labelOf_link (h : Ranked f) (hh : high < f.size) (low j : Nat) (v : Option α) :
    (f.link high low v).labelOf j = if high = j then v else f.labelOf j := by
  have hh' : high < f.label.size := h.labels ▸ hh
  simp only [labelOf, link, Array.getElem?_setIfInBounds, if_pos hh']
  split_ifs <;> rfl

theorem Ranked.link (h : Ranked f) (hh : high < f.size) (hl : low < f.size) (hhigh : f.up high = high)
    (hne : high ≠ low) (hle : f.rankOf low ≤ f.rankOf high) (v : Option α) : Ranked (f.link high low v) where
  ranks := by
    rw [Forest.link, Array.size_setIfInBounds]
    split_ifs
    · rw [Array.size_setIfInBounds, h.ranks]
    · exact h.ranks
  labels := by rw [Forest.link, Array.size_setIfInBounds, Array.size_setIfInBounds, h.labels]
  up_lt j hj := by
    rw [size_link] at hj ⊢
    rw [up_link hl]
    split_ifs
    · exact hh
    · exact h.up_lt j hj
  rank_lt j hj := by
    rw [up_link hl] at hj ⊢
    by_cases hlj : low = j
    · -- the lower root gets a parent, whose rank grows if it was the same
      subst hlj
      rw [if_pos rfl, h.rankOf_link hh, h.rankOf_link hh, if_neg fun hb => hne hb.2]
      split_ifs with hb
      · omega
      · have hneq : f.rankOf high ≠ f.rankOf low := fun heq => hb ⟨heq, rfl⟩
        omega
    · rw [if_neg hlj] at hj ⊢
      have hjh : high ≠ j := by
        rintro rfl
        exact hj hhigh
      have hlt := h.rank_lt j hj
      rw [h.rankOf_link hh, h.rankOf_link hh, if_neg fun hb => hjh hb.2]
      split_ifs with hb
      · obtain ⟨-, rfl⟩ := hb
        omega
      · exact hlt

/-- The class of the lower root goes to the higher one, all others stay. -/
theorem Ranked.root_link (h : Ranked f) (hh : high < f.size) (hl : low < f.size) (hhigh : f.up high = high)
    (hlow : f.up low = low) (hne : high ≠ low) (hle : f.rankOf low ≤ f.rankOf high) (v : Option α) (j : Nat) :
    (f.link high low v).root j = if f.root j = low then high else f.root j := by
  have hlink := h.link hh hl hhigh hne hle v
  refine hlink.root_eq (g := fun j => if f.root j = low then high else f.root j) (fun j => ?_) (fun j hj => ?_) j
  · show (if f.root _ = low then high else f.root _) = if f.root j = low then high else f.root j
    rw [up_link hl]
    by_cases hlj : low = j
    · subst hlj
      rw [if_pos rfl, h.root_of_up hhigh, h.root_of_up hlow, if_neg hne, if_pos rfl]
    · rw [if_neg hlj, h.root_up]
  · show (if f.root j = low then high else f.root j) = j
    rw [up_link hl] at hj
    split_ifs at hj with hlj
    · exact absurd (hj.trans hlj.symm) hne
    · rw [h.root_of_up hj, if_neg fun hjl => hlj hjl.symm]

end

end Entail.Forest
