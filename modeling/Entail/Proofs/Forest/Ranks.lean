import Entail.Proofs.Forest.Partition
import Mathlib.Algebra.Group.Nat.Defs
import Mathlib.Data.Nat.Log

/-!
# Ranks of a forest

Uniting by rank keeps paths short, however they are shortened in between.

* `climbed`, `repointed` : the steps that the two loops of finding take (`climb_eq_iterate_climbed`,
  `climb_of_climbed_le`, `repoint_of_repointed_le`);
* `Ranked.rank_add_climbed_le`, `Ranked.rank_add_repointed_le` : each step leads to a greater rank;
* `Weighted f` : the class of a root of rank `r` has at least `2 ^ r` numbers. Shortening paths changes neither ranks
  nor classes, and a rank grows only when two classes come together that are large enough (`Weighted.link`);
* `moved` : a history of operations whose labels may be missing (`weighted_moved`);
* `Shallow` : no number has more links to its root than the size has binary digits after the first (`shallow_moved`).
-/

namespace Entail.Forest

variable {α : Type} {f g : Forest α} {i j k m n r : Nat}

/-! ## Steps of the loops -/

/-- The number of links that climbing follows. -/
def climbed (parent : Array Nat) : Nat → Nat → Nat
  | 0, _ => 0
  | fuel + 1, i => if parent.getD i i = i then 0 else climbed parent fuel (parent.getD i i) + 1

/-- The number of links that are changed to shorten a path. -/
def repointed (root : Nat) : Nat → Array Nat → Nat → Nat
  | 0, _, _ => 0
  | fuel + 1, parent, i =>
    if parent.getD i i = root then 0
    else repointed root fuel (parent.setIfInBounds i root) (parent.getD i i) + 1

theorem climbed_succ (f : Forest α) (n i : Nat) :
    climbed f.parent (n + 1) i = if f.up i = i then 0 else climbed f.parent n (f.up i) + 1 := rfl

theorem repointed_succ (f : Forest α) (r n i : Nat) : repointed r (n + 1) f.parent i =
    if f.up i = r then 0 else repointed r n (f.aim i r).parent (f.up i) + 1 := rfl

theorem repoint_succ (f : Forest α) (r n i : Nat) : repoint r (n + 1) f.parent i =
    if f.up i = r then f.parent else repoint r n (f.aim i r).parent (f.up i) := rfl

theorem climb_eq_iterate_climbed (f : Forest α) (n i : Nat) :
    climb f.parent n i = f.up^[climbed f.parent n i] i := by
  induction n generalizing i with
  | zero => rfl
  | succ n ih =>
    rw [climb_succ, climbed_succ]
    split_ifs
    · rfl
    · rw [Function.iterate_succ_apply]
      exact ih (f.up i)

/-- Fuel for the links that are followed is enough. -/
theorem climb_of_climbed_le (hm : climbed f.parent n i ≤ m) (hmn : m ≤ n) :
    climb f.parent m i = climb f.parent n i := by
  induction n generalizing m i with
  | zero => rw [Nat.le_zero.1 hmn]
  | succ n ih =>
    rw [climbed_succ] at hm
    rw [climb_succ f n]
    split_ifs at hm ⊢ with hi
    · cases m with
      | zero => rfl
      | succ m => exact if_pos hi
    · obtain _ | m := m
      · omega
      · rw [climb_succ, if_neg hi]
        exact ih (by omega) (by omega)

/-- Fuel for the links that are changed is enough. -/
theorem repoint_of_repointed_le (hm : repointed r n f.parent i ≤ m) (hmn : m ≤ n) :
    repoint r m f.parent i = repoint r n f.parent i := by
  induction n generalizing f m i with
  | zero => rw [Nat.le_zero.1 hmn]
  | succ n ih =>
    rw [repointed_succ] at hm
    rw [repoint_succ f r n]
    split_ifs at hm ⊢ with hi
    · cases m with
      | zero => rfl
      | succ m => exact if_pos hi
    · obtain _ | m := m
      · omega
      · rw [repoint_succ, if_neg hi]
        exact ih (by omega) (by omega)

/-- Ranks grow with every link that is followed. -/
theorem Ranked.rank_add_climbed_le (h : Ranked f) (n i : Nat) :
    f.rankOf i + climbed f.parent n i ≤ f.rankOf (f.root i) := by
  induction n generalizing i with
  | zero =>
    obtain ⟨k, -, hk⟩ := f.exists_iterate_eq_root i
    show f.rankOf i ≤ _
    exact hk ▸ h.rank_le_iterate k i
  | succ n ih =>
    rw [climbed_succ]
    split_ifs with hi
    · rw [h.root_of_up hi]
      exact Nat.le_refl _
    · have hlt := h.rank_lt i hi
      have hrest := ih (f.up i)
      rw [h.root_up] at hrest
      omega

/-- Ranks grow with every link that is changed: the path goes on as it was. -/
theorem Ranked.rank_add_repointed_le (h : Ranked f) (hr : f.up^[m] i = r) (hroot : f.up r = r) (n : Nat) :
    f.rankOf i + repointed r n f.parent i ≤ f.rankOf r := by
  induction n generalizing f i m with
  | zero => exact hr ▸ h.rank_le_iterate m i
  | succ n ih =>
    rw [repointed_succ]
    split_ifs with hi
    · exact hr ▸ h.rank_le_iterate m i
    · obtain _ | m := m
      · exact absurd (show f.up i = r from (show i = r from hr) ▸ hroot) hi
      rw [Function.iterate_succ_apply] at hr
      have hup : f.up i ≠ i := by
        intro hup
        rw [hup, Function.iterate_fixed hup] at hr
        exact hi (hup.trans hr)
      obtain ⟨haim, hend, hpath⟩ := h.aim_path hup hr hroot
      have hrest : f.rankOf (f.up i) + repointed r n (f.aim i r).parent (f.up i) ≤ f.rankOf r :=
        ih haim ((hpath m).trans hr) hend
      have hlt := h.rank_lt i hup
      omega

/-! ## Sizes of classes -/

def members (f : Forest α) (r : Nat) : Finset Nat := (Finset.range f.size).filter fun i => f.root i = r

theorem mem_members : i ∈ f.members r ↔ i < f.size ∧ f.root i = r := by
  rw [members, Finset.mem_filter, Finset.mem_range]

theorem card_members_le (f : Forest α) (r : Nat) : (f.members r).card ≤ f.size := by
  have h := Finset.card_filter_le (Finset.range f.size) fun i => f.root i = r
  rwa [Finset.card_range] at h

/-- The class of a root has at least as many numbers as its rank asks for. -/
structure Weighted (f : Forest α) : Prop extends Ranked f where
  weight : ∀ r < f.size, f.root r = r → 2 ^ f.rankOf r ≤ (f.members r).card

/-- No rank is greater than the binary logarithm of the size. -/
theorem Weighted.rank_root_le (h : Weighted f) (hi : i < f.size) : f.rankOf (f.root i) ≤ Nat.log 2 f.size := by
  have hweight := h.weight (f.root i) (h.root_lt hi) (h.root_root i)
  exact Nat.le_log_of_pow_le Nat.one_lt_two (Nat.le_trans hweight (f.card_members_le _))

theorem Weighted.unchanged (h : Weighted f) (hu : Unchanged f g) (hg : Ranked g) : Weighted g where
  toRanked := hg
  weight r hr hroot := by
    have hmembers : g.members r = f.members r := by
      ext i
      rw [mem_members, mem_members, hu.size, hu.root]
    rw [hu.rankOf, hmembers]
    rw [hu.size] at hr
    rw [hu.root] at hroot
    exact h.weight r hr hroot

/-- Labels do not matter. -/
theorem Weighted.congr (h : Weighted f) (hp : g.parent = f.parent) (hr : g.rank = f.rank)
    (hl : g.label.size = f.label.size) : Weighted g := by
  obtain ⟨parent, rank, label⟩ := g
  obtain rfl : parent = f.parent := hp
  obtain rfl : rank = f.rank := hr
  exact ⟨⟨h.ranks, hl.trans h.labels, h.up_lt, h.rank_lt⟩, h.weight⟩

theorem weighted_singletons (n : Nat) : Weighted (singletons n : Forest α) where
  toRanked := ranked_singletons n
  weight r hr hroot := by
    have hrank : (singletons n : Forest α).rankOf r = 0 := by
      rw [rankOf, singletons, Array.getD_eq_getD_getElem?, Array.getElem?_replicate]
      split_ifs <;> rfl
    rw [hrank]
    exact Finset.card_pos.2 ⟨r, mem_members.2 ⟨hr, hroot⟩⟩

/-! ## Operations -/

theorem Weighted.compress (h : Weighted f) (i : Nat) : Weighted (f.compress i) :=
  h.unchanged (h.unchanged_compress i) (h.toRanked.compress i)

theorem Weighted.find (h : Weighted f) (i : Nat) : Weighted (f.find i).2 := by
  obtain ⟨hg, hu⟩ := h.toRanked.find i
  exact h.unchanged hu hg

theorem Weighted.value (h : Weighted f) (i : Nat) : Weighted (f.value i).2 := by
  obtain ⟨hg, hu⟩ := h.toRanked.value i
  exact h.unchanged hu hg

/-- Binding shortens a path and may put a label in place. -/
theorem Weighted.bind (h : Weighted f) (i : Nat) (v : Option α) : Weighted (f.bind i v).2 := by
  have hfind := h.find i
  unfold Forest.bind
  split
  · next r g hr =>
    rw [hr] at hfind
    split
    · exact hfind
    · exact hfind.congr rfl rfl Array.size_setIfInBounds
  · next e g he =>
    rw [he] at hfind
    exact hfind

/-- The rank of a root grows only if it gets a class that is as large as its own has to be. -/
theorem Weighted.link {high low : Nat} (h : Weighted f) (hh : high < f.size) (hl : low < f.size)
    (hhigh : f.up high = high) (hlow : f.up low = low) (hne : high ≠ low) (hle : f.rankOf low ≤ f.rankOf high)
    (v : Option α) : Weighted (f.link high low v) where
  toRanked := h.toRanked.link hh hl hhigh hne hle v
  weight r hr hroot := by
    have hroots := h.root_link hh hl hhigh hlow hne hle v
    rw [size_link] at hr
    have hrlow : f.root r ≠ low := by
      intro hrlow
      rw [hroots, if_pos hrlow] at hroot
      rw [← hroot, h.root_of_up hhigh] at hrlow
      exact hne hrlow
    have hr_root : f.root r = r := by
      rwa [hroots, if_neg hrlow] at hroot
    have hweight := h.weight r hr hr_root
    rw [h.rankOf_link hh]
    by_cases hrh : r = high
    · subst hrh
      -- the class is now that of both roots
      have hmembers : (f.link r low v).members r = f.members r ∪ f.members low := by
        ext i
        rw [Finset.mem_union, mem_members, mem_members, mem_members, size_link, hroots]
        split_ifs with hi
        · simp [hi, hne.symm]
        · simp [hi]
      have hdisjoint : Disjoint (f.members r) (f.members low) := by
        refine Finset.disjoint_left.2 fun i hi hi' => hne ?_
        rw [← (mem_members.1 hi).2, (mem_members.1 hi').2]
      have hweight_low := h.weight low hl (h.root_of_up hlow)
      rw [hmembers, Finset.card_union_of_disjoint hdisjoint]
      split_ifs with heq
      · rw [← heq.1] at hweight_low
        rw [Nat.pow_succ]
        omega
      · omega
    · have hmembers : (f.link high low v).members r = f.members r := by
        ext i
        rw [mem_members, mem_members, size_link, hroots]
        split_ifs with hi
        · have hlr : low ≠ r := fun hlr => hrlow (hr_root.trans hlr.symm)
          simp [hi, hlr, Ne.symm hrh]
        · rfl
      rw [hmembers, if_neg fun hb => hrh hb.2.symm]
      exact hweight

theorem Weighted.linkByRank (h : Weighted f) (hi : i < f.size) (hj : j < f.size) (hri : f.up i = i) (hrj : f.up j = j)
    (hne : i ≠ j) (v : Option α) : Weighted (f.linkByRank i j v).2 := by
  unfold Forest.linkByRank
  split_ifs with hlt
  · exact h.link hj hi hrj hri hne.symm (Nat.le_of_lt hlt) v
  · exact h.link hi hj hri hrj hne (Nat.le_of_not_lt hlt) v

section
variable [DecidableEq α]

theorem Weighted.merge (h : Weighted f) (hi : i < f.size) (hj : j < f.size) (hri : f.up i = i) (hrj : f.up j = j) :
    Weighted (f.merge i j).2 := by
  by_cases hij : i = j
  · rw [Forest.merge, if_pos hij]
    exact h
  · by_cases hag : ∀ a b, f.labelOf i = some a → f.labelOf j = some b → a = b
    · rw [merge_of_agree hij hag]
      exact h.linkByRank hi hj hri hrj hij _
    · push Not at hag
      obtain ⟨a, b, ha, hb, hab⟩ := hag
      rw [Forest.merge, if_neg hij, ha, hb]
      simp only [if_neg hab]
      exact h

theorem Weighted.union (h : Weighted f) (i j : Nat) : Weighted (f.union i j).2 := by
  by_cases hi : i < f.size
  · have hi' : f.root i < (f.compress i).size := (f.size_compress i).symm ▸ h.root_lt hi
    by_cases hj : j < (f.compress i).size
    · -- the roots that are found stay roots when the second path is shortened
      have hc := h.compress i
      have hroots : ∀ k, ((f.compress i).compress j).root k = f.root k := fun k => by
        rw [hc.root_compress, h.root_compress]
      have hfix : ∀ k, ((f.compress i).compress j).up (f.root k) = f.root k := fun k =>
        hroots k ▸ (hc.compress j).up_root k
      rw [Forest.union, find_of_lt hi]
      simp only [find_of_lt hj, h.root_compress]
      refine (hc.compress j).merge ?_ ?_ (hfix i) (hfix j)
      · rwa [size_compress]
      · rw [size_compress, size_compress]
        exact h.root_lt (f.size_compress i ▸ hj)
    · rw [Forest.union, find_of_lt hi]
      simp only [find_of_le (Nat.le_of_not_lt hj)]
      exact h.compress i
  · rw [Forest.union, find_of_le (Nat.le_of_not_lt hi)]
    exact h

/-! ## Histories -/

/-- The forest that a step leaves behind; binding may give no label. -/
def move (f : Forest α) : Step (Option α) → Forest α
  | .find i => (f.find i).2
  | .value i => (f.value i).2
  | .bind i v => (f.bind i v).2
  | .union i j => (f.union i j).2

def moved (n : Nat) (steps : List (Step (Option α))) : Forest α := steps.foldl move (singletons n)

theorem Weighted.move (h : Weighted f) (s : Step (Option α)) : Weighted (f.move s) := by
  cases s with
  | find i => exact h.find i
  | value i => exact h.value i
  | bind i v => exact h.bind i v
  | union i j => exact h.union i j

theorem Ranked.size_move (h : Ranked f) (s : Step (Option α)) : (f.move s).size = f.size := by
  cases s with
  | find i => exact (h.find i).2.size
  | value i => exact (h.value i).2.size
  | bind i v =>
    have hsize := (h.find i).2.size
    show (f.bind i v).2.size = f.size
    unfold Forest.bind
    split
    · next r g hr =>
      rw [hr] at hsize
      split <;> exact hsize
    · next e g he =>
      rw [he] at hsize
      exact hsize
  | union i j =>
    show (f.union i j).2.size = f.size
    obtain ⟨e, g, hu, -, hun⟩ | ⟨-, r, g, hu, -, hm⟩ := h.union_cases i j
    · rw [hu]
      exact hun.size
    · rw [hu]
      exact hm.size

/-- Every history leaves a forest of its size in which classes are as large as ranks ask for. -/
theorem weighted_moved (n : Nat) (steps : List (Step (Option α))) :
    Weighted (moved n steps) ∧ (moved n steps).size = n := by
  induction steps using List.reverseRecOn with
  | nil => exact ⟨weighted_singletons n, by simp [moved, size, singletons]⟩
  | append_singleton steps s ih =>
    have hstep : moved n (steps ++ [s]) = (moved n steps).move s := by
      rw [moved, List.foldl_append]
      rfl
    rw [hstep]
    exact ⟨ih.1.move s, (ih.1.toRanked.size_move s).trans ih.2⟩

end

/-! ## Short paths -/

/-- A forest of `n` numbers whose paths have at most as many links as `n` has binary digits after the first. The loops
of finding are done after as many steps, and take no more however many they are allowed. -/
structure Shallow (f : Forest α) (n : Nat) : Prop where
  rank_lt : ∀ i < n, f.up i ≠ i → f.rankOf i < f.rankOf (f.up i)
  weight : ∀ r < n, f.up r = r → 2 ^ f.rankOf r ≤ ((Finset.range n).filter fun i => f.root i = r).card
  links : ∀ i < n, (f.find i).1 = .ok (f.root i) ∧ f.up (f.root i) = f.root i ∧
    ∃ k ≤ Nat.log 2 n, f.up^[k] i = f.root i
  steps : ∀ i < n, ∀ m, climbed f.parent m i ≤ Nat.log 2 n ∧ repointed (f.root i) m f.parent i ≤ Nat.log 2 n
  ends : ∀ i < n, ∀ m ≥ Nat.log 2 n, climb f.parent m i = f.root i ∧
    repoint (f.root i) m f.parent i = (f.find i).2.parent

theorem Weighted.climbed_le (h : Weighted f) (hi : i < f.size) (m : Nat) :
    climbed f.parent m i ≤ Nat.log 2 f.size := by
  have hrank := h.rank_add_climbed_le m i
  have hroot := h.rank_root_le hi
  omega

theorem Weighted.repointed_le (h : Weighted f) (hi : i < f.size) (m : Nat) :
    repointed (f.root i) m f.parent i ≤ Nat.log 2 f.size := by
  obtain ⟨k, -, hk⟩ := f.exists_iterate_eq_root i
  have hrank := h.rank_add_repointed_le hk (h.up_root i) m
  have hroot := h.rank_root_le hi
  omega

theorem Weighted.climb_eq_root (h : Weighted f) (hi : i < f.size) (hm : Nat.log 2 f.size ≤ m) :
    climb f.parent m i = f.root i := by
  by_cases hle : m ≤ f.size
  · exact climb_of_climbed_le (Nat.le_trans (h.climbed_le hi _) hm) hle
  · exact h.toRanked.climb_eq_root (by omega) i

theorem Weighted.repoint_eq_compress (h : Weighted f) (hi : i < f.size) (hm : Nat.log 2 f.size ≤ m) :
    repoint (f.root i) m f.parent i = (f.compress i).parent := by
  by_cases hle : m ≤ f.size
  · exact repoint_of_repointed_le (Nat.le_trans (h.repointed_le hi _) hm) hle
  · exact h.toRanked.repoint_eq_compress (by omega) i

theorem Weighted.shallow (h : Weighted f) : Shallow f f.size where
  rank_lt i _ hup := h.rank_lt i hup
  weight r hr hup := h.weight r hr (h.root_of_up hup)
  links i hi := by
    refine ⟨by rw [find_of_lt hi], h.up_root i, climbed f.parent f.size i, h.climbed_le hi _, ?_⟩
    exact (f.climb_eq_iterate_climbed f.size i).symm
  steps i hi m := ⟨h.climbed_le hi m, h.repointed_le hi m⟩
  ends i hi m hm := by
    rw [find_of_lt hi]
    exact ⟨h.climb_eq_root hi hm, h.repoint_eq_compress hi hm⟩

/-- After every history paths are short. -/
theorem shallow_moved [DecidableEq α] (n : Nat) (steps : List (Step (Option α))) : Shallow (moved n steps) n := by
  obtain ⟨h, hsize⟩ := weighted_moved n steps
  have hshallow := h.shallow
  rwa [hsize] at hshallow

/-- Equals are united pairwise, so that the bound is met. -/
example : climbed (moved 4 [.union 0 1, .union 2 3, .bind 2 (some 'x'), .union 1 3] : Forest Char).parent 4 3 =
    Nat.log 2 4 := by rfl

end Entail.Forest
