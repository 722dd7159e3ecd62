import Entail.Proofs.Certificates
import Mathlib.Data.Set.Card

/-!
# Rounds end

* `Loops` : rounds one after the other with no bound on their number, as queries and saturation ask for them;
* `openConclusions r` : the ground atoms over the constants of `r` that a rule might still conclude; finitely many,
  and fewer after each productive round (`Coherent.ncard_stepped_lt`);
* `Coherent.exists_loops` : so every loop ends, after no more productive rounds than there are such atoms, whatever the
  ceilings;
* `saturateFrom_of_loops`, `searchFrom_of_loops` : a bound on rounds above that number cuts no loop short;
* `RoundsEnd r` : what this says of saturation and of queries (`roundsEnd_after`).
-/

namespace Entail.Reasoner

open Coded (Application)

variable {r s t : Reasoner}

/-! ## Loops of rounds -/

inductive Ending where
  | stopped
  | fixpoint
  | failed (e : Failure)

/-- Rounds after `n` rounds, until a reasoner satisfies `stop`; the second number counts those that hold new facts. -/
inductive Loops (stop : Reasoner → Prop) : Nat → Reasoner → Nat → Ending → Reasoner → Prop
  | stopped {n : Nat} {r : Reasoner} (h : stop r) : Loops stop n r 0 .stopped r
  | ceiling {n : Nat} {r s : Reasoner} {e : Failure} (h : ¬ stop r) (hc : r.checkCeilings n = (.error e, s)) :
      Loops stop n r 0 (.failed e) s
  | failed {n : Nat} {r s : Reasoner} {e : Failure} (h : ¬ stop r) (hc : r.checkCeilings n = (.ok (), r))
      (hr : r.round = (.error e, s)) : Loops stop n r (if s.atoms = r.atoms then 0 else 1) (.failed e) s
  | fixpoint {n : Nat} {r s : Reasoner} (h : ¬ stop r) (hc : r.checkCeilings n = (.ok (), r))
      (hr : r.round = (.ok 0, s)) : Loops stop n r 0 .fixpoint s
  | productive {n m k : Nat} {r s t : Reasoner} {x : Ending} (h : ¬ stop r) (hc : r.checkCeilings n = (.ok (), r))
      (hr : r.round = (.ok (m + 1), s)) (rest : Loops stop (n + 1) s k x t) : Loops stop n r (k + 1) x t

theorem Loops.stop_of_stopped {stop : Reasoner → Prop} {n k : Nat} {x : Ending} (h : Loops stop n r k x s)
    (hx : x = .stopped) : stop s := by
  induction h with
  | stopped h => exact h
  | productive _ _ _ _ ih => exact ih hx
  | ceiling | failed | fixpoint => cases hx

theorem Loops.search {stop : Reasoner → Prop} {n k : Nat} {x : Ending} (h : Loops stop n r k x s) : Search r s := by
  induction h with
  | stopped => exact .refl _
  | @ceiling n r s e _ hc =>
    have hk := keeps_checkCeilings r n
    rw [hc] at hk
    exact .rest hk
  | @failed n r s e _ _ hr | @fixpoint n r s _ _ hr =>
    have hs := search_round r
    rw [hr] at hs
    exact hs
  | @productive n m k r s t x _ _ hr _ ih =>
    have hs := search_round r
    rw [hr] at hs
    exact hs.trans ih

/-- A loop that ends at a fixpoint has found nothing in its last round. -/
theorem Loops.exists_last {stop : Reasoner → Prop} {n k : Nat} {x : Ending} (h : Loops stop n r k x s)
    (hx : x = .fixpoint) : ∃ last, Search r last ∧ ¬ stop last ∧ last.round = (.ok 0, s) := by
  induction h with
  | @fixpoint n r s hstop _ hr => exact ⟨r, .refl r, hstop, hr⟩
  | @productive n m k r s t x _ _ hr _ ih =>
    obtain ⟨last, hlast, hstop, hround⟩ := ih hx
    have hs := search_round r
    rw [hr] at hs
    exact ⟨last, hs.trans hlast, hstop, hround⟩
  | stopped | ceiling | failed => cases hx

/-! ## What may still be concluded -/

theorem mem_constants {c : Symbol} :
    c ∈ r.constants ↔ (∃ a ∈ r.atoms, .sym c ∈ a.args) ∨ ∃ rule ∈ r.rules, .sym c ∈ rule.conclusion.args := by
  have hsym : ∀ x : Coded.Term, x.symbol? = some c ↔ x = .sym c := by
    intro x
    cases x <;> simp [Coded.Term.symbol?]
  simp only [constants, List.mem_eraseDups, List.mem_flatMap, List.mem_append, List.mem_map, List.mem_filterMap, hsym,
    exists_eq_right]
  constructor
  · rintro ⟨a, ha | ⟨rule, hrule, rfl⟩, hc⟩
    · exact .inl ⟨a, ha, hc⟩
    · exact .inr ⟨rule, hrule, hc⟩
  · rintro (⟨a, ha, hc⟩ | ⟨rule, hrule, hc⟩)
    · exact ⟨a, .inl ha, hc⟩
    · exact ⟨_, .inr ⟨rule, hrule, rfl⟩, hc⟩

/-- The atoms that are no facts, have predicate and number of arguments of some rule's conclusion, and whose arguments
are constants of facts and of conclusions. -/
def openConclusions (r : Reasoner) : Set Coded.Atom :=
  {a | a ∉ r.atoms ∧ (∃ c ∈ r.rules, a.predicate = c.conclusion.predicate ∧ a.arity = c.conclusion.arity) ∧
    ∀ x ∈ a.args, ∃ c ∈ r.constants, x = .sym c}

theorem Keeps.openConclusions (h : Keeps r s) : s.openConclusions = r.openConclusions := by
  have hc : s.constants = r.constants := by rw [constants, h.atoms, h.rules, constants]
  rw [Reasoner.openConclusions, h.atoms, h.rules, hc, Reasoner.openConclusions]

/-- The atoms with the shape of a conclusion, over the constants. -/
def conclusions (r : Reasoner) : List Coded.Atom :=
  r.rules.flatMap fun c =>
    (Selection.unrestricted c.conclusion.arity r.constants).map fun ss => ⟨c.conclusion.predicate, ss.map .sym⟩

theorem length_conclusions (r : Reasoner) : r.conclusions.length + 1 = r.roundBudget := by
  rw [conclusions, roundBudget]
  induction r.rules with
  | nil => rfl
  | cons c rules ih =>
    simp only [List.flatMap_cons, List.length_append, List.length_map, Selection.length_unrestricted, List.map_cons,
      List.foldr_cons] at ih ⊢
    omega

theorem openConclusions_subset (r : Reasoner) : r.openConclusions ⊆ {a | a ∈ r.conclusions} := by
  rintro ⟨p, args⟩ ⟨-, ⟨c, hc, hpred, harity⟩, hargs⟩
  obtain ⟨ss, hss⟩ : ∃ ss, List.Forall₂ (fun x s => s ∈ r.constants ∧ x = .sym s) args ss :=
    exists_forall₂ hargs
  refine List.mem_flatMap.2 ⟨c, hc, List.mem_map.2 ⟨ss, Selection.mem_unrestricted.2 ⟨?_, fun s hs => ?_⟩, ?_⟩⟩
  · rw [← harity, Coded.Atom.arity, hss.length_eq]
  · obtain ⟨x, -, hx, -⟩ := exists_left_of_forall₂ hss hs
    exact hx
  · have hmap : ss.map Coded.Term.sym = args := by
      rw [← List.forall₂_eq_eq_eq, List.forall₂_map_left_iff]
      exact hss.flip.imp fun _ _ h => h.2.symm
    rw [← hpred, hmap]

theorem finite_openConclusions (r : Reasoner) : r.openConclusions.Finite :=
  (List.finite_toSet r.conclusions).subset r.openConclusions_subset

theorem ncard_openConclusions_lt (r : Reasoner) : r.openConclusions.ncard < r.roundBudget := by
  have hle : r.openConclusions.ncard ≤ r.conclusions.length := by
    refine (Set.ncard_le_ncard r.openConclusions_subset (List.finite_toSet _)).trans ?_
    rw [← List.coe_toFinset, Set.ncard_coe_finset]
    exact List.toFinset_card_le _
  have := r.length_conclusions
  omega

/-- A round brings no new constants. -/
theorem Coherent.constants_stepped (h : Coherent r) {c : Symbol} (hc : c ∈ r.stepped.constants) : c ∈ r.constants := by
  rw [mem_constants, h.atoms_stepped, r.stepped_frame.rules] at hc
  rw [mem_constants]
  rcases hc with ⟨a, ha, hca⟩ | hc
  · rcases List.mem_append.1 ha with ha | ha
    · exact .inl ⟨a, ha, hca⟩
    · obtain ⟨p, hp, rfl⟩ := List.mem_map.1 ha
      obtain ⟨hrule, -, hheld, hy, -⟩ := h.application (mem_applications_of_fresh hp)
      rcases hy.symbols.2.2 c hca with hconc | ⟨f, hf, hcf⟩
      · exact .inr ⟨p.rule, hrule, hconc⟩
      · exact .inl ⟨f, hheld f hf, hcf⟩
  · exact .inr hc

/-- What a round holds might have been concluded before it. -/
theorem Coherent.conclusion_mem (h : Coherent r) {p : Application} (hp : p ∈ r.fresh) :
    p.conclusion ∈ r.openConclusions := by
  obtain ⟨hrule, -, hheld, hy, -⟩ := h.application (mem_applications_of_fresh hp)
  obtain ⟨hpred, harity, hargs⟩ := hy.symbols
  refine ⟨fun hmem => ?_, ⟨p.rule, hrule, hpred, harity⟩, fun x hx => ?_⟩
  · exact (List.nodup_append.1 h.nodup_fresh).2.2 _ hmem _ (List.mem_map_of_mem hp) rfl
  · cases x with
    | slot i => exact absurd hx (Coded.Atom.isGround_iff.1 hy.isGround i)
    | sym c =>
      refine ⟨c, mem_constants.2 ?_, rfl⟩
      rcases hargs c hx with hconc | ⟨f, hf, hcf⟩
      · exact .inr ⟨p.rule, hrule, hconc⟩
      · exact .inl ⟨f, hheld f hf, hcf⟩

/-- A productive round leaves less to conclude. -/
theorem Coherent.ncard_stepped_lt (h : Coherent r) (hne : r.fresh ≠ []) :
    r.stepped.openConclusions.ncard < r.openConclusions.ncard := by
  obtain ⟨p, hp⟩ := List.exists_mem_of_ne_nil _ hne
  refine Set.ncard_lt_ncard ⟨fun a ha => ?_, fun hsub => ?_⟩ r.finite_openConclusions
  · obtain ⟨hnot, hshape, hargs⟩ := ha
    rw [h.atoms_stepped, List.mem_append, not_or] at hnot
    rw [r.stepped_frame.rules] at hshape
    refine ⟨hnot.1, hshape, fun x hx => ?_⟩
    obtain ⟨c, hc, hxc⟩ := hargs x hx
    exact ⟨c, h.constants_stepped hc, hxc⟩
  · obtain ⟨hnot, -⟩ := hsub (h.conclusion_mem hp)
    refine hnot ?_
    rw [h.atoms_stepped]
    exact List.mem_append_right _ (List.mem_map_of_mem hp)

/-! ## All loops end -/

theorem checkCeilings_of_none (h₁ : r.settings.maxRounds = none) (h₂ : r.settings.maxFacts = none) (n : Nat) :
    r.checkCeilings n = (.ok (), r) := by
  simp only [checkCeilings, checkCeiling, h₁, h₂]

theorem checkCeilings_cases (r : Reasoner) (n : Nat) :
    (∃ e s, r.checkCeilings n = (.error e, s)) ∨ r.checkCeilings n = (.ok (), r) := by
  cases h : r.checkCeilings n with
  | mk out s =>
    cases out with
    | error e => exact .inl ⟨e, s, rfl⟩
    | ok _ => exact .inr (by rw [checkCeilings_ok h])

/-- What a round does: nothing if there is a contradiction already; else it ends with one, or with the count of what it
holds. -/
theorem Coherent.round_cases (h : Coherent r) :
    (∃ a d, r.round = (.error (.contradiction a (some d)), r)) ∨
    ∃ s, Keeps r.stepped s ∧ Coherent s ∧
      ((∃ a d, r.round = (.error (.contradiction a (some d)), s)) ∨ r.round = (.ok r.fresh.length, s)) := by
  obtain ⟨hc, -⟩ | ⟨-, x, d, -, -, -, -, herr, -⟩ := h.checkConsistent_cases
  · have hk := keeps_advance hc
    have hs := h.stepped.keeps hk
    refine .inr ⟨_, hk, hs, ?_⟩
    rw [round_of_consistent hc, advance_fst hc]
    obtain ⟨-, hok⟩ | ⟨-, x, d, -, -, -, -, herr, -⟩ := hs.checkConsistent_cases
    · exact .inr (by rw [hok]; rfl)
    · exact .inl ⟨x, d, by rw [herr]; rfl⟩
  · exact .inl ⟨x, d, round_of_inconsistent herr⟩

/-- A loop ends, after at most as many productive rounds as there are atoms to conclude; without ceilings it fails for
no other reason than a contradiction. -/
theorem Coherent.exists_loops (stop : Reasoner → Prop) {r : Reasoner} (h : Coherent r) (n : Nat) :
    ∃ k x s, Loops stop n r k x s ∧ k ≤ r.openConclusions.ncard ∧
      (r.settings.maxRounds = none → r.settings.maxFacts = none →
        ∀ e, x = .failed e → ∃ a d, e = .contradiction a (some d)) := by
  induction hm : r.openConclusions.ncard using Nat.strong_induction_on generalizing r n with
  | _ m ih =>
    by_cases hstop : stop r
    · exact ⟨0, _, r, .stopped hstop, Nat.zero_le _, fun _ _ e he => by cases he⟩
    · obtain ⟨e, s, hc⟩ | hc := r.checkCeilings_cases n
      · refine ⟨0, _, s, .ceiling hstop hc, Nat.zero_le _, fun hr hf => ?_⟩
        rw [checkCeilings_of_none hr hf] at hc
        cases hc
      · obtain ⟨a, d, hround⟩ | ⟨s, hk, hs, ⟨a, d, hround⟩ | hround⟩ := h.round_cases
        · refine ⟨_, _, r, .failed hstop hc hround, by simp, fun _ _ e he => ?_⟩
          cases he
          exact ⟨a, d, rfl⟩
        · refine ⟨_, _, s, .failed hstop hc hround, ?_, fun _ _ e he => ?_⟩
          · split_ifs with hatoms
            · exact Nat.zero_le _
            · have hne : r.fresh ≠ [] := by
                intro hnil
                rw [hk.atoms, h.atoms_stepped, hnil] at hatoms
                exact hatoms (List.append_nil _)
              have := h.ncard_stepped_lt hne
              omega
          · cases he
            exact ⟨a, d, rfl⟩
        · cases hfresh : r.fresh with
          | nil =>
            rw [hfresh] at hround
            exact ⟨0, _, s, .fixpoint hstop hc hround, Nat.zero_le _, fun _ _ e he => by cases he⟩
          | cons p ps =>
            have hlt := h.ncard_stepped_lt (by rw [hfresh]; exact List.cons_ne_nil p ps)
            rw [← hk.openConclusions, hm] at hlt
            have hset : s.settings = r.settings := hk.settings.trans r.stepped_frame.settings
            rw [hfresh, List.length_cons] at hround
            obtain ⟨k, x, t, hloop, hle, hx⟩ := ih _ hlt hs (n + 1) rfl
            rw [hset] at hx
            exact ⟨k + 1, x, t, .productive hstop hc hround hloop, by omega, hx⟩

/-! ## Bounded loops -/

def Ending.saturated (rounds : Nat) : Ending → Except Failure Nat
  | .failed e => .error e
  | _ => .ok rounds

def Ending.searched (target : Atom) (rounds : Nat) : Ending → Except Failure Nat
  | .stopped => .ok rounds
  | .fixpoint => .error (.notEntailed target)
  | .failed e => .error e

theorem saturateFrom_of_loops {n k fuel : Nat} {x : Ending} (h : Loops (fun _ => False) n r k x s) (hk : k < fuel) :
    saturateFrom fuel n r = (x.saturated (n + k), s) := by
  induction h generalizing fuel with
  | stopped h => exact h.elim
  | ceiling _ hc =>
    obtain ⟨fuel, rfl⟩ := Nat.exists_eq_add_of_lt hk
    simp only [saturateFrom, hc, Ending.saturated]
  | failed _ hc hr =>
    obtain ⟨fuel, rfl⟩ := Nat.exists_eq_add_of_lt hk
    simp only [saturateFrom, hc, hr, Ending.saturated]
  | fixpoint _ hc hr =>
    obtain ⟨fuel, rfl⟩ := Nat.exists_eq_add_of_lt hk
    simp only [Nat.add_zero, saturateFrom, hc, hr, Ending.saturated]
  | @productive n m k r s t x _ hc hr _ ih =>
    obtain ⟨fuel, rfl⟩ := Nat.exists_eq_add_of_lt hk
    simp only [saturateFrom, hc, hr]
    rw [ih (by omega), Nat.add_assoc n 1 k, Nat.add_comm 1 k]

/-- A search ends as its rounds do, lines of the journal apart. -/
theorem searchFrom_of_loops {target : Atom} {goal : Coded.Atom} {n k fuel : Nat} {x : Ending}
    (h : Loops (fun s => goal ∈ s.atoms) n r k x s) (hk : k < fuel) :
    ∃ journal, searchFrom target goal fuel n r = (x.searched target (n + k), { s with journal := journal }) := by
  induction h generalizing fuel with
  | stopped h =>
    obtain ⟨fuel, rfl⟩ := Nat.exists_eq_add_of_lt hk
    simp only [Nat.zero_add, searchFrom, if_pos (holds_iff.2 h), Nat.add_zero, Ending.searched]
    exact ⟨_, rfl⟩
  | ceiling h hc =>
    obtain ⟨fuel, rfl⟩ := Nat.exists_eq_add_of_lt hk
    rw [← holds_iff] at h
    simp only [searchFrom, if_neg h, hc, Ending.searched]
    exact ⟨_, rfl⟩
  | @failed n r s e h hc hr =>
    obtain ⟨fuel, rfl⟩ := Nat.exists_eq_add_of_lt hk
    rw [← holds_iff] at h
    simp only [searchFrom, if_neg h, hc, hr, Ending.searched]
    cases e <;> exact ⟨_, rfl⟩
  | fixpoint h hc hr =>
    obtain ⟨fuel, rfl⟩ := Nat.exists_eq_add_of_lt hk
    rw [← holds_iff] at h
    simp only [searchFrom, if_neg h, hc, hr, Ending.searched]
    exact ⟨_, rfl⟩
  | @productive n m k r s t x h hc hr _ ih =>
    obtain ⟨fuel, rfl⟩ := Nat.exists_eq_add_of_lt hk
    rw [← holds_iff] at h
    simp only [searchFrom, if_neg h, hc, hr]
    rw [← Nat.add_comm 1 k, ← Nat.add_assoc n 1 k]
    exact ih (by omega)

theorem saturate_of_loops {k : Nat} {x : Ending} (h : Loops (fun _ => False) 0 r k x s) (hk : k ≤ r.roundBudget) :
    ∃ journal, r.saturate = (x.saturated k, { s with journal := journal }) := by
  rw [saturate, saturateFrom_of_loops h (Nat.lt_succ_of_le hk), Nat.zero_add]
  cases x <;> exact ⟨_, rfl⟩

/-- Saturation is a loop of rounds that ends within its bound. -/
theorem Coherent.exists_saturate (h : Coherent r) :
    ∃ k x s journal, Loops (fun _ => False) 0 r k x s ∧ k < r.roundBudget ∧
      r.saturate = (x.saturated k, { s with journal := journal }) := by
  obtain ⟨k, x, s, hloop, hk, -⟩ := h.exists_loops (fun _ => False) 0
  have hlt := hk.trans_lt r.ncard_openConclusions_lt
  obtain ⟨journal, hsat⟩ := saturate_of_loops hloop hlt.le
  exact ⟨k, x, s, journal, hloop, hlt, hsat⟩

/-- The search of a query is a loop of rounds that ends within its bound. -/
theorem Coherent.exists_search (h : Coherent r) {target : Atom} {goal : Coded.Atom} {u : SymbolTable}
    (he : target.encode r.symbols = .ok (goal, u)) :
    ∃ k x s journal, Loops (fun s => goal ∈ s.atoms) 0 (r.asked u) k x s ∧ k < r.roundBudget ∧
      searchFrom target goal (r.roundBudget + 1) 0 (r.asked u) =
        (x.searched target k, { s with journal := journal }) := by
  have hk := keeps_asked he
  obtain ⟨k, x, s, hloop, hle, -⟩ := (h.keeps hk).exists_loops (fun s => goal ∈ s.atoms) 0
  rw [hk.openConclusions] at hle
  have hlt := hle.trans_lt r.ncard_openConclusions_lt
  obtain ⟨journal, hrun⟩ : ∃ journal, searchFrom target goal (r.roundBudget + 1) 0 (r.asked u) =
      (x.searched target (0 + k), { s with journal := journal }) := searchFrom_of_loops hloop (Nat.lt_succ_of_lt hlt)
  rw [Nat.zero_add] at hrun
  exact ⟨k, x, s, journal, hloop, hlt, hrun⟩

/-! ## Saturation and queries -/

/-- Saturation and the query of any ground atom end, with an answer or with a contradiction, and no more of their rounds
are productive than there are atoms that may still be concluded. The names that a query adds make no difference. -/
structure RoundsEnd (r : Reasoner) : Prop where
  finite : r.openConclusions.Finite
  saturate : ∃ k x s, Loops (fun _ => False) 0 r k x s ∧ k ≤ r.openConclusions.ncard ∧
    ((x = .fixpoint ∧ r.saturate.1 = .ok k) ∨
      ∃ a d, x = .failed (.contradiction a d) ∧ r.saturate.1 = .error (.contradiction a d))
  query : ∀ target : Atom, target.isGround →
    (∃ a d, r.checkConsistent = .error (.contradiction a d) ∧ (r.query target).1 = .error (.contradiction a d)) ∨
    ∃ goal u k x s, target.encode r.symbols = .ok (goal, u) ∧ (r.asked u).openConclusions = r.openConclusions ∧
      Loops (fun s => goal ∈ s.atoms) 0 (r.asked u) k x s ∧ k ≤ r.openConclusions.ncard ∧
      ((x = .stopped ∧ ∃ d, (r.query target).1 = .ok (some d)) ∨
        (x = .fixpoint ∧ (r.query target).1 = .error (.notEntailed target)) ∨
        ∃ a d, x = .failed (.contradiction a d) ∧ (r.query target).1 = .error (.contradiction a d))

theorem Coherent.roundsEnd (h : Coherent r) (hr : r.settings.maxRounds = none) (hf : r.settings.maxFacts = none) :
    RoundsEnd r := by
  refine ⟨r.finite_openConclusions, ?_, fun target hg => ?_⟩
  · obtain ⟨k, x, s, hloop, hk, hx⟩ := h.exists_loops (fun _ => False) 0
    refine ⟨k, x, s, hloop, hk, ?_⟩
    obtain ⟨journal, hsat⟩ := saturate_of_loops hloop (hk.trans r.ncard_openConclusions_lt.le)
    cases x with
    | stopped => exact (hloop.stop_of_stopped rfl).elim
    | fixpoint => exact .inl ⟨rfl, by rw [hsat]; rfl⟩
    | failed e =>
      obtain ⟨a, d, rfl⟩ := hx hr hf e rfl
      exact .inr ⟨a, some d, rfl, by rw [hsat]; rfl⟩
  · obtain ⟨-, hc⟩ | ⟨-, a, d, -, -, -, -, herr, -⟩ := h.checkConsistent_cases
    · right
      obtain ⟨goal, u, he⟩ := Atom.exists_encode hg r.symbols
      have hk' := keeps_asked he
      have hasked := h.keeps hk'
      obtain ⟨k, x, s, hloop, hk, hx⟩ := hasked.exists_loops (fun s => goal ∈ s.atoms) 0
      rw [hk'.openConclusions] at hk
      refine ⟨goal, u, k, x, s, he, hk'.openConclusions, hloop, hk, ?_⟩
      obtain ⟨journal, hrun⟩ : ∃ journal, searchFrom target goal (r.roundBudget + 1) 0 (r.asked u) =
          (x.searched target (0 + k), { s with journal := journal }) :=
        searchFrom_of_loops hloop (hk.trans_lt (Nat.lt_succ_of_lt r.ncard_openConclusions_lt))
      cases x with
      | stopped =>
        obtain ⟨d, hd, -⟩ := h.derive_of_found he hrun
        obtain ⟨text, hq⟩ := query_of_found hc he hrun
        exact .inl ⟨rfl, d, by rw [hq, hd]⟩
      | fixpoint => exact .inr (.inl ⟨rfl, by rw [query_of_failed hc he hrun]⟩)
      | failed e =>
        obtain ⟨a, d, rfl⟩ := hx hr hf e rfl
        exact .inr (.inr ⟨a, some d, rfl, by rw [query_of_failed hc he hrun]⟩)
    · exact .inl ⟨a, some d, herr, by rw [query_of_inconsistent herr]⟩

theorem roundsEnd_after (settings : Settings) (journal : Journal) (rules : List Rule) (qs : List Request)
    (hr : settings.maxRounds = none) (hf : settings.maxFacts = none) :
    RoundsEnd (after settings journal rules qs) := by
  have hset := settings_after settings journal rules qs
  exact (coherent_after settings journal rules qs).roundsEnd (by rw [hset, hr]) (by rw [hset, hf])

def unbounded : Settings := { maxRounds := none, maxFacts := none }

/-- One round joins two links, and the next one ends the saturation. -/
theorem roundsEnd_joined :
    unbounded.maxRounds = none ∧ unbounded.maxFacts = none ∧
    (after { unbounded with exhaustiveMatching := true } .empty joined []).saturate.1 = .ok 1 ∧
    RoundsEnd (after { unbounded with exhaustiveMatching := true } .empty joined []) :=
  ⟨rfl, rfl, by rfl, roundsEnd_after { unbounded with exhaustiveMatching := true } .empty joined [] rfl rfl⟩

end Entail.Reasoner
