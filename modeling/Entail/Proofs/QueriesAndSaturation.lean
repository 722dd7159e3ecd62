import Entail.Proofs.Growth

/-!
# Queries stop where saturation goes on

* `Keeps.stepped`, `Keeps.round`, `Keeps.checkCeilings` : names that only one of two reasoners has make no difference to
  rounds and ceilings, so none to a loop of rounds (`Loops.keeps`);
* `Loops.exists_stop` : rounds that end at a fixpoint, stopped as soon as what was looked for is there;
* `query_of_saturate` : so a query of a reasoner that saturates finds what saturation finds, with the same derivation,
  and of any other atom it says that it is not entailed, whatever the ceilings.
-/

namespace Entail.Reasoner

variable {r s t : Reasoner}

/-! ## Names make no difference -/

theorem Keeps.insert (h : Keeps r s) (a : Coded.Atom) (sup : Support) :
    Keeps (r.insert a sup).2 (s.insert a sup).2 := by
  by_cases hmem : a ∈ r.atoms
  · rw [insert_of_mem hmem, insert_of_mem (h.atoms ▸ hmem)]
    exact h
  · have hconsistent : s.isConsistent = r.isConsistent := by rw [isConsistent, h.contradiction, isConsistent]
    have hbottom : s.isBottom a = r.isBottom a := by rw [isBottom, h.bottom, isBottom]
    rw [insert_of_not_mem hmem, insert_of_not_mem (h.atoms ▸ hmem)]
    exact { h with known := by simp only [h.known], supports := by simp only [h.supports],
                   contradiction := by simp only [hconsistent, hbottom, h.contradiction] }

theorem Keeps.holdAll (h : Keeps r s) (g : Nat) (ps : List Coded.Application) :
    Keeps (r.holdAll g ps) (s.holdAll g ps) := by
  induction ps generalizing r s with
  | nil => exact h
  | cons p ps ih => exact ih (h.insert p.conclusion ⟨p.premises, some p.rule, g⟩)

theorem Keeps.stepped (h : Keeps r s) : Keeps r.stepped s.stepped := by
  have hall : Keeps (r.holdAll (r.generation + 1) r.fresh) (s.holdAll (s.generation + 1) s.fresh) := by
    rw [h.fresh, h.generation]
    exact h.holdAll _ _
  exact { hall with generation := by simp only [Reasoner.stepped, h.fresh, h.generation] }

theorem Keeps.advance (h : Keeps r s) (hr : r.contradiction = none) : Keeps r.advance.2 s.advance.2 := by
  have hs := h.stepped
  rw [advance_eq hr, advance_eq (h.contradiction.trans hr)]
  exact ⟨hs.settings, hs.known, hs.supports, hs.rules, hs.generation, hs.bottom, hs.contradiction, hs.table, hs.distinct⟩

/-- A round that succeeds succeeds alike with more names. -/
theorem Keeps.round (h : Keeps r s) {n : Nat} (hr : r.round = (.ok n, t)) :
    ∃ t', s.round = (.ok n, t') ∧ Keeps t t' := by
  obtain ⟨hnone, hn, -, hend⟩ := round_eq_ok hr
  rw [round_of_consistent hnone] at hr
  obtain ⟨-, rfl⟩ := Prod.mk.inj hr
  have hs := h.contradiction.trans hnone
  have hk := h.advance hnone
  refine ⟨s.advance.2, ?_, hk⟩
  rw [round_of_consistent hs, checkConsistent_eq_ok.2 (hk.contradiction.trans hend), advance_fst hs, h.fresh, ← hn]
  rfl

theorem Keeps.checkCeilings (h : Keeps r s) {n : Nat} (hc : r.checkCeilings n = (.ok (), r)) :
    s.checkCeilings n = (.ok (), s) := by
  have hcount : s.factCount = r.factCount := by rw [factCount, h.known, factCount]
  obtain ⟨journal, hr⟩ := r.checkCeilings_eq n
  obtain ⟨journal', hs⟩ := s.checkCeilings_eq n
  rw [h.settings, hcount, ← (Prod.mk.inj (hc.symm.trans hr)).1] at hs
  rw [hs, ← checkCeilings_ok hs]

/-- A loop that ends at a fixpoint ends alike with more names. -/
theorem Loops.keeps {n k : Nat} {x : Ending} (hl : Loops (fun _ => False) n r k x t) (hx : x = .fixpoint)
    (h : Keeps r s) : ∃ t', Loops (fun _ => False) n s k x t' ∧ Keeps t t' := by
  induction hl generalizing s with
  | fixpoint hstop hc hr =>
    obtain ⟨t', hround, hk⟩ := h.round hr
    exact ⟨t', .fixpoint hstop (h.checkCeilings hc) hround, hk⟩
  | productive hstop hc hr _ ih =>
    obtain ⟨s', hround, hk⟩ := h.round hr
    obtain ⟨t', hloop, hend⟩ := ih hx hk
    exact ⟨t', .productive hstop (h.checkCeilings hc) hround hloop, hend⟩
  | stopped | ceiling | failed => cases hx

/-! ## Stopping early -/

/-- A loop that ends at a fixpoint takes no more rounds if it may stop before, and comes to the same fixpoint if it never
does. -/
theorem Loops.exists_stop (stop : Reasoner → Prop) {n k : Nat} {x : Ending}
    (h : Loops (fun _ => False) n r k x s) (hx : x = .fixpoint) :
    ∃ m ≤ k, (∃ t, Loops stop n r m .stopped t ∧ Search t s) ∨ Loops stop n r m .fixpoint s := by
  induction h with
  | @fixpoint n r s _ hc hr =>
    by_cases hstop : stop r
    · have hs := search_round r
      rw [hr] at hs
      exact ⟨0, Nat.le_refl _, .inl ⟨r, .stopped hstop, hs⟩⟩
    · exact ⟨0, Nat.le_refl _, .inr (.fixpoint hstop hc hr)⟩
  | @productive n m k r s t x hnot hc hr rest ih =>
    by_cases hstop : stop r
    · subst hx
      exact ⟨0, Nat.zero_le _, .inl ⟨r, .stopped hstop, (Loops.productive hnot hc hr rest).search⟩⟩
    · obtain ⟨m', hle, ⟨t', hloop, hsearch⟩ | hloop⟩ := ih hx
      · exact ⟨m' + 1, Nat.succ_le_succ hle, .inl ⟨t', .productive hstop hc hr hloop, hsearch⟩⟩
      · exact ⟨m' + 1, Nat.succ_le_succ hle, .inr (.productive hstop hc hr hloop)⟩
  | stopped | ceiling | failed => cases hx

/-- What was looked for up to a fixpoint is not there. -/
theorem Loops.not_mem_of_fixpoint {goal : Coded.Atom} {n k : Nat}
    (h : Loops (fun s => goal ∈ s.atoms) n r k .fixpoint s) : goal ∉ s.atoms := by
  obtain ⟨last, -, hnot, hround⟩ := h.exists_last rfl
  obtain ⟨-, hlen, hk, -⟩ := round_eq_ok hround
  rw [stepped_of_fresh_eq_nil (List.length_eq_zero_iff.1 hlen.symm)] at hk
  rwa [hk.atoms]

/-- A loop that ends at a fixpoint was begun without a contradiction. -/
theorem Loops.consistent_of_fixpoint {stop : Reasoner → Prop} {n k : Nat} (h : Loops stop n r k .fixpoint s) :
    r.contradiction = none := by
  cases h with
  | fixpoint _ _ hr => exact (round_eq_ok hr).1
  | productive _ _ hr _ => exact (round_eq_ok hr).1

/-! ## Queries of a reasoner that saturates -/

/-- Up to names, a query that follows the rounds of a saturation stops on the way or comes to its end. -/
theorem Coherent.query_of_fixpoint (h : Coherent r) {k : Nat} (hl : Loops (fun _ => False) 0 r k .fixpoint t)
    (hk : k < r.roundBudget) {target : Atom} (hg : target.isGround) :
    ∃ w, Keeps t w ∧ Grows (r.query target).2 w ∧
      ((∃ d, (r.query target).1 = .ok (some d)) ∨
        (r.query target).1 = .error (.notEntailed target) ∧
          ∃ goal, goal.Reads w.symbols [] target ∧ goal ∉ w.atoms) := by
  have hc := checkConsistent_eq_ok.2 hl.consistent_of_fixpoint
  obtain ⟨goal, u, he⟩ := Atom.exists_encode hg r.symbols
  obtain ⟨-, -, hgoal⟩ := Atom.encode_reads he
  have hasked := h.keeps (keeps_asked he)
  obtain ⟨w, hloop, hkeeps⟩ := hl.keeps rfl (keeps_asked he)
  refine ⟨w, hkeeps, ?_⟩
  have hrun : ∀ {m : Nat} {x : Ending} {v : Reasoner}, m ≤ k → Loops (fun s => goal ∈ s.atoms) 0 (r.asked u) m x v →
      ∃ journal, searchFrom target goal (r.roundBudget + 1) 0 (r.asked u) =
        (x.searched target (0 + m), { v with journal := journal }) :=
    fun hle hx => searchFrom_of_loops hx (by omega)
  obtain ⟨m, hle, ⟨v, hstopped, hsearch⟩ | hfixpoint⟩ := hloop.exists_stop (fun s => goal ∈ s.atoms) rfl
  -- the target is met on the way, and what the saturation still holds after that only adds to it
  · obtain ⟨journal, hfound⟩ := hrun hle hstopped
    obtain ⟨text, hq⟩ := query_of_found hc he hfound
    obtain ⟨d, hd, -⟩ := h.derive_of_found he hfound
    have hv := search_searchFrom target goal (r.roundBudget + 1) 0 (r.asked u)
    rw [hfound] at hv
    have hgrows : Grows ({ v with journal := journal } : Reasoner) w :=
      (hasked.search hv).grows_search (.trans (.rest (keeps_journal _ v.journal)) hsearch)
    rw [hq]
    exact ⟨⟨hgrows.settings, hgrows.table, hgrows.supports, hgrows.rules⟩, .inl ⟨d, hd⟩⟩
  -- it is not met, and the round that finds nothing is the last of both
  · obtain ⟨journal, hfailed⟩ := hrun hle hfixpoint
    rw [query_of_failed hc he hfailed]
    refine ⟨⟨rfl, .refl _, List.prefix_rfl, List.prefix_rfl⟩, .inr ⟨rfl, goal, ?_, hfixpoint.not_mem_of_fixpoint⟩⟩
    exact hgoal.mono hfixpoint.search.table List.prefix_rfl

/-- If saturation returns, then so does a query of any fact it comes to, with the derivation that the fact has in the
end, and a query of any other ground atom says that it is not entailed. What a query leaves behind is held in what
saturation leaves behind. -/
theorem query_of_saturate (settings : Settings) (journal : Journal) (rules : List Rule) (qs : List Request) {n : Nat}
    (hsat : (after settings journal rules qs).saturate = (.ok n, s)) (target : Atom) (hg : target.isGround) :
    (s.contains target → ∃ d, ((after settings journal rules qs).query target).1 = .ok (some d) ∧
      s.derivationOf target = .ok (some d)) ∧
    (s.contains target = false →
      ((after settings journal rules qs).query target).1 = .error (.notEntailed target)) ∧
    HeldIn ((after settings journal rules qs).query target).2 s := by
  obtain ⟨p, -, h⟩ := refines_after settings journal rules qs
  have hc := coherent_after settings journal rules qs
  generalize after settings journal rules qs = r at h hc hsat ⊢
  obtain ⟨p₁, -, hend⟩ := h.saturate_eq hc
  obtain ⟨p₂, -, hasked⟩ := h.query_eq hc target
  have hcend := hc.search (search_saturate r)
  have hcasked := hc.search (search_query r target)
  obtain ⟨k, x, t, lines, hloop, hk, heq⟩ := hc.exists_saturate
  rw [hsat] at hend hcend heq
  obtain ⟨hout, rfl⟩ := Prod.mk.inj heq
  cases x with
  | stopped => exact (hloop.stop_of_stopped rfl).elim
  | failed e => cases hout
  | fixpoint =>
    obtain ⟨w, hkeeps, hgrows, hcases⟩ := hc.query_of_fixpoint hloop hk hg
    have hkw : Keeps { t with journal := lines } w := .trans (keeps_journal _ t.journal) hkeeps
    have hheld := hasked.heldIn hend hcasked hcend hgrows hkw
    obtain ⟨d, hd⟩ | ⟨hfail, goal, hread, hnot⟩ := hcases
    · obtain ⟨-, hmem, hderiv⟩ := hc.contains_of_query (Prod.ext hd rfl)
      obtain ⟨d', hd', hlast⟩ := hheld.derivationOf target hmem
      obtain rfl := Option.some.inj (Except.ok.inj (hderiv.symm.trans hd'))
      refine ⟨fun _ => ⟨d, hd, hlast⟩, fun hno => ?_, hheld⟩
      rw [hheld.contains target hmem] at hno
      cases hno
    · refine ⟨fun hmem => ?_, fun _ => hfail, hheld⟩
      obtain ⟨a, ha, -, hreada⟩ := hcend.exists_of_contains hmem
      have hsame : a = goal :=
        (hreada.mono hkw.table List.prefix_rfl).inj (hcend.keeps hkw).distinct List.nodup_nil hread
      rw [← hkw.atoms, hsame] at ha
      exact absurd ha hnot

/-- Two links are joined in one direction only. -/
theorem query_of_saturate_joined :
    (after exhaustive .empty joined []).saturate.1 = .ok 1 ∧
    (∃ d, ((after exhaustive .empty joined []).query ⟨"reach", [.const "a", .const "c"]⟩).1 = .ok (some d) ∧
      (after exhaustive .empty joined []).saturate.2.derivationOf ⟨"reach", [.const "a", .const "c"]⟩ = .ok (some d)) ∧
    ((after exhaustive .empty joined []).query ⟨"reach", [.const "c", .const "a"]⟩).1 =
      .error (.notEntailed ⟨"reach", [.const "c", .const "a"]⟩) := by
  have hsat : (after exhaustive .empty joined []).saturate.1 = .ok 1 := by rfl
  obtain ⟨hfound, -⟩ := query_of_saturate exhaustive .empty joined [] (Prod.ext hsat rfl)
    ⟨"reach", [.const "a", .const "c"]⟩ (by rfl)
  obtain ⟨-, hmissed, -⟩ := query_of_saturate exhaustive .empty joined [] (Prod.ext hsat rfl)
    ⟨"reach", [.const "c", .const "a"]⟩ (by rfl)
  exact ⟨hsat, hfound (by rfl), hmissed (by rfl)⟩

end Entail.Reasoner
