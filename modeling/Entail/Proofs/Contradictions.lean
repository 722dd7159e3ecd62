import Entail.Proofs.Growth
import Entail.Settings.Coercion

/-!
# Contradictions

* `Refines.checkConsistent_of_grows` : a contradiction that was met is met again, with the same derivation, whatever was
  held since;
* `Coherent.checkConsistent_of_failure` : a request that fails with a contradiction leaves behind a reasoner with that
  contradiction and that derivation;
* `Refines.saturate_of_inconsistent` : what saturation comes to then;
* `ContradictionKept r` : the contradiction is the first fact of its predicate and stays; with it no request for facts
  does anything, and all of them tell the same (`contradictionKept_after`);
* `verdicts_after` : queries and rounds always tell it; saturation looks at the ceilings first, and tells it unless there
  are too many facts.
-/

namespace Entail

namespace PlainReasoner

variable {p q : PlainReasoner} {x : Atom} {d? : Option Derivation}

/-- The first contradiction stays the first. -/
theorem Grows.contradiction_eq (h : Grows p q) (hp : p.contradiction = p.atoms.find? p.isBottom)
    (hq : q.contradiction = q.atoms.find? q.isBottom) (hx : p.contradiction = some x) : q.contradiction = some x := by
  obtain ⟨later, hlater⟩ := h.atoms
  have hbottom : q.isBottom = p.isBottom := by
    funext y
    rw [isBottom, h.settings, isBottom]
  rw [hq, hbottom, ← hlater, List.find?_append, ← hp, hx, Option.some_or]

theorem checkConsistent_eq_error :
    p.checkConsistent = .error (.contradiction x d?) ↔ p.contradiction = some x ∧ p.derivation? x = d? := by
  rw [checkConsistent]
  cases p.contradiction with
  | none => simp
  | some y =>
    simp only [Except.error.injEq, Failure.contradiction.injEq, Option.some.injEq]
    exact and_congr_right fun hy => by rw [hy]

end PlainReasoner

namespace Reasoner

variable {r s : Reasoner} {p q : PlainReasoner} {x : Atom} {d? : Option Derivation} {e : Failure}

/-! ## The contradiction that is held -/

theorem Refines.isConsistent_eq (h : Refines r p) (hc : Coherent r) : r.isConsistent = p.contradiction.isNone := by
  have hrel := h.contradiction_rel hc
  rw [isConsistent]
  generalize r.contradiction = a, p.contradiction = b at hrel
  cases hrel <;> rfl

/-- A check fails with the contradiction that is seen and the derivation that is seen of it. -/
theorem Refines.checkConsistent_eq_error_iff (h : Refines r p) (hc : Coherent r) :
    r.checkConsistent = .error (.contradiction x d?) ↔
      r.contradictionAtom = .ok (some x) ∧ r.derivationOf x = .ok d? := by
  rw [h.checkConsistent_eq hc, PlainReasoner.checkConsistent_eq_error, (h.agrees hc).contradictionAtom,
    (h.agrees hc).derivationOf, Except.ok.injEq, Except.ok.injEq]

theorem Coherent.checkConsistent_eq_error (h : Coherent r) (hr : r.isConsistent = false) :
    ∃ x d, r.checkConsistent = .error (.contradiction x (some d)) := by
  obtain ⟨hnone, -⟩ | ⟨-, x, d, -, -, -, -, herr, -⟩ := h.checkConsistent_cases
  · rw [isConsistent, hnone] at hr
    cases hr
  · exact ⟨x, d, herr⟩

/-- A check that fails fails alike later on. -/
theorem Refines.checkConsistent_of_grows (h : Refines r p) (h' : Refines s q) (hc : Coherent r) (hc' : Coherent s)
    (hg : Grows r s) (he : r.checkConsistent = .error (.contradiction x d?)) :
    s.checkConsistent = .error (.contradiction x d?) := by
  rw [h.checkConsistent_eq hc, PlainReasoner.checkConsistent_eq_error] at he
  obtain ⟨hx, hd⟩ := he
  have hmem : x ∈ p.atoms := List.mem_of_find?_eq_some (h.contradiction.symm.trans hx)
  rw [h'.checkConsistent_eq hc', PlainReasoner.checkConsistent_eq_error]
  refine ⟨(h.grows h' hg).contradiction_eq h.contradiction h'.contradiction hx, ?_⟩
  rw [(h.grows h' hg).derivation?_eq (h'.nodup hc') hmem, hd]

/-! ## Failures with a contradiction -/

/-- A failure that any reasoner could account for is no contradiction. -/
theorem ne_contradiction_of_accounts (h : ∀ s : Reasoner, s.Accounts e) : e ≠ .contradiction x d? := by
  rintro rfl
  -- one that holds nothing cannot
  obtain ⟨hx, -⟩ := h (empty {} .empty)
  cases hx

theorem round_eq_error (h : r.round = (.error e, s)) : s.checkConsistent = .error e := by
  cases hc : r.checkConsistent with
  | error f =>
    rw [round_of_inconsistent hc] at h
    obtain ⟨hf, rfl⟩ := Prod.mk.inj h
    rw [hc, Except.error.inj hf]
  | ok _ =>
    rw [round_of_consistent (checkConsistent_eq_ok.1 hc)] at h
    obtain ⟨hout, rfl⟩ := Prod.mk.inj h
    cases hafter : r.advance.2.checkConsistent with
    | error f =>
      rw [hafter] at hout
      rw [Except.error.inj hout]
    | ok _ =>
      rw [hafter] at hout
      cases hout

/-- A loop that fails with a contradiction has met it in its last round. -/
theorem Loops.checkConsistent_eq {stop : Reasoner → Prop} {n k : Nat}
    (h : Loops stop n r k (.failed (.contradiction x d?)) s) : s.checkConsistent = .error (.contradiction x d?) := by
  generalize hy : Ending.failed (.contradiction x d?) = y at h
  induction h with
  | @ceiling n r s e _ hc =>
    have hne : e ≠ .contradiction x d? := ne_contradiction_of_accounts fun _ => accounts_of_checkCeilings (by rw [hc])
    exact absurd (Ending.failed.inj hy).symm hne
  | failed _ _ hr => rw [Ending.failed.inj hy, round_eq_error hr]
  | productive _ _ _ _ ih => exact ih hy
  | stopped | fixpoint => cases hy

theorem Coherent.checkConsistent_of_query (h : Coherent r) {target : Atom}
    (he : (r.query target).1 = .error (.contradiction x d?)) :
    (r.query target).2.checkConsistent = .error (.contradiction x d?) := by
  have hq := r.queried target
  generalize r.query target = out at he hq
  cases hq with
  | inconsistent hc =>
    obtain rfl := Except.error.inj he
    exact hc
  | notGround _ _ => cases he
  | failed _ henc hrun =>
    obtain rfl := Except.error.inj he
    obtain ⟨k, y, t, journal, hloop, -, hsearch⟩ := h.exists_search henc
    obtain ⟨hout, rfl⟩ := Prod.mk.inj (hsearch.symm.trans hrun)
    cases y with
    | stopped => cases hout
    | fixpoint => cases hout
    | failed f =>
      obtain rfl := Except.error.inj hout
      exact hloop.checkConsistent_eq
  | found _ henc hrun hd =>
    obtain ⟨d, hfound, -⟩ := h.derive_of_found henc hrun
    cases hfound.symm.trans (hd.trans he)

theorem Coherent.checkConsistent_of_saturate (h : Coherent r) (he : r.saturate.1 = .error (.contradiction x d?)) :
    r.saturate.2.checkConsistent = .error (.contradiction x d?) := by
  obtain ⟨k, y, s, journal, hloop, -, hsat⟩ := h.exists_saturate
  rw [hsat] at he ⊢
  cases y with
  | stopped => cases he
  | fixpoint => cases he
  | failed f =>
    obtain rfl := Except.error.inj he
    exact hloop.checkConsistent_eq

/-- What fails with a contradiction leaves it behind, and the derivation is the one that is seen of it. -/
theorem Coherent.checkConsistent_of_failure (h : Coherent r) {request : Request}
    (he : (r.answer request).1.failure? = some (.contradiction x d?)) :
    (r.perform request).checkConsistent = .error (.contradiction x d?) := by
  cases request with
  | addRule rule =>
    exact absurd rfl (ne_contradiction_of_accounts fun _ => accounts_addRule (Reply.failure?_added.1 he))
  | addFact a =>
    exact absurd rfl (ne_contradiction_of_accounts fun _ => accounts_addFact (Reply.failure?_added.1 he))
  | query target => exact h.checkConsistent_of_query (Reply.failure?_proved.1 he)
  | saturate => exact h.checkConsistent_of_saturate (Reply.failure?_counted.1 he)
  | round => exact round_eq_error (Prod.ext (Reply.failure?_counted.1 he) rfl)

/-- Saturation of a reasoner with a contradiction holds nothing new; it tells the ceiling that is reached, or else the
contradiction. -/
theorem Refines.saturate_of_inconsistent (h : Refines r p) (hc : Coherent r) (he : r.checkConsistent = .error e) :
    ∃ journal, r.saturate = (.error ((p.atCeilings 0).getD e), { r with journal := journal }) := by
  obtain ⟨journal, hceil⟩ := h.checkCeilings_eq hc.toSupported 0
  have hround : ({ r with journal := journal } : Reasoner).round = (.error e, { r with journal := journal }) :=
    round_of_inconsistent he
  refine ⟨journal, ?_⟩
  rw [saturate, saturateFrom, hceil]
  cases p.atCeilings 0 with
  | some f => rfl
  | none => simp only [Option.elim_none, hround, Option.getD_none]

/-! ## Keeping a contradiction -/

theorem Refines.contradiction_eq_none (h : Refines r p) (hb : r.settings.bottom? = none) : p.contradiction = none := by
  rw [h.contradiction, List.find?_eq_none]
  intro x _
  rw [PlainReasoner.isBottom, ← h.settings, hb]
  simp

/-- Stating rules does not fail with a contradiction. -/
theorem ne_contradiction_of_addRules {rules : List Rule} (h : (r.addRules rules).1 = .error e) :
    e ≠ .contradiction x d? := by
  induction rules generalizing r with
  | nil => cases h
  | cons rule rules ih =>
    rw [addRules] at h
    split at h
    · exact ih h
    · next f s hadd =>
      obtain rfl := Except.error.inj h
      exact ne_contradiction_of_accounts fun _ => accounts_addRule (by rw [hadd])

structure ContradictionKept (r : Reasoner) : Prop where
  /-- It is the first fact with the predicate of the settings. -/
  first : ∀ b, r.settings.bottom? = some b → ∃ facts, r.facts = .ok facts ∧
    (r.isConsistent = false ↔ ∃ x ∈ facts, x.predicate = b) ∧
    r.contradictionAtom = .ok (facts.find? fun x => x.predicate = b)
  /-- If the settings name no predicate there is none, and no request fails with one. -/
  never : r.settings.bottom? = none → r.isConsistent ∧
    ∀ request x d?, (r.answer request).1.failure? ≠ some (.contradiction x d?)
  /-- With a contradiction, requests for facts are counted and written down, and that is all. -/
  idle : r.isConsistent = false → (∀ target, r.perform (.query target) = r.counted) ∧ r.perform .round = r ∧
    ∃ journal, r.perform .saturate = { r with journal := journal }
  /-- Whatever fails with a contradiction leaves it behind, with the derivation that it told. -/
  told : ∀ request x d?, (r.answer request).1.failure? = some (.contradiction x d?) →
    (r.perform request).contradictionAtom = .ok (some x) ∧ (r.perform request).derivationOf x = .ok d?
  /-- It is the same after any further requests, its derivation is the same, and no other one is told. -/
  stays : r.isConsistent = false → ∃ x d, ∀ later,
    (r.performAll later).contradictionAtom = .ok (some x) ∧ (r.performAll later).derivationOf x = .ok (some d) ∧
    ∀ request y d?, ((r.performAll later).answer request).1.failure? = some (.contradiction y d?) →
      y = x ∧ d? = some d

theorem Refines.contradiction_first (h : Refines r p) (hc : Coherent r) {b : String} (hb : r.settings.bottom? = some b) :
    (r.isConsistent = false ↔ ∃ x ∈ p.atoms, x.predicate = b) ∧
      r.contradictionAtom = .ok (p.atoms.find? fun x => x.predicate = b) := by
  have hbottom : p.isBottom = fun x => decide (x.predicate = b) := by
    funext x
    simp only [PlainReasoner.isBottom, ← h.settings, hb, Option.some.injEq, eq_comm]
  have hcon := h.contradiction
  rw [hbottom] at hcon
  constructor
  · rw [h.isConsistent_eq hc, hcon, Option.isNone_eq_false_iff, List.find?_isSome]
    simp only [decide_eq_true_eq]
  · rw [(h.agrees hc).contradictionAtom, hcon]

theorem Refines.contradictionKept (h : Refines r p) (hc : Coherent r) : ContradictionKept r where
  first b hb := ⟨p.atoms, h.facts_eq hc, h.contradiction_first hc hb⟩
  never hb := by
    refine ⟨by rw [h.isConsistent_eq hc, h.contradiction_eq_none hb]; rfl, fun request x d? he => ?_⟩
    obtain ⟨q, -, hs⟩ := h.answer_eq hc request
    have hcs := hc.perform request
    have hb' : (r.perform request).settings.bottom? = none := by rw [settings_perform, hb]
    have hfail := (hs.checkConsistent_eq_error_iff hcs).1 (hc.checkConsistent_of_failure he)
    rw [(hs.agrees hcs).contradictionAtom, hs.contradiction_eq_none hb'] at hfail
    cases hfail.1
  idle hr := by
    obtain ⟨x, d, he⟩ := hc.checkConsistent_eq_error hr
    obtain ⟨journal, hsat⟩ := h.saturate_of_inconsistent hc he
    refine ⟨fun target => ?_, ?_, journal, ?_⟩
    · rw [perform, answer, query_of_inconsistent he]
    · rw [perform, answer, round_of_inconsistent he]
    · rw [perform, answer, hsat]
  told request x d? he := by
    obtain ⟨q, -, hs⟩ := h.answer_eq hc request
    exact (hs.checkConsistent_eq_error_iff (hc.perform request)).1 (hc.checkConsistent_of_failure he)
  stays hr := by
    obtain ⟨x, d, he⟩ := hc.checkConsistent_eq_error hr
    refine ⟨x, d, fun later => ?_⟩
    obtain ⟨q, -, hs⟩ := h.performAll_eq hc later
    have hcs := hc.performAll later
    have hcheck := h.checkConsistent_of_grows hs hc hcs (hc.grows_performAll later) he
    obtain ⟨hx, hd⟩ := (hs.checkConsistent_eq_error_iff hcs).1 hcheck
    refine ⟨hx, hd, fun request y d? hfail => ?_⟩
    -- the check fails in two ways after the request: as it did before, and as the request did
    obtain ⟨q', -, ht⟩ := hs.answer_eq hcs request
    have hagain := hs.checkConsistent_of_grows ht hcs (hcs.perform request) (hcs.grows_perform request) hcheck
    rw [hcs.checkConsistent_of_failure hfail, Except.error.injEq, Failure.contradiction.injEq] at hagain
    exact hagain

/-- Every reasoner keeps its contradiction, and its creation does not fail with one. -/
theorem contradictionKept_after (settings : Settings) (journal : Journal) (rules : List Rule) (qs : List Request) :
    (∀ x d?, (create settings journal rules).1 ≠ .error (.contradiction x d?)) ∧
      ContradictionKept (after settings journal rules qs) := by
  refine ⟨fun x d? he => ?_, ?_⟩
  · rw [create] at he
    split at he
    · cases he
    · next f s hadd => exact absurd (Except.error.inj he) (ne_contradiction_of_addRules (by rw [hadd]))
  · obtain ⟨p, -, h⟩ := refines_after settings journal rules qs
    exact h.contradictionKept (coherent_after settings journal rules qs)

/-- A bird that is a penguin, which no bird is. -/
def penguin : List Rule :=
  [.fact ⟨"bird", [.const "tweety"]⟩, .fact ⟨"penguin", [.const "tweety"]⟩,
    ⟨[⟨"bird", [.var "X"]⟩, ⟨"penguin", [.var "X"]⟩], ⟨"bottom", [.var "X"]⟩⟩]

/-- The contradiction that was met first is kept when another one is stated. -/
theorem contradictionKept_penguin :
    (after {} .empty penguin [.saturate]).isConsistent = false ∧
    (after {} .empty penguin [.saturate]).perform .round = after {} .empty penguin [.saturate] ∧
    (after {} .empty penguin [.saturate, .addFact ⟨"bottom", []⟩]).contradictionAtom =
      .ok (some ⟨"bottom", [.const "tweety"]⟩) := by
  obtain ⟨-, hkept⟩ := contradictionKept_after {} .empty penguin [.saturate]
  have hin : (after {} .empty penguin [.saturate]).isConsistent = false := by rfl
  have hfirst : (after {} .empty penguin [.saturate]).contradictionAtom =
      .ok (some ⟨"bottom", [.const "tweety"]⟩) := by rfl
  obtain ⟨x, d, hsame⟩ := hkept.stays hin
  obtain rfl := Option.some.inj (Except.ok.inj (hfirst.symm.trans (hsame []).1))
  exact ⟨hin, (hkept.idle hin).2.1, (hsame [.addFact ⟨"bottom", []⟩]).1⟩

/-! ## Contradictions and ceilings -/

/-- A ceiling that was read from a value is none, or positive. -/
theorem ceilingOf_cases {v : Value} {limit? : Option Limit} (h : Settings.ceilingOf v = .ok limit?) :
    limit? = none ∨ ∃ n : Int, 0 < n ∧ limit? = some (.count n) := by
  unfold Settings.ceilingOf at h
  split at h
  · exact .inl (Except.ok.inj h).symm
  · cases hn : Settings.integerOf v with
    | error e => rw [hn] at h; cases h
    | ok n =>
      rw [hn] at h
      by_cases hlt : n < 1
      · simp only [bind, Except.bind, if_pos hlt] at h
        cases h
      · simp only [bind, Except.bind, if_neg hlt] at h
        exact .inr ⟨n, by omega, (Except.ok.inj h).symm⟩

theorem atCeiling_count (c : Ceiling) (n : Int) (count rounds : Nat) :
    PlainReasoner.atCeiling c (some (.count n)) count rounds =
      if n ≤ count then some (.exhausted c (.count n) rounds) else none := by
  by_cases h : n ≤ count <;> simp [PlainReasoner.atCeiling, Limit.isReached?, h]

/-- Before the first round only the ceiling of facts can be reached. -/
theorem atCeilings_zero {v : Value} (h : Settings.ceilingOf v = .ok p.settings.maxRounds) :
    p.atCeilings 0 = PlainReasoner.atCeiling .fact p.settings.maxFacts p.facts.length 0 := by
  have hround : PlainReasoner.atCeiling .round p.settings.maxRounds 0 0 = none := by
    obtain hnone | ⟨n, hn, hcount⟩ := ceilingOf_cases h
    · rw [hnone]
      rfl
    · rw [hcount, atCeiling_count, if_neg (by omega)]
  rw [PlainReasoner.atCeilings, hround, Option.none_or]

/-- Of a reasoner with a contradiction, every query and every round fails with it. Saturation looks at the ceilings
first: it fails with the contradiction while there are fewer facts than the ceiling, and with the ceiling otherwise. -/
theorem verdicts_after (settings : Settings) (journal : Journal) (rules : List Rule) (qs : List Request)
    (hr : ∃ v, Settings.ceilingOf v = .ok settings.maxRounds) (hf : ∃ v, Settings.ceilingOf v = .ok settings.maxFacts)
    (hin : (after settings journal rules qs).isConsistent = false) :
    ∃ x d, (after settings journal rules qs).contradictionAtom = .ok (some x) ∧
      (∀ target, ((after settings journal rules qs).query target).1 = .error (.contradiction x (some d))) ∧
      (after settings journal rules qs).round.1 = .error (.contradiction x (some d)) ∧
      ((∀ n, settings.maxFacts = some (.count n) → ((after settings journal rules qs).factCount : Int) < n) →
        (after settings journal rules qs).saturate.1 = .error (.contradiction x (some d))) ∧
      ∀ n, settings.maxFacts = some (.count n) → n ≤ (after settings journal rules qs).factCount →
        (after settings journal rules qs).saturate.1 = .error (.exhausted .fact (.count n) 0) := by
  obtain ⟨p, -, h⟩ := refines_after settings journal rules qs
  have hc := coherent_after settings journal rules qs
  have hset := settings_after settings journal rules qs
  generalize after settings journal rules qs = r at h hc hset hin ⊢
  obtain ⟨x, d, he⟩ := hc.checkConsistent_eq_error hin
  obtain ⟨hx, -⟩ := (h.checkConsistent_eq_error_iff hc).1 he
  obtain ⟨journal, hsat⟩ := h.saturate_of_inconsistent hc he
  obtain ⟨v, hv⟩ := hr
  rw [← hset, h.settings] at hv
  rw [atCeilings_zero hv, ← h.settings, hset, ← h.factCount_eq hc.toSupported] at hsat
  refine ⟨x, d, hx, fun target => ?_, ?_, fun hbelow => ?_, fun n hn hle => ?_⟩
  · rw [query_of_inconsistent he]
  · rw [round_of_inconsistent he]
  · obtain ⟨w, hw⟩ := hf
    obtain hnone | ⟨n, -, hn⟩ := ceilingOf_cases hw
    · rw [hsat, hnone]
      rfl
    · have hlt := hbelow n hn
      rw [hsat, hn, atCeiling_count, if_neg (by omega), Option.getD_none]
  · rw [hsat, hn, atCeiling_count, if_pos hle, Option.getD_some]

/-- A contradiction that is stated as the only fact allowed. -/
theorem verdicts_bottom :
    (after { maxFacts := some (.count 1) } .empty [.fact ⟨"bottom", []⟩] []).isConsistent = false ∧
    (∃ x d, (after { maxFacts := some (.count 1) } .empty [.fact ⟨"bottom", []⟩] []).round.1 =
      .error (.contradiction x (some d))) ∧
    (after { maxFacts := some (.count 1) } .empty [.fact ⟨"bottom", []⟩] []).saturate.1 =
      .error (.exhausted .fact (.count 1) 0) := by
  have hin : (after { maxFacts := some (.count 1) } .empty [.fact ⟨"bottom", []⟩] []).isConsistent = false := by rfl
  obtain ⟨x, d, -, -, hround, -, hsat⟩ := verdicts_after { maxFacts := some (.count 1) } .empty [.fact ⟨"bottom", []⟩] []
    ⟨.int 1000, by rfl⟩ ⟨.int 1, by rfl⟩ hin
  exact ⟨hin, ⟨x, d, hround⟩, hsat 1 rfl (by decide)⟩

/-- Saturation does not always tell the contradiction, even with ceilings that were read from values. -/
theorem saturate_hides_contradiction :
    ¬ ∀ (settings : Settings) (journal : Journal) (rules : List Rule) (qs : List Request),
      (∃ v, Settings.ceilingOf v = .ok settings.maxRounds) → (∃ v, Settings.ceilingOf v = .ok settings.maxFacts) →
      (after settings journal rules qs).isConsistent = false →
      ∃ x d?, (after settings journal rules qs).saturate.1 = .error (.contradiction x d?) := by
  intro hall
  obtain ⟨x, d?, htold⟩ := hall { maxFacts := some (.count 1) } .empty [.fact ⟨"bottom", []⟩] []
    ⟨.int 1000, by rfl⟩ ⟨.int 1, by rfl⟩ (by rfl)
  have hsat : (after { maxFacts := some (.count 1) } .empty [.fact ⟨"bottom", []⟩] []).saturate.1 =
      .error (.exhausted .fact (.count 1) 0) := by rfl
  cases hsat.symm.trans htold

end Reasoner

end Entail
