import Entail.Proofs.Generations
import Entail.Proofs.Plain.Equivalence
import Entail.Proofs.Termination
import Mathlib.Data.Nat.Choose.Basic

/-!
# Counts of work

* `Selection.length_increasing` : there are as many selections of `k` facts as subsets of that size;
* `Traced`, `Reasoner.traced` : a loop of rounds with the reasoners that its rounds are run on; `saturateFrom_eq_traced`
  and `searchFrom_eq_traced` say that saturation and queries are such loops;
* `Reasoner.executions`, `Reasoner.steps` : the rounds that a request runs, and requests with the reasoners that take
  them;
* `Worked r ss s` : `s` comes of `r` by the rounds on `ss`, and its counts are those of `r` and of these rounds;
* `Balanced history r` : the counts of `r` are those of all rounds of its history (`balanced_after`).
-/

namespace Entail

/-! ## Numbers of selections -/

theorem Selection.length_increasing {α : Type} (k : Nat) (xs : List α) :
    (increasing k xs).length = xs.length.choose k := by
  induction xs generalizing k with
  | nil => cases k <;> rfl
  | cons x xs ih =>
    cases k with
    | zero => simp [increasing]
    | succ k =>
      rw [increasing, List.length_append, List.length_map, ih, ih, List.length_cons, Nat.choose_succ_succ]

namespace Reasoner

variable {r s t : Reasoner}

/-! ## What a round tries -/

/-- The number of selections that a round tries: for each rule, those of as many facts as it has premises. -/
def trialCount (r : Reasoner) : Nat :=
  (r.rules.map fun c =>
    if r.settings.exhaustiveMatching then r.factCount ^ c.premises.length
    else r.factCount.choose c.premises.length).sum

/-- The number of selections that a round tries on which a rule fails to apply. -/
def failureCount (r : Reasoner) : Nat :=
  (r.rules.map fun c =>
    (r.selections c.premises.length).countP fun facts => !(c.apply facts).isOk).sum

theorem length_atoms (r : Reasoner) : r.atoms.length = r.factCount := List.length_map _

theorem length_selections (r : Reasoner) (k : Nat) : (r.selections k).length =
    if r.settings.exhaustiveMatching then r.factCount ^ k else r.factCount.choose k := by
  unfold selections
  split_ifs
  · rw [Selection.length_unrestricted, length_atoms]
    rfl
  · rw [Selection.length_increasing, length_atoms]

theorem length_attempts (r : Reasoner) : r.attempts.length = r.trialCount := by
  simp only [attempts, trialCount, List.length_flatMap, List.length_map, length_selections]

theorem countP_attempts (r : Reasoner) : r.attempts.countP (fun x => !x.isOk) = r.failureCount := by
  simp only [attempts, failureCount, List.countP_flatMap, Function.comp_def, List.countP_map]

theorem length_applications (r : Reasoner) : r.applications.length = r.attempts.countP Except.isOk := by
  rw [applications, List.length_filterMap_eq_countP]
  refine List.countP_congr fun x _ => ?_
  cases x <;> simp [Except.toOption, Except.isOk, Except.toBool]

/-- What is tried gives an application or fails. -/
theorem length_applications_add (r : Reasoner) : r.applications.length + r.failureCount = r.trialCount := by
  rw [length_applications, ← countP_attempts, ← length_attempts, List.length_eq_countP_add_countP Except.isOk]
  simp

/-! ## One round -/

theorem tally_advance (h : r.contradiction = none) : r.advance.2.tally = { r.tally with
    rounds := r.tally.rounds + 1
    tried := r.tally.tried + r.trialCount
    rejected := r.tally.rejected + r.failureCount
    derived := r.tally.derived + r.fresh.length } := by
  have hlen := r.length_applications_add
  have hrejected : r.trialCount - r.applications.length = r.failureCount := by omega
  have hfst := advance_fst h
  simp only [advance] at hfst ⊢
  simp only [write, length_attempts, hrejected, hfst]

theorem round_of_isConsistent_eq_false (h : r.isConsistent = false) : r.round.2 = r := by
  cases hc : r.checkConsistent with
  | error e => rw [round_of_inconsistent hc]
  | ok _ =>
    rw [isConsistent, checkConsistent_eq_ok.1 hc] at h
    cases h

/-! ## Loops with their rounds -/

/-- A loop of rounds that has ended: the reasoners that its rounds were run on, how it ended and after how many
productive rounds, and the reasoner that it left. -/
structure Traced where
  rounds : List Reasoner
  ending : Ending
  count : Nat
  last : Reasoner

/-- Rounds after `n` productive ones until a reasoner satisfies `stop`, at most `fuel` of them. -/
def traced (stop : Reasoner → Bool) : Nat → Nat → Reasoner → Traced
  | 0, n, r => ⟨[], .fixpoint, n, r⟩
  | fuel + 1, n, r =>
    if stop r then ⟨[], .stopped, n, r⟩
    else
      match r.checkCeilings n with
      | (.error e, s) => ⟨[], .failed e, n, s⟩
      | (.ok (), s) =>
        match s.round with
        | (.error e, t) => ⟨[s], .failed e, n, t⟩
        | (.ok 0, t) => ⟨[s], .fixpoint, n, t⟩
        | (.ok (_ + 1), t) =>
          let rest := traced stop fuel (n + 1) t
          { rest with rounds := s :: rest.rounds }

/-- Saturation is such a loop. -/
theorem saturateFrom_eq_traced (fuel n : Nat) (r : Reasoner) : saturateFrom fuel n r =
    let x := traced (fun _ => false) fuel n r
    (x.ending.saturated x.count, x.last) := by
  induction fuel generalizing n r with
  | zero => rfl
  | succ fuel ih =>
    rw [saturateFrom, traced, if_neg Bool.false_ne_true]
    cases hc : r.checkCeilings n with
    | mk out s =>
      cases out with
      | error e => rfl
      | ok _ =>
        cases hr : s.round with
        | mk out t =>
          rcases out with e | _ | m
          · simp only [hr]
            rfl
          · simp only [hr]
            rfl
          · simp only [hr]
            exact ih (n + 1) t

/-- The search for a target is such a loop, lines of the journal apart. -/
theorem searchFrom_eq_traced (target : Atom) (goal : Coded.Atom) (fuel n : Nat) (r : Reasoner) :
    ∃ journal, searchFrom target goal fuel n r =
      let x := traced (fun s => s.holds goal) fuel n r
      (x.ending.searched target x.count, { x.last with journal := journal }) := by
  induction fuel generalizing n r with
  | zero => exact ⟨_, rfl⟩
  | succ fuel ih =>
    rw [searchFrom, traced]
    split_ifs with hgoal
    · exact ⟨_, rfl⟩
    cases hc : r.checkCeilings n with
    | mk out s =>
      cases out with
      | error e => exact ⟨_, rfl⟩
      | ok _ =>
        cases hr : s.round with
        | mk out t =>
          rcases out with e | _ | m
          · simp only [hr]
            cases e <;> exact ⟨_, rfl⟩
          · simp only [hr]
            exact ⟨_, rfl⟩
          · simp only [hr]
            exact ih (n + 1) t

/-- The reasoners that rounds are run on while a request is answered, in order. -/
def executions (r : Reasoner) : Request → List Reasoner
  | .addRule _ | .addFact _ => []
  | .round => [r]
  | .saturate => (traced (fun _ => false) (r.roundBudget + 1) 0 r).rounds
  | .query target =>
    match r.checkConsistent, target.encode r.symbols with
    | .ok (), .ok (goal, u) => (traced (fun s => s.holds goal) (r.roundBudget + 1) 0 (r.asked u)).rounds
    | _, _ => []

/-! ## What rounds come to -/

/-- A search with the reasoners that its rounds are run on: of these, the consistent ones count. -/
structure Worked (r : Reasoner) (ss : List Reasoner) (s : Reasoner) : Prop where
  search : Search r s
  rounds : s.tally.rounds = r.tally.rounds + (ss.filter isConsistent).length
  tried : s.tally.tried = r.tally.tried + ((ss.filter isConsistent).map trialCount).sum
  rejected : s.tally.rejected = r.tally.rejected + ((ss.filter isConsistent).map failureCount).sum
  derived : s.factCount + r.tally.derived = r.factCount + s.tally.derived

theorem Worked.rest (h : Keeps r s) (ht : s.tally = { r.tally with queries := s.tally.queries }) : Worked r [] s := by
  have hcount : s.factCount = r.factCount := congrArg List.length h.known
  refine ⟨.rest h, ?_, ?_, ?_, ?_⟩ <;> rw [ht]
  · rfl
  · rfl
  · rfl
  · rw [hcount]

theorem Worked.refl (r : Reasoner) : Worked r [] r := .rest (.refl r) rfl

theorem Worked.trans {ss ts : List Reasoner} (h₁ : Worked r ss s) (h₂ : Worked s ts t) : Worked r (ss ++ ts) t := by
  refine ⟨h₁.search.trans h₂.search, ?_, ?_, ?_, ?_⟩
  · rw [h₂.rounds, h₁.rounds, List.filter_append, List.length_append, Nat.add_assoc]
  · rw [h₂.tried, h₁.tried, List.filter_append, List.map_append, List.sum_append, Nat.add_assoc]
  · rw [h₂.rejected, h₁.rejected, List.filter_append, List.map_append, List.sum_append, Nat.add_assoc]
  · have := h₁.derived
    have := h₂.derived
    omega

theorem Worked.journal {ss : List Reasoner} (h : Worked r ss s) (journal : Journal) :
    Worked r ss { s with journal := journal } :=
  List.append_nil ss ▸ h.trans (.rest (keeps_journal s journal) rfl)

theorem Coherent.worked_round (h : Coherent r) : Worked r [r] r.round.2 := by
  cases hc : r.contradiction with
  | none =>
    have hfilter : [r].filter isConsistent = [r] := by simp [isConsistent, hc]
    have htally := tally_advance hc
    have hcount : r.advance.2.factCount = r.factCount + r.fresh.length := by
      rw [← length_atoms, (keeps_advance hc).atoms, h.atoms_stepped, List.length_append, length_atoms, List.length_map]
    rw [round_of_consistent hc]
    refine ⟨.round (.refl r) hc (keeps_advance hc), ?_, ?_, ?_, ?_⟩
    · rw [hfilter]
      exact congrArg Tally.rounds htally
    · rw [hfilter]
      exact congrArg Tally.tried htally
    · rw [hfilter]
      exact congrArg Tally.rejected htally
    · have hderived : r.advance.2.tally.derived = r.tally.derived + r.fresh.length := congrArg Tally.derived htally
      simp only [hcount, hderived]
      omega
  | some a =>
    have hcons : r.isConsistent = false := by rw [isConsistent, hc, Option.isNone_some]
    have hfilter : [r].filter isConsistent = [] := by simp [hcons]
    rw [round_of_isConsistent_eq_false hcons]
    refine ⟨.refl r, ?_, ?_, ?_, rfl⟩ <;> rw [hfilter] <;> rfl

theorem worked_checkCeilings (r : Reasoner) (n : Nat) : Worked r [] (r.checkCeilings n).2 := by
  obtain ⟨journal, heq⟩ := r.checkCeilings_eq n
  rw [heq]
  exact (Worked.refl r).journal journal

theorem Coherent.worked_traced (stop : Reasoner → Bool) (fuel n : Nat) (h : Coherent r) :
    Worked r (traced stop fuel n r).rounds (traced stop fuel n r).last := by
  -- Coherence is carried along the fuel: without it a round might hold a fact twice.
  induction fuel generalizing n r with
  | zero => exact .refl r
  | succ fuel ih =>
    rw [traced]
    split_ifs
    · exact .refl r
    have hceiling := worked_checkCeilings r n
    cases hc : r.checkCeilings n with
    | mk out s =>
      rw [hc] at hceiling
      cases out with
      | error e => exact hceiling
      | ok _ =>
        have hs := h.search hceiling.search
        have hround := hceiling.trans hs.worked_round
        cases hr : s.round with
        | mk out t =>
          rw [hr] at hround
          rcases out with e | _ | m <;> simp only [hr]
          · exact hround
          · exact hround
          · exact hround.trans (ih (n + 1) (h.search hround.search))

theorem Coherent.worked_saturate (h : Coherent r) : Worked r (r.executions .saturate) r.saturate.2 := by
  have hworked := h.worked_traced (fun _ => false) (r.roundBudget + 1) 0
  have heq := saturateFrom_eq_traced (r.roundBudget + 1) 0 r
  unfold saturate
  split
  next n s hrun =>
    obtain rfl := (Prod.mk.inj (hrun.symm.trans heq)).2
    exact hworked.journal _
  next e s hrun =>
    obtain rfl := (Prod.mk.inj (hrun.symm.trans heq)).2
    exact hworked

theorem Coherent.worked_search (h : Coherent r) {target : Atom} {goal : Coded.Atom} {u : SymbolTable}
    {out : Except Failure Nat} (hc : r.checkConsistent = .ok ()) (he : target.encode r.symbols = .ok (goal, u))
    (hrun : searchFrom target goal (r.roundBudget + 1) 0 (r.asked u) = (out, s)) :
    Worked r (r.executions (.query target)) s := by
  have hasked : Worked r [] (r.asked u) := .rest (keeps_asked he) rfl
  have hworked := (h.search hasked.search).worked_traced (fun s => s.holds goal) (r.roundBudget + 1) 0
  obtain ⟨journal, heq⟩ := searchFrom_eq_traced target goal (r.roundBudget + 1) 0 (r.asked u)
  obtain rfl := (Prod.mk.inj (hrun.symm.trans heq)).2
  simp only [executions, hc, he]
  exact (hasked.trans hworked).journal journal

theorem Coherent.worked_query (h : Coherent r) (target : Atom) :
    Worked r (r.executions (.query target)) (r.query target).2 := by
  have hcounted : Worked r [] r.counted := .rest (keeps_counted r) rfl
  have hqueried := r.queried target
  generalize r.query target = x at hqueried
  cases hqueried with
  | inconsistent hc =>
    simp only [executions, hc]
    exact hcounted
  | notGround hc hg =>
    simp only [executions, hc, Atom.encode_of_not_ground hg]
    exact hcounted
  | failed hc he hrun => exact h.worked_search hc he hrun
  | found hc he hrun _ => exact (h.worked_search hc he hrun).journal _

theorem Coherent.worked_perform (h : Coherent r) {q : Request} (hq : q.addsNothing) :
    Worked r (r.executions q) (r.perform q) := by
  cases q with
  | addRule rule => cases hq
  | addFact a => cases hq
  | query target => exact h.worked_query target
  | saturate => exact h.worked_saturate
  | round => exact h.worked_round

/-! ## What stating facts and rules comes to -/

/-- Whether a request states a fact that was not held. -/
def statesNew (r : Reasoner) : Request → Bool
  | .addFact a => (r.addFact a).1.toOption == some true
  | .addRule rule => rule.isAxiom && (r.addRule rule).1.toOption == some true
  | .query _ | .saturate | .round => false

/-- What a request that adds something does: it states a new fact or leaves the facts as they are; no work is counted. -/
inductive Added (r : Reasoner) (isNew : Bool) (s : Reasoner) : Prop
  | fact (hnew : isNew = true) (c : Coded.Atom) (hknown : s.known = r.known ++ [(c, 0)])
    (hsupports : s.supports = r.supports ++ [(c, .seed)]) (htally : s.tally = r.tally)
  | nothing (hnew : isNew = false) (hknown : s.known = r.known) (hsupports : s.supports = r.supports)
    (htally : s.tally = r.tally)

theorem Supported.added_addFact (h : Supported r) (a : Atom) :
    Added r ((r.addFact a).1.toOption == some true) (r.addFact a).2 := by
  unfold addFact
  cases he : a.encode r.symbols with
  | error b => exact .nothing rfl rfl rfl rfl
  | ok x =>
    obtain ⟨c, u⟩ := x
    by_cases hmem : c ∈ r.atoms
    · have hins := insert_of_mem (r := { r with symbols := u }) hmem .seed
      simp only [hins, Bool.false_and]
      exact .nothing rfl rfl rfl rfl
    · have hins := insert_of_not_mem (r := { r with symbols := u }) hmem .seed
      have hput : r.supports.put c .seed = r.supports ++ [(c, .seed)] := put_of_not_mem (by rwa [h.keys]) _
      simp only [hins, hput]
      split_ifs <;> exact .fact rfl c rfl rfl rfl

theorem Supported.added_addRule (h : Supported r) (rule : Rule) :
    Added r (r.statesNew (.addRule rule)) (r.addRule rule).2 := by
  cases hax : rule.isAxiom with
  | true =>
    cases hg : rule.conclusion.isGround with
    | true =>
      rw [statesNew, addRule_of_stated hax hg, hax, Bool.true_and]
      exact h.added_addFact rule.conclusion
    | false =>
      rw [statesNew, addRule_eq_of_refused hax hg, hax]
      exact .nothing rfl rfl rfl rfl
  | false =>
    have hnew : r.statesNew (.addRule rule) = false := by rw [statesNew, hax, Bool.false_and]
    rw [hnew]
    simp only [addRule, hax, Bool.false_eq_true, if_false]
    split_ifs <;> exact .nothing rfl rfl rfl rfl

/-! ## Histories -/

def steps (r : Reasoner) : List Request → List (Reasoner × Request)
  | [] => []
  | q :: qs => (r, q) :: (r.perform q).steps qs

/-- The reasoners that the rounds of a history were begun on, those without a contradiction only. -/
def begun (history : List (Reasoner × Request)) : List Reasoner :=
  (history.flatMap fun e => e.1.executions e.2).filter isConsistent

structure Tallied (history : List (Reasoner × Request)) (r : Reasoner) : Prop where
  rounds : r.tally.rounds = (begun history).length
  tried : r.tally.tried = ((begun history).map trialCount).sum
  rejected : r.tally.rejected = ((begun history).map failureCount).sum
  stated : (r.supports.filter (·.2.isSeed)).length = history.countP fun e => e.1.statesNew e.2
  facts : r.factCount = (r.supports.filter (·.2.isSeed)).length + r.tally.derived

theorem tallied_empty (settings : Settings) (journal : Journal) : Tallied [] (empty settings journal) :=
  ⟨rfl, rfl, rfl, rfl, rfl⟩

variable {history : List (Reasoner × Request)}

theorem begun_concat (history : List (Reasoner × Request)) (r : Reasoner) (q : Request) :
    begun (history ++ [(r, q)]) = begun history ++ (r.executions q).filter isConsistent := by
  simp [begun]

theorem Tallied.worked (h : Tallied history r) (hc : Coherent r) {q : Request} (hq : q.addsNothing)
    (hw : Worked r (r.executions q) s) : Tallied (history ++ [(r, q)]) s := by
  have hseeds := hc.seeds_search hw.search
  have hstates : r.statesNew q = false := by cases q <;> first | rfl | cases hq
  refine ⟨?_, ?_, ?_, ?_, ?_⟩
  · rw [hw.rounds, h.rounds, begun_concat, List.length_append]
  · rw [hw.tried, h.tried, begun_concat, List.map_append, List.sum_append]
  · rw [hw.rejected, h.rejected, begun_concat, List.map_append, List.sum_append]
  · rw [hseeds, h.stated, List.countP_append]
    simp [hstates]
  · have := hw.derived
    have := h.facts
    rw [hseeds]
    omega

theorem Tallied.added (h : Tallied history r) {q : Request} (hq : r.executions q = [])
    (ha : Added r (r.statesNew q) s) : Tallied (history ++ [(r, q)]) s := by
  have hbegun : begun (history ++ [(r, q)]) = begun history := by
    rw [begun_concat, hq, List.filter_nil, List.append_nil]
  have htally : s.tally = r.tally := by cases ha <;> assumption
  refine ⟨?_, ?_, ?_, ?_, ?_⟩
  · rw [htally, hbegun, h.rounds]
  · rw [htally, hbegun, h.tried]
  · rw [htally, hbegun, h.rejected]
  · rw [List.countP_append, ← h.stated]
    cases ha with
    | fact hnew c _ hsupports _ => simp [hsupports, hnew, Support.isSeed, Support.seed]
    | nothing hnew _ hsupports _ => simp [hsupports, hnew]
  · have hfacts := h.facts
    rw [htally]
    cases ha with
    | fact _ c hknown hsupports _ =>
      have hcount : s.factCount = r.factCount + 1 := by rw [factCount, hknown, List.length_append]; rfl
      have hseeds : (s.supports.filter (·.2.isSeed)).length = (r.supports.filter (·.2.isSeed)).length + 1 := by
        rw [hsupports, List.filter_append, List.length_append]
        rfl
      omega
    | nothing _ hknown hsupports _ =>
      rw [factCount, hknown, hsupports]
      exact hfacts

theorem Tallied.perform (h : Tallied history r) (hc : Coherent r) (q : Request) :
    Tallied (history ++ [(r, q)]) (r.perform q) := by
  cases q with
  | addRule rule => exact h.added rfl (hc.added_addRule rule)
  | addFact a => exact h.added rfl (hc.added_addFact a)
  | query | saturate | round => exact h.worked hc rfl (hc.worked_perform rfl)

theorem Tallied.performAll (h : Tallied history r) (hc : Coherent r) (qs : List Request) :
    Tallied (history ++ r.steps qs) (r.performAll qs) := by
  induction qs generalizing history r with
  | nil =>
    rw [steps, List.append_nil]
    exact h
  | cons q qs ih =>
    rw [steps, ← List.singleton_append, ← List.append_assoc]
    exact ih (h.perform hc q) (hc.perform q)

theorem Tallied.journal (h : Tallied history r) (journal : Journal) : Tallied history { r with journal := journal } :=
  ⟨h.rounds, h.tried, h.rejected, h.stated, h.facts⟩

theorem create_of_ok {settings : Settings} {journal : Journal} {rules : List Rule}
    (h : (create settings journal rules).1 = .ok ()) : ∃ written, (create settings journal rules).2 =
      { (empty settings journal).performAll (rules.map .addRule) with journal := written } := by
  obtain ⟨n, hn, hok⟩ := addRules_eq_performAll (empty settings journal) rules
  rw [create] at h ⊢
  cases hrules : (empty settings journal).addRules rules with
  | mk out r =>
    rw [hrules] at h hn hok
    cases out with
    | error e => cases h
    | ok _ =>
      rw [hok rfl] at hn
      simp only at hn ⊢
      rw [hn]
      exact ⟨_, rfl⟩

/-- What a reasoner has been asked for since it was empty: the rules that it is created with are added first. -/
def past (settings : Settings) (journal : Journal) (rules : List Rule) (qs : List Request) :
    List (Reasoner × Request) :=
  (empty settings journal).steps (rules.map .addRule) ++ (create settings journal rules).2.steps qs

theorem tallied_after {settings : Settings} {journal : Journal} {rules : List Rule} (qs : List Request)
    (h : (create settings journal rules).1 = .ok ()) :
    Tallied (past settings journal rules qs) (after settings journal rules qs) := by
  obtain ⟨written, hcreate⟩ := create_of_ok h
  have hempty := (tallied_empty settings journal).performAll (coherent_empty settings journal) (rules.map .addRule)
  -- Creation ends with a line in the journal, which no count depends on.
  have hcreated := hempty.journal written
  rw [List.nil_append, ← hcreate] at hcreated
  exact hcreated.performAll (coherent_create settings journal rules) qs

/-- The counts balance. Facts are stated or derived, and each stated one was new when it was stated. Rounds are counted
if they were begun without a contradiction, whatever they ended with; each tries, for every rule, all selections of as
many facts as the rule has premises, and counts those on which the rule fails to apply. -/
structure Balanced (history : List (Reasoner × Request)) (r : Reasoner) : Prop where
  facts : ∃ stated, r.statedFacts = .ok stated ∧ r.factCount = stated.length + r.tally.derived ∧
    stated.length = history.countP fun e => e.1.statesNew e.2
  rounds : r.tally.rounds = (begun history).length
  tried : r.tally.tried = ((begun history).map trialCount).sum
  rejected : r.tally.rejected = ((begun history).map failureCount).sum
  round : ∀ s ∈ begun history, s.round.2.tally.rounds = s.tally.rounds + 1 ∧
    s.round.2.tally.tried = s.tally.tried + s.trialCount ∧
    s.round.2.tally.rejected = s.tally.rejected + s.failureCount

theorem Tallied.balanced (h : Tallied history r) (hc : Coherent r) : Balanced history r := by
  obtain ⟨stated, hstated, hread⟩ := hc.exists_statedFacts
  have hlen : (r.supports.filter (·.2.isSeed)).length = stated.length := by rw [← hread.length_eq, List.length_map]
  refine ⟨⟨stated, hstated, ?_, ?_⟩, h.rounds, h.tried, h.rejected, fun s hs => ?_⟩
  · rw [← hlen, h.facts]
  · rw [← hlen, h.stated]
  · have hnone : s.contradiction = none := Option.isNone_iff_eq_none.1 (List.mem_filter.1 hs).2
    rw [round_of_consistent hnone, tally_advance hnone]
    exact ⟨rfl, rfl, rfl⟩

theorem balanced_after {settings : Settings} {journal : Journal} {rules : List Rule} (qs : List Request)
    (h : (create settings journal rules).1 = .ok ()) :
    Balanced (past settings journal rules qs) (after settings journal rules qs) :=
  (tallied_after qs h).balanced (coherent_after settings journal rules qs)

theorem balanced_joined :
    (create exhaustive .empty joined).1 = .ok () ∧
    Balanced (past exhaustive .empty joined [.round, .round]) (after exhaustive .empty joined [.round, .round]) ∧
    (after exhaustive .empty joined [.round, .round]).tally.tried = 2 ^ 2 + 3 ^ 2 := by
  have hcreate : (create exhaustive .empty joined).1 = .ok () := rfl
  have hbalanced := balanced_after [.round, .round] hcreate
  exact ⟨hcreate, hbalanced, hbalanced.tried⟩

end Reasoner

end Entail
