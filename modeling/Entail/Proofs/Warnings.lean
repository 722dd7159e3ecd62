import Entail.Proofs.Contradictions
import Entail.Proofs.Tallies

/-!
# Warnings of a contradiction

* `Line.stated`, `Line.aborted` : the warnings that tell of a contradiction, and `Line.reports`, by which they are
  known among all lines;
* `Logs r news s` : the journal of `s` is that of `r` with more lines, of which `news` report a contradiction. Rounds,
  ceilings and saturation report none (`logs_round`, `logs_saturate`), a search reports the contradiction that it fails
  with (`logs_searchFrom`), and a stated fact is reported if it is new and there is a contradiction (`logs_addFact`);
* `announced` : what each request reports (`Coherent.logs_perform`), and so a whole history (`logs_performAll`);
* `reportedSince`, `reported` : the same read off two journals (`Logs.reportedSince_eq`).
-/

namespace Entail

/-! ## Lines -/

namespace Line

def stated (a : Atom) : Line := ⟨.warning, "Seed axiom " ++ a.text ++ " is a contradiction"⟩

def aborted (target : Atom) : Line := ⟨.warning, "Query " ++ target.text ++ " aborted: rule set is contradictory"⟩

def warns (l : Line) (opening : String) : Bool := l.level = .warning && opening.toList.isPrefixOf l.text.toList

def callsStated (l : Line) : Bool := l.warns "Seed axiom "

def reports (l : Line) : Bool := l.callsStated || l.warns "Query "

theorem warns_append (opening rest : String) : (⟨.warning, opening ++ rest⟩ : Line).warns opening = true := by
  have hopens : opening.toList.isPrefixOf (opening ++ rest).toList = true := by
    rw [String.toList_append]
    exact List.isPrefixOf_iff_prefix.2 (List.prefix_append _ _)
  rw [warns, hopens]
  rfl

theorem callsStated_stated (a : Atom) : (stated a).callsStated = true := by
  unfold stated
  rw [String.append_assoc]
  exact warns_append _ _

theorem reports_stated (a : Atom) : (stated a).reports = true := by
  rw [reports, callsStated_stated, Bool.true_or]

theorem callsStated_aborted (target : Atom) : (aborted target).callsStated = false := by
  unfold aborted callsStated warns
  rw [String.append_assoc, String.toList_append]
  rfl

theorem reports_aborted (target : Atom) : (aborted target).reports = true := by
  have hwarns : (aborted target).warns "Query " = true := by
    unfold aborted
    rw [String.append_assoc]
    exact warns_append _ _
  rw [reports, hwarns, Bool.or_true]

theorem reports_roundCeiling (limit : String) :
    (⟨.warning, "Round ceiling " ++ limit ++ " reached"⟩ : Line).reports = false := by
  unfold reports callsStated warns
  rw [String.append_assoc, String.toList_append]
  rfl

theorem reports_factCeiling (limit rest : String) :
    (⟨.warning, "Fact ceiling " ++ limit ++ rest⟩ : Line).reports = false := by
  unfold reports callsStated warns
  rw [String.append_assoc, String.toList_append]
  rfl

theorem reports_of_ne (l : Line) (h : l.level ≠ .warning) : l.reports = false := by
  unfold reports callsStated warns
  rw [decide_eq_false h, Bool.false_and, Bool.false_and]
  rfl

end Line

namespace Reasoner

variable {r s t : Reasoner} {news more : List Line} {q : Request} {a : Atom}

/-! ## What is written -/

/-- The second journal has the lines of the first and more, of which some report a contradiction. -/
structure Logs (r : Reasoner) (news : List Line) (s : Reasoner) : Prop where
  threshold : s.journal.threshold = r.journal.threshold
  lines : ∃ later, s.journal.lines = r.journal.lines ++ later ∧ later.filter Line.reports = news

theorem Logs.of_eq (h : s.journal = r.journal) : Logs r [] s := by
  refine ⟨by rw [h], [], ?_, rfl⟩
  rw [h, List.append_nil]

theorem Logs.refl (r : Reasoner) : Logs r [] r := .of_eq rfl

theorem Logs.trans (h₁ : Logs r news s) (h₂ : Logs s more t) : Logs r (news ++ more) t := by
  obtain ⟨later₁, hlines₁, hnews₁⟩ := h₁.lines
  obtain ⟨later₂, hlines₂, hnews₂⟩ := h₂.lines
  refine ⟨h₂.threshold.trans h₁.threshold, later₁ ++ later₂, ?_, ?_⟩
  · rw [hlines₂, hlines₁, List.append_assoc]
  · rw [List.filter_append, hnews₁, hnews₂]

theorem logs_write (level : Level) (text : String) (h : (⟨level, text⟩ : Line).reports = false) :
    Logs r [] (r.write level text) := by
  unfold write Journal.write
  split_ifs
  · refine ⟨rfl, [⟨level, text⟩], rfl, ?_⟩
    rw [List.filter_singleton, h]
    rfl
  · exact .of_eq rfl

theorem logs_warning (text : String) (hj : r.journal.threshold ≤ Level.warning.rank)
    (h : (⟨.warning, text⟩ : Line).reports = true) : Logs r [⟨.warning, text⟩] (r.write .warning text) := by
  unfold write Journal.write
  rw [if_pos hj]
  refine ⟨rfl, [⟨.warning, text⟩], rfl, ?_⟩
  rw [List.filter_singleton, h]
  rfl

/-- A line that is no warning may follow. -/
theorem Logs.write (h : Logs r news s) (level : Level) (text : String) (hlevel : level ≠ .warning) :
    Logs r news (s.write level text) :=
  List.append_nil news ▸ h.trans (logs_write level text (Line.reports_of_ne _ hlevel))

/-! ## Rounds -/

theorem journal_insert (r : Reasoner) (c : Coded.Atom) (sup : Support) : (r.insert c sup).2.journal = r.journal := by
  unfold insert
  split_ifs <;> rfl

theorem journal_holdAll (g : Nat) (r : Reasoner) (ps : List Coded.Application) :
    (holdAll g r ps).journal = r.journal := by
  induction ps generalizing r with
  | nil => rfl
  | cons p ps ih =>
    rw [holdAll_cons, ih]
    exact journal_insert r _ _

theorem logs_advance (h : r.contradiction = none) : Logs r [] r.advance.2 := by
  simp only [advance, commit_eq _ _ h]
  refine Logs.write (.of_eq ?_) _ _ (by decide)
  exact journal_holdAll _ r _

theorem logs_round (r : Reasoner) : Logs r [] r.round.2 := by
  cases hc : r.contradiction with
  | none =>
    rw [round_of_consistent hc]
    exact logs_advance hc
  | some c =>
    rw [round_of_isConsistent_eq_false (by rw [isConsistent, hc]; rfl)]
    exact .refl r

theorem logs_checkCeiling (r : Reasoner) (c : Ceiling) (limit? : Option Limit) (count rounds : Nat)
    (line : String → String) (hline : ∀ limit, (⟨.warning, line limit⟩ : Line).reports = false) :
    Logs r [] (r.checkCeiling c limit? count rounds line).2 := by
  unfold checkCeiling
  split
  · exact .refl r
  · split
    · exact logs_write _ _ (hline _)
    · exact .refl r
    · exact .refl r

theorem logs_checkCeilings (r : Reasoner) (rounds : Nat) : Logs r [] (r.checkCeilings rounds).2 := by
  have hround := logs_checkCeiling r .round r.settings.maxRounds rounds rounds _ Line.reports_roundCeiling
  have hfact : ∀ s : Reasoner, Logs s [] (s.checkCeiling .fact s.settings.maxFacts s.factCount rounds fun limit =>
      "Fact ceiling " ++ limit ++ " reached with " ++ toString s.factCount ++ " facts").2 := fun s =>
    logs_checkCeiling s _ _ _ _ _ fun limit => by
      rw [String.append_assoc, String.append_assoc]
      exact Line.reports_factCeiling limit _
  unfold checkCeilings
  split
  · next h =>
    rw [h] at hround
    exact hround
  · next h =>
    rw [h] at hround
    exact hround.trans (hfact _)

theorem logs_saturateFrom (fuel rounds : Nat) (r : Reasoner) : Logs r [] (saturateFrom fuel rounds r).2 := by
  induction fuel generalizing rounds r with
  | zero => exact .refl r
  | succ fuel ih =>
    have hc := logs_checkCeilings r rounds
    rw [saturateFrom]
    split
    · next h =>
      rw [h] at hc
      exact hc
    · next s h =>
      rw [h] at hc
      have hr := hc.trans (logs_round s)
      split
      · next h' =>
        rw [h'] at hr
        exact hr
      · next h' =>
        rw [h'] at hr
        exact hr
      · next h' =>
        rw [h'] at hr
        exact hr.trans (ih _ _)

theorem logs_saturate (r : Reasoner) : Logs r [] r.saturate.2 := by
  have h := logs_saturateFrom (r.roundBudget + 1) 0 r
  unfold saturate
  split
  · next h' =>
    rw [h'] at h
    exact h.write _ _ (by decide)
  · next h' =>
    rw [h'] at h
    exact h

/-! ## Searches -/

/-- What the search for a target reports, by what it ends with. -/
def searchNews (target : Atom) : Except Failure Nat → List Line
  | .error (.contradiction _ _) => [.aborted target]
  | _ => []

theorem logs_writeAborted (target : Atom) (e : Failure) (hj : r.journal.threshold ≤ Level.warning.rank) :
    Logs r (searchNews target (.error e)) (r.writeAborted target e) := by
  unfold writeAborted
  split
  · exact logs_warning _ hj (Line.reports_aborted target)
  · next hne =>
    have hnews : searchNews target (.error e) = [] := by
      unfold searchNews
      split
      · next x d heq => exact absurd (Except.error.inj heq) (hne x d)
      · rfl
    rw [hnews]
    exact .refl r

theorem searchNews_of_checkCeilings {target : Atom} {rounds : Nat} {e : Failure}
    (h : (r.checkCeilings rounds).1 = .error e) : searchNews target (.error e) = [] := by
  unfold searchNews
  split
  · next x d heq =>
    exact absurd (Except.error.inj heq) (ne_contradiction_of_accounts fun _ => accounts_of_checkCeilings h)
  · rfl

theorem logs_searchFrom (target : Atom) (goal : Coded.Atom) (fuel rounds : Nat) (r : Reasoner)
    (hj : r.journal.threshold ≤ Level.warning.rank) :
    Logs r (searchNews target (searchFrom target goal fuel rounds r).1) (searchFrom target goal fuel rounds r).2 := by
  induction fuel generalizing rounds r with
  | zero => exact .refl r
  | succ fuel ih =>
    have hc := logs_checkCeilings r rounds
    rw [searchFrom]
    split
    · exact .refl r
    · split
      · next h =>
        rw [searchNews_of_checkCeilings (congrArg Prod.fst h)]
        rw [h] at hc
        exact hc
      · next s h =>
        rw [h] at hc
        have hr := hc.trans (logs_round s)
        split
        · next e t h' =>
          rw [h'] at hr
          exact hr.trans (logs_writeAborted target e (hr.threshold ▸ hj))
        · next h' =>
          rw [h'] at hr
          exact hr.write _ _ (by decide)
        · next t h' =>
          rw [h'] at hr
          exact hr.trans (ih _ t (hr.threshold ▸ hj))

/-- A loop that is begun without a contradiction ends without one, unless it fails with it. -/
theorem Coherent.contradiction_of_loops {stop : Reasoner → Prop} {n k : Nat} {y : Ending} (hl : Loops stop n r k y s)
    (h : Coherent r) (hr : r.contradiction = none) :
    s.contradiction = none ∨ ∃ x d?, y = .failed (.contradiction x d?) := by
  induction hl with
  | stopped => exact .inl hr
  | @ceiling n r s e _ hc =>
    have hk := keeps_checkCeilings r n
    rw [hc] at hk
    exact .inl (hk.contradiction.trans hr)
  | failed _ _ hround =>
    obtain ⟨-, hok⟩ | ⟨c, x, d, -, -, -, -, herr, -⟩ := (h.of_round hround).checkConsistent_cases
    · rw [round_eq_error hround] at hok
      cases hok
    · rw [round_eq_error hround] at herr
      exact .inr ⟨x, some d, congrArg _ (Except.error.inj herr)⟩
  | fixpoint _ _ hround => exact .inl (round_eq_ok hround).2.2.2
  | productive _ _ hround _ ih => exact ih (h.of_round hround) (round_eq_ok hround).2.2.2

theorem isConsistent_iff : r.isConsistent = true ↔ r.checkConsistent = .ok () :=
  Option.isNone_iff_eq_none.trans checkConsistent_eq_ok.symm

/-- A search that is begun without a contradiction reports one exactly if it meets one. -/
theorem Coherent.searchNews_eq (h : Coherent r) {target : Atom} {goal : Coded.Atom} {u : SymbolTable}
    {out : Except Failure Nat} (hc : r.contradiction = none) (he : target.encode r.symbols = .ok (goal, u))
    (hrun : searchFrom target goal (r.roundBudget + 1) 0 (r.asked u) = (out, s)) :
    searchNews target out = if s.isConsistent then [] else [.aborted target] := by
  obtain ⟨k, y, t, journal, hloop, -, hsearch⟩ := h.exists_search he
  obtain ⟨rfl, rfl⟩ := Prod.mk.inj (hrun.symm.trans hsearch)
  have hends := (h.keeps (keeps_asked he)).contradiction_of_loops hloop ((keeps_asked he).contradiction.trans hc)
  show _ = if t.isConsistent then [] else [Line.aborted target]
  obtain hnone | ⟨x, d?, rfl⟩ := hends
  · have hcheck : t.checkConsistent = .ok () := checkConsistent_eq_ok.2 hnone
    rw [isConsistent_iff.2 hcheck]
    cases y with
    | stopped => rfl
    | fixpoint => rfl
    | failed e =>
      cases e with
      | contradiction x d? =>
        -- the loop would have met a contradiction
        cases hcheck.symm.trans hloop.checkConsistent_eq
      | _ => rfl
  · have hmet : t.isConsistent = false := Bool.eq_false_iff.2 fun hcons => by
      cases (isConsistent_iff.1 hcons).symm.trans hloop.checkConsistent_eq
    rw [hmet]
    rfl

/-! ## Requests -/

/-- Whether a request meets the first contradiction. -/
def turns (r : Reasoner) (q : Request) : Bool := r.isConsistent && !(r.perform q).isConsistent

/-- What a request reports. A stated fact is called a contradiction if it is new and there is a contradiction then, be
it another one; a query reports that it met one; saturation and rounds report nothing. -/
def announced (r : Reasoner) : Request → List Line
  | .addFact a => if r.statesNew (.addFact a) && !(r.addFact a).2.isConsistent then [.stated a] else []
  | .addRule rule =>
    if r.statesNew (.addRule rule) && !(r.addRule rule).2.isConsistent then [.stated rule.conclusion] else []
  | .query target => if r.turns (.query target) then [.aborted target] else []
  | .saturate => []
  | .round => []

theorem addFact_of_insert {c : Coded.Atom} {u : SymbolTable} {isNew : Bool} (he : a.encode r.symbols = .ok (c, u))
    (hi : insert { r with symbols := u } c .seed = (isNew, s)) :
    r.addFact a = (.ok isNew, if isNew && !s.isConsistent then s.write .warning (Line.stated a).text else s) := by
  simp only [addFact, he, hi]
  split_ifs <;> rfl

theorem logs_addFact (a : Atom) (hj : r.journal.threshold ≤ Level.warning.rank) :
    Logs r (r.announced (.addFact a)) (r.addFact a).2 := by
  show Logs r (if (r.addFact a).1.toOption == some true && !(r.addFact a).2.isConsistent then [Line.stated a] else []) _
  cases he : a.encode r.symbols with
  | error b =>
    have heq : r.addFact a = (.error (.notGround b), r) := by rw [addFact, he]
    rw [heq]
    exact .refl r
  | ok x =>
    obtain ⟨c, u⟩ := x
    have hjournal := journal_insert { r with symbols := u } c .seed
    cases hi : insert { r with symbols := u } c .seed with | mk isNew s
    rw [hi] at hjournal
    have heq := addFact_of_insert he hi
    have hlogs : Logs r [] s := .of_eq hjournal
    cases isNew with
    | false =>
      rw [heq]
      exact hlogs
    | true =>
      cases hs : s.isConsistent with
      | true =>
        have hsilent : r.addFact a = (.ok true, s) := by rw [heq, hs]; rfl
        rw [hsilent, hs]
        exact hlogs
      | false =>
        have hwarned : r.addFact a = (.ok true, s.write .warning (Line.stated a).text) := by rw [heq, hs]; rfl
        have hstill : (s.write .warning (Line.stated a).text).isConsistent = false := hs
        rw [hwarned, hstill]
        exact hlogs.trans (logs_warning _ (hlogs.threshold ▸ hj) (Line.reports_stated a))

theorem logs_addRule (rule : Rule) (hj : r.journal.threshold ≤ Level.warning.rank) :
    Logs r (r.announced (.addRule rule)) (r.addRule rule).2 := by
  show Logs r (if (rule.isAxiom && (r.addRule rule).1.toOption == some true) && !(r.addRule rule).2.isConsistent then
    [Line.stated rule.conclusion] else []) _
  cases hax : rule.isAxiom with
  | true =>
    rw [Bool.true_and]
    cases hg : rule.conclusion.isGround with
    | true =>
      rw [addRule_of_stated hax hg]
      exact logs_addFact rule.conclusion hj
    | false =>
      rw [addRule_eq_of_refused hax hg]
      exact .refl r
  | false =>
    rw [Bool.false_and, Bool.false_and, if_neg Bool.false_ne_true]
    refine .of_eq ?_
    simp only [addRule, hax, Bool.false_eq_true, if_false]
    split_ifs <;> rfl

theorem Coherent.logs_query (h : Coherent r) (target : Atom) (hj : r.journal.threshold ≤ Level.warning.rank) :
    Logs r (r.announced (.query target)) (r.query target).2 := by
  show Logs r (if (r.isConsistent && !(r.query target).2.isConsistent) = true then [Line.aborted target] else []) _
  have hsearch : ∀ {goal u out s}, r.checkConsistent = .ok () → target.encode r.symbols = .ok (goal, u) →
      searchFrom target goal (r.roundBudget + 1) 0 (r.asked u) = (out, s) →
      Logs r (if (r.isConsistent && !s.isConsistent) = true then [.aborted target] else []) s := by
    intro goal u out s hc he hrun
    have hnone := checkConsistent_eq_ok.1 hc
    have hlogs := logs_searchFrom target goal (r.roundBudget + 1) 0 (r.asked u) hj
    rw [hrun, h.searchNews_eq hnone he hrun] at hlogs
    have hasked : Logs r [] (r.asked u) := .of_eq rfl
    rw [isConsistent_iff.2 hc, Bool.true_and]
    cases hs : s.isConsistent <;> rw [hs] at hlogs <;> exact hasked.trans hlogs
  have hq := r.queried target
  generalize r.query target = out at hq
  cases hq with
  | inconsistent _ | notGround _ _ =>
    -- nothing is held, so that there is no turn
    have hsame : r.counted.isConsistent = r.isConsistent := rfl
    rw [hsame, Bool.and_not_self, if_neg Bool.false_ne_true]
    exact .of_eq rfl
  | failed hc he hrun => exact hsearch hc he hrun
  | found hc he hrun _ => exact (hsearch hc he hrun).write _ _ (by decide)

/-- Every request reports what is announced. -/
theorem Coherent.logs_perform (h : Coherent r) (q : Request) (hj : r.journal.threshold ≤ Level.warning.rank) :
    Logs r (r.announced q) (r.perform q) := by
  cases q with
  | addRule rule => exact logs_addRule rule hj
  | addFact a => exact logs_addFact a hj
  | query target => exact h.logs_query target hj
  | saturate => exact logs_saturate r
  | round => exact logs_round r

/-- A history reports what its requests do. -/
theorem Coherent.logs_performAll (h : Coherent r) (qs : List Request) (hj : r.journal.threshold ≤ Level.warning.rank) :
    Logs r ((r.steps qs).flatMap fun e => e.1.announced e.2) (r.performAll qs) := by
  induction qs generalizing r with
  | nil => exact .refl r
  | cons q qs ih =>
    have hlogs := h.logs_perform q hj
    exact hlogs.trans (ih (h.perform q) (hlogs.threshold ▸ hj))

/-! ## What is reported -/

/-- The lines written since that report a contradiction. -/
def reportedSince (earlier later : Journal) : List Line :=
  (later.lines.drop earlier.lines.length).filter Line.reports

def reported (r : Reasoner) (q : Request) : List Line := reportedSince r.journal (r.perform q).journal

theorem Logs.reportedSince_eq (h : Logs r news s) : reportedSince r.journal s.journal = news := by
  obtain ⟨later, hlines, hnews⟩ := h.lines
  rw [reportedSince, hlines, List.drop_left, hnews]

theorem Logs.kept (h : Logs r news s) : r.journal.lines <+: s.journal.lines := by
  obtain ⟨later, hlines, -⟩ := h.lines
  exact ⟨later, hlines.symm⟩

end Reasoner

end Entail
