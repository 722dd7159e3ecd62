import Entail.Proofs.LeastModel
import Entail.Proofs.Warnings
import Mathlib.Data.List.TakeWhile

/-!
# The turn to a contradiction

* `Stating` : a request to add something states a new fact or leaves the facts as they are;
* `Marks` : what is reported marks the turn from no contradiction to one. It does unless the request is `Belated` or
  `Silent` (`Refines.marks_iff`);
* `PlainReasoner.late` : the facts from the first contradiction on, which are what is reported at creation
  (`late_create`). This marks the turn if they are not several (`Refines.marks_late_iff`);
* `Refines.countP_turns` : a history has one turn at most;
* `announces_after` : all of it for every reasoner.
-/

namespace Entail

/-! ## Stated facts -/

namespace PlainReasoner

variable {p : PlainReasoner}

def late (p : PlainReasoner) : List Atom := p.atoms.dropWhile fun x => !p.isBottom x

theorem isNone_hold (p : PlainReasoner) (x : Atom) (y : Reason) :
    (p.hold x y).contradiction.isNone = (p.contradiction.isNone && !p.isBottom x) := by
  rw [PlainReasoner.hold]
  cases p.contradiction <;> cases p.isBottom x <;> rfl

theorem contradiction_eq_head? (h : p.contradiction = p.atoms.find? p.isBottom) : p.contradiction = p.late.head? := by
  rw [h, List.find?_eq_head?_dropWhile_not, late]

theorem isNone_contradiction (h : p.contradiction = p.atoms.find? p.isBottom) :
    p.contradiction.isNone = p.late.isEmpty := by
  rw [contradiction_eq_head? h]
  cases p.late <;> rfl

theorem late_hold (h : p.contradiction = p.atoms.find? p.isBottom) (x : Atom) (y : Reason) :
    (p.hold x y).late = p.late ++ if (p.hold x y).contradiction.isNone then [] else [x] := by
  have hatoms : (p.hold x y).late = (p.atoms ++ [x]).dropWhile fun x => !p.isBottom x := by rw [late, atoms_hold]; rfl
  have happend : (p.hold x y).late = if p.late.isEmpty then [x].dropWhile (fun x => !p.isBottom x) else p.late ++ [x] :=
    hatoms.trans List.dropWhile_append
  rw [happend, isNone_hold, isNone_contradiction h]
  cases p.late with
  | nil =>
    rw [List.dropWhile_cons]
    cases p.isBottom x <;> rfl
  | cons _ _ => rfl

end PlainReasoner

namespace Reasoner

variable {r t : Reasoner} {q : Request} {x : Atom} {p p' : PlainReasoner}

/-- Nothing is reported of what was there before. -/
theorem announced_of_old (hq : q.addsNothing = false) (hold : r.statesNew q = false) : r.announced q = [] := by
  cases q with
  | addRule rule =>
    rw [announced, hold]
    rfl
  | addFact a =>
    rw [announced, hold]
    rfl
  | query | saturate | round => cases hq

/-- What a request to add something comes to: it states a new fact, or leaves the facts as they are and reports
nothing. -/
inductive Stating (r : Reasoner) (p : PlainReasoner) (q : Request) : Prop
  | fact (x : Atom) (hstates : q.States x) (hnew : r.statesNew q = true)
    (hafter : Refines (r.perform q) (p.hold x ⟨[], none, 0⟩))
  | nothing (p' : PlainReasoner) (hnew : r.statesNew q = false) (hnews : r.announced q = [])
    (hafter : Refines (r.perform q) p') (hatoms : p'.atoms = p.atoms)

theorem Refines.stating_addFact (h : Refines r p) (hc : Coherent r) (a : Atom) : Stating r p (.addFact a) := by
  obtain ⟨hout, hafter⟩ := h.addFact_eq hc a
  have hnew : r.statesNew (.addFact a) = ((p.addFact a).1.toOption == some true) := by rw [← hout]; rfl
  unfold PlainReasoner.addFact at hafter hnew
  split_ifs at hafter hnew with hg hmem
  · exact .nothing p hnew (announced_of_old rfl hnew) hafter rfl
  · exact .fact a (Request.states_addFact.2 ⟨hg, rfl⟩) hnew hafter
  · exact .nothing p hnew (announced_of_old rfl hnew) hafter rfl

theorem Refines.stating_addRule (h : Refines r p) (hc : Coherent r) (rule : Rule) : Stating r p (.addRule rule) := by
  cases hax : rule.isAxiom with
  | true =>
    have hnew : r.statesNew (.addRule rule) = ((r.addRule rule).1.toOption == some true) := by
      rw [statesNew, hax, Bool.true_and]
    cases hg : rule.conclusion.isGround with
    | true =>
      have heq := addRule_of_stated (r := r) hax hg
      have hperform : r.perform (.addRule rule) = r.perform (.addFact rule.conclusion) :=
        show (r.addRule rule).2 = (r.addFact rule.conclusion).2 from congrArg Prod.snd heq
      rw [heq] at hnew
      cases h.stating_addFact hc rule.conclusion with
      | fact x hstates hnew' hafter =>
        obtain ⟨-, rfl⟩ := Request.states_addFact.1 hstates
        exact .fact _ (Request.states_addRule.2 ⟨hax, hg, rfl⟩) (hnew.trans hnew') (hperform ▸ hafter)
      | nothing p' hnew' _ hafter hatoms =>
        have hold := hnew.trans hnew'
        exact .nothing p' hold (announced_of_old rfl hold) (hperform ▸ hafter) hatoms
    | false =>
      have hperform : r.perform (.addRule rule) = r := addRule_of_refused hax hg
      rw [addRule_eq_of_refused hax hg] at hnew
      exact .nothing p hnew (announced_of_old rfl hnew) (hperform.symm ▸ h) rfl
  | false =>
    have hnew : r.statesNew (.addRule rule) = false := by rw [statesNew, hax, Bool.false_and]
    obtain ⟨-, hafter⟩ := h.addRule_eq hc rule
    refine .nothing _ hnew (announced_of_old rfl hnew) hafter ?_
    rw [PlainReasoner.addRule, hax]
    split_ifs <;> first | contradiction | rfl

theorem announced_of_states (h : q.States x) :
    r.announced q = if r.statesNew q && !(r.perform q).isConsistent then [.stated x] else [] := by
  obtain ⟨-, rfl | rfl⟩ := h <;> rfl

/-! ## Marks -/

/-- What is reported marks the turn from no contradiction to one: it is one line if there is a turn and none otherwise,
and if it calls a stated fact a contradiction, that fact is one. -/
structure Marks (news : List Line) (turned : Bool) (bottom? : Option String) (States : Atom → Prop) : Prop where
  turned_iff : news ≠ [] ↔ turned = true
  once : news.length ≤ 1
  bottom : ∀ l ∈ news, l.callsStated → ∃ x, States x ∧ l = .stated x ∧ bottom? = some x.predicate

theorem marks_nil (bottom? : Option String) (States : Atom → Prop) : Marks [] false bottom? States :=
  ⟨by simp, by simp, by simp⟩

theorem not_marks_nil (bottom? : Option String) (States : Atom → Prop) : ¬ Marks [] true bottom? States :=
  fun h => h.turned_iff.2 rfl rfl

theorem Refines.isBottom_iff (h : Refines r p) : p.isBottom x = true ↔ r.settings.bottom? = some x.predicate := by
  rw [PlainReasoner.isBottom, h.settings, decide_eq_true_iff]

/-- What is reported of a new fact marks the turn unless there is a contradiction already. -/
theorem Refines.marks_iff_of_states (h : Refines r p) (hc : Coherent r) (hstates : q.States x)
    (hnew : r.statesNew q = true) (hafter : Refines (r.perform q) (p.hold x ⟨[], none, 0⟩)) :
    Marks (r.announced q) (r.turns q) r.settings.bottom? q.States ↔ r.isConsistent = true := by
  have hbefore := h.isConsistent_eq hc
  have hturn : (r.perform q).isConsistent = (r.isConsistent && !p.isBottom x) := by
    rw [hafter.isConsistent_eq (hc.perform q), PlainReasoner.isNone_hold, hbefore]
  rw [announced_of_states hstates, turns, hnew, hturn, Bool.true_and]
  cases hcons : r.isConsistent with
  | false =>
    constructor
    · intro hmarks
      -- the line is there without a turn
      cases hmarks.turned_iff.1 (List.cons_ne_nil _ _)
    · intro h'
      cases h'
  | true =>
    rw [Bool.true_and, iff_true_right rfl]
    cases hbot : p.isBottom x with
    | false => exact marks_nil _ _
    | true =>
      refine ⟨iff_of_true (List.cons_ne_nil _ _) rfl, le_rfl, fun l hl _ => ?_⟩
      exact ⟨x, hstates, List.mem_singleton.1 hl, h.isBottom_iff.1 hbot⟩

/-- Neither saturation nor a round states a fact. -/
theorem ne_of_states (h : q.States x) : q ≠ .saturate ∧ q ≠ .round := by
  obtain ⟨-, rfl | rfl⟩ := h <;> exact ⟨nofun, nofun⟩

/-- A request that leaves the facts as they are reports nothing, and there is no turn. -/
theorem Refines.marks_of_nothing (h : Refines r p) (hc : Coherent r) (hnews : r.announced q = [])
    (hafter : Refines (r.perform q) p') (hatoms : p'.atoms = p.atoms) :
    r.turns q = false ∧ Marks (r.announced q) (r.turns q) r.settings.bottom? q.States := by
  have hbottom : p'.isBottom = p.isBottom := by
    funext y
    rw [PlainReasoner.isBottom, PlainReasoner.isBottom, ← hafter.settings, settings_perform, h.settings]
  have hturns : r.turns q = false := by
    rw [turns, h.isConsistent_eq hc, hafter.isConsistent_eq (hc.perform q), hafter.contradiction, h.contradiction,
      hatoms, hbottom, Bool.and_not_self]
  rw [hnews, hturns]
  exact ⟨rfl, marks_nil _ _⟩

/-- The request states a new fact while there is a contradiction already. -/
def Belated (r : Reasoner) (q : Request) : Prop := r.isConsistent = false ∧ r.statesNew q = true

/-- The request is a saturation or a round and meets the first contradiction. -/
def Silent (r : Reasoner) (q : Request) : Prop := (q = .saturate ∨ q = .round) ∧ r.turns q = true

theorem Refines.marks_iff_of_stating (h : Refines r p) (hc : Coherent r) (hst : Stating r p q) :
    Marks (r.announced q) (r.turns q) r.settings.bottom? q.States ↔ ¬ r.Belated q ∧ ¬ r.Silent q := by
  cases hst with
  | fact x hstates hnew hafter =>
    have hsilent : ¬ r.Silent q := fun hq => hq.1.elim (ne_of_states hstates).1 (ne_of_states hstates).2
    rw [h.marks_iff_of_states hc hstates hnew hafter, and_iff_left hsilent, Belated, hnew, and_iff_left rfl,
      Bool.not_eq_false]
  | nothing p' hnew hnews hafter hatoms =>
    obtain ⟨hturns, hmarks⟩ := h.marks_of_nothing hc hnews hafter hatoms
    refine iff_of_true hmarks ⟨fun hlate => ?_, fun hsilent => ?_⟩
    · exact Bool.false_ne_true (hnew.symm.trans hlate.2)
    · exact Bool.false_ne_true (hturns.symm.trans hsilent.2)

theorem marks_iff_of_silent (hq : q = .saturate ∨ q = .round) :
    Marks (r.announced q) (r.turns q) r.settings.bottom? q.States ↔ ¬ r.Belated q ∧ ¬ r.Silent q := by
  have hnews : r.announced q = [] := by obtain rfl | rfl := hq <;> rfl
  have hbelated : ¬ r.Belated q := by obtain rfl | rfl := hq <;> exact fun hlate => Bool.false_ne_true hlate.2
  rw [and_iff_right hbelated, Silent, and_iff_right hq, hnews]
  cases r.turns q with
  | false => exact iff_of_true (marks_nil _ _) Bool.false_ne_true
  | true => exact iff_of_false (not_marks_nil _ _) fun hnot => hnot rfl

/-- A query reports a contradiction when it meets it. -/
theorem marks_query (r : Reasoner) (target : Atom) (States : Atom → Prop) :
    Marks (r.announced (.query target)) (r.turns (.query target)) r.settings.bottom? States := by
  rw [announced]
  cases r.turns (.query target) with
  | false => exact marks_nil _ _
  | true =>
    refine ⟨iff_of_true (List.cons_ne_nil _ _) rfl, le_rfl, fun l hl hcalls => ?_⟩
    rw [List.mem_singleton.1 hl, Line.callsStated_aborted] at hcalls
    cases hcalls

/-- A request marks the turn unless it is belated, when a contradiction is reported again, or silent, when it is not. -/
theorem Refines.marks_iff (h : Refines r p) (hc : Coherent r) (q : Request) :
    Marks (r.announced q) (r.turns q) r.settings.bottom? q.States ↔ ¬ r.Belated q ∧ ¬ r.Silent q := by
  cases q with
  | addRule rule => exact h.marks_iff_of_stating hc (h.stating_addRule hc rule)
  | addFact a => exact h.marks_iff_of_stating hc (h.stating_addFact hc a)
  | saturate => exact marks_iff_of_silent (.inl rfl)
  | round => exact marks_iff_of_silent (.inr rfl)
  | query target =>
    refine iff_of_true (marks_query r target _) ⟨fun hlate => Bool.false_ne_true hlate.2, fun hsilent => ?_⟩
    obtain ⟨h' | h', -⟩ := hsilent <;> cases h'

/-! ## Creation -/

/-- What is reported of stated facts are those from the first contradiction on. -/
theorem Refines.late_stating (h : Refines r p) (hc : Coherent r) (hst : Stating r p q) :
    ∃ p', Refines (r.perform q) p' ∧ p'.late.map Line.stated = p.late.map Line.stated ++ r.announced q ∧
      ∀ x ∈ p'.atoms, x ∈ p.atoms ∨ q.States x := by
  cases hst with
  | fact x hstates hnew hafter =>
    refine ⟨_, hafter, ?_, fun y hy => ?_⟩
    · rw [PlainReasoner.late_hold h.contradiction, List.map_append, announced_of_states hstates, hnew,
        hafter.isConsistent_eq (hc.perform q)]
      cases (p.hold x ⟨[], none, 0⟩).contradiction <;> rfl
    · rw [PlainReasoner.atoms_hold, List.mem_append, List.mem_singleton] at hy
      obtain hy | rfl := hy
      · exact .inl hy
      · exact .inr hstates
  | nothing p' _ hnews hafter hatoms =>
    have hsettings : p'.settings = p.settings := by rw [← hafter.settings, settings_perform, h.settings]
    refine ⟨p', hafter, ?_, fun y hy => .inl (hatoms ▸ hy)⟩
    rw [hnews, List.append_nil]
    simp only [PlainReasoner.late, PlainReasoner.isBottom, hatoms, hsettings]

/-- The same of rules that are added in order; they state all that is held besides. -/
theorem Refines.late_addRules (h : Refines r p) (hc : Coherent r) (hj : t.journal.threshold ≤ Level.warning.rank)
    (hl : Logs t (p.late.map Line.stated) r) (rules : List Rule) :
    ∃ p', Refines (r.addRules rules).2 p' ∧ Coherent (r.addRules rules).2 ∧
      Logs t (p'.late.map Line.stated) (r.addRules rules).2 ∧
      ∀ x ∈ p'.atoms, x ∈ p.atoms ∨ ∃ rule ∈ rules, (Request.addRule rule).States x := by
  induction rules generalizing r p with
  | nil => exact ⟨p, h, hc, hl, fun x hx => .inl hx⟩
  | cons rule rules ih =>
    obtain ⟨p₁, h₁, hlate, hmem⟩ := h.late_stating hc (h.stating_addRule hc rule)
    have hc₁ : Coherent (r.addRule rule).2 := hc.addRule rule
    have hl₁ : Logs t (p₁.late.map Line.stated) (r.addRule rule).2 :=
      hlate ▸ hl.trans (logs_addRule rule (hl.threshold ▸ hj))
    have h₁ : Refines (r.addRule rule).2 p₁ := h₁
    rw [addRules]
    generalize r.addRule rule = added at h₁ hc₁ hl₁
    obtain ⟨out, s⟩ := added
    cases out with
    | ok _ =>
      obtain ⟨p', h', hc', hl', hmem'⟩ := ih h₁ hc₁ hl₁
      refine ⟨p', h', hc', hl', fun x hx => ?_⟩
      obtain hx | ⟨other, hother, hstates⟩ := hmem' x hx
      · exact (hmem x hx).imp_right fun hstates => ⟨rule, List.mem_cons_self, hstates⟩
      · exact .inr ⟨other, List.mem_cons_of_mem _ hother, hstates⟩
    | error e =>
      exact ⟨p₁, h₁, hc₁, hl₁, fun x hx => (hmem x hx).imp_right fun hstates => ⟨rule, List.mem_cons_self, hstates⟩⟩

theorem late_create (settings : Settings) (journal : Journal) (rules : List Rule)
    (hj : journal.threshold ≤ Level.warning.rank) :
    ∃ p, Refines (create settings journal rules).2 p ∧ Coherent (create settings journal rules).2 ∧
      Logs (empty settings journal) (p.late.map Line.stated) (create settings journal rules).2 ∧
      ∀ x ∈ p.atoms, ∃ rule ∈ rules, (Request.addRule rule).States x := by
  obtain ⟨p, h, hc, hl, hmem⟩ := (refines_empty settings journal).late_addRules (coherent_empty settings journal)
    (t := empty settings journal) hj (.refl _) rules
  have hmem' : ∀ x ∈ p.atoms, ∃ rule ∈ rules, (Request.addRule rule).States x := fun x hx =>
    (hmem x hx).resolve_left List.not_mem_nil
  rw [create]
  generalize (empty settings journal).addRules rules = added at h hc hl
  obtain ⟨out, s⟩ := added
  cases out with
  | ok _ => exact ⟨p, h.write _ _, hc.keeps (keeps_write _ _ _), hl.write _ _ (by decide), hmem'⟩
  | error e => exact ⟨p, h, hc, hl, hmem'⟩

/-- Reporting the facts from the first contradiction on marks the turn if no fact follows the first contradiction. -/
theorem Refines.marks_late_iff (h : Refines r p) (hc : Coherent r) {States : Atom → Prop}
    (hs : ∀ x ∈ p.atoms, States x) :
    Marks (p.late.map Line.stated) (!r.isConsistent) r.settings.bottom? States ↔ p.late.length ≤ 1 := by
  refine ⟨fun hmarks => List.length_map Line.stated ▸ hmarks.once, fun hlen => ?_⟩
  have hhead := PlainReasoner.contradiction_eq_head? h.contradiction
  rw [h.isConsistent_eq hc, PlainReasoner.isNone_contradiction h.contradiction]
  cases hlate : p.late with
  | nil => exact marks_nil _ _
  | cons x later =>
    rw [hlate] at hlen hhead
    obtain rfl : later = [] := List.length_eq_zero_iff.1 (Nat.le_zero.1 (Nat.le_of_succ_le_succ hlen))
    have hfind : p.atoms.find? p.isBottom = some x := h.contradiction.symm.trans hhead
    refine ⟨iff_of_true (List.cons_ne_nil _ _) rfl, le_rfl, fun l hl _ => ⟨x, ?_, List.mem_singleton.1 hl, ?_⟩⟩
    · exact hs x (List.mem_of_find?_eq_some hfind)
    · exact h.isBottom_iff.1 (List.find?_some hfind)

/-! ## Histories -/

/-- A contradiction stays. -/
theorem Refines.isConsistent_of_perform (h : Refines r p) (hc : Coherent r) (q : Request)
    (hs : (r.perform q).isConsistent = true) : r.isConsistent = true := by
  by_contra hr
  obtain ⟨x, d, he⟩ := hc.checkConsistent_eq_error (Bool.not_eq_true _ ▸ hr)
  obtain ⟨p', -, h'⟩ := h.answer_eq hc q
  have hagain := h.checkConsistent_of_grows h' hc (hc.perform q) (hc.grows_perform q) he
  cases hagain.symm.trans (isConsistent_iff.1 hs)

/-- A history has one turn if it meets a contradiction and none otherwise. -/
theorem Refines.countP_turns (h : Refines r p) (hc : Coherent r) (qs : List Request) :
    (r.isConsistent = false → (r.performAll qs).isConsistent = false) ∧
      (r.steps qs).countP (fun e => e.1.turns e.2) = (r.isConsistent && !(r.performAll qs).isConsistent).toNat := by
  induction qs generalizing r p with
  | nil => exact ⟨id, by rw [performAll, List.foldl_nil, Bool.and_not_self]; rfl⟩
  | cons q qs ih =>
    obtain ⟨p', -, h'⟩ := h.answer_eq hc q
    obtain ⟨hstays, hcount⟩ := ih h' (hc.perform q)
    have hback := h.isConsistent_of_perform hc q
    show (_ → ((r.perform q).performAll qs).isConsistent = false) ∧ ((r, q) :: (r.perform q).steps qs).countP _ =
      (r.isConsistent && !((r.perform q).performAll qs).isConsistent).toNat
    rw [List.countP_cons, hcount, turns]
    cases hr : r.isConsistent with
    | false =>
      have hs : (r.perform q).isConsistent = false := Bool.eq_false_iff.2 fun hs => Bool.false_ne_true (hr ▸ hback hs)
      rw [hs, hstays hs]
      exact ⟨fun _ => rfl, rfl⟩
    | true =>
      refine ⟨fun h' => absurd h' (by decide), ?_⟩
      cases hs : (r.perform q).isConsistent with
      | false =>
        rw [hstays hs]
        rfl
      | true => rfl

/-! ## All of it -/

/-- What is reported at creation: the facts from the first contradiction on. -/
structure CreationReports (settings : Settings) (journal : Journal) (rules : List Rule) (facts : List Atom) : Prop where
  held : (create settings journal rules).2.facts = .ok facts
  kept : journal.lines <+: (create settings journal rules).2.journal.lines
  reported : reportedSince journal (create settings journal rules).2.journal =
    (facts.dropWhile fun x => !(settings.bottom? = some x.predicate)).map .stated
  /-- It marks the turn if and only if these are not several. -/
  marks_iff : Marks (reportedSince journal (create settings journal rules).2.journal)
      (!(create settings journal rules).2.isConsistent) settings.bottom?
      (fun x => ∃ rule ∈ rules, (Request.addRule rule).States x) ↔
    (facts.dropWhile fun x => !(settings.bottom? = some x.predicate)).length ≤ 1

/-- What is reported at each request that a reasoner may be given next. -/
structure RequestReports (r : Reasoner) : Prop where
  kept : ∀ q, r.journal.lines <+: (r.perform q).journal.lines
  reported : ∀ q, r.reported q = r.announced q
  /-- It marks the turn if and only if the request is neither belated nor silent. -/
  marks_iff : ∀ q, Marks (r.reported q) (r.turns q) r.settings.bottom? q.States ↔ ¬ r.Belated q ∧ ¬ r.Silent q

theorem Coherent.requestReports (hc : Coherent r) (h : Refines r p) (hj : r.journal.threshold ≤ Level.warning.rank) :
    RequestReports r where
  kept q := (hc.logs_perform q hj).kept
  reported q := (hc.logs_perform q hj).reportedSince_eq
  marks_iff q := by
    rw [reported, (hc.logs_perform q hj).reportedSince_eq]
    exact h.marks_iff hc q

theorem creationReports (settings : Settings) (journal : Journal) (rules : List Rule)
    (hj : journal.threshold ≤ Level.warning.rank) : ∃ facts, CreationReports settings journal rules facts := by
  obtain ⟨p, h, hc, hl, hstates⟩ := late_create settings journal rules hj
  have hsettings : (create settings journal rules).2.settings = settings := settings_after settings journal rules []
  have hlate : p.late = p.atoms.dropWhile fun x => !(settings.bottom? = some x.predicate) := by
    simp only [PlainReasoner.late, PlainReasoner.isBottom, ← h.settings, hsettings]
  have hmarks := h.marks_late_iff hc hstates
  rw [hsettings, hlate] at hmarks
  rw [hlate] at hl
  refine ⟨p.atoms, h.facts_eq hc, hl.kept, hl.reportedSince_eq, ?_⟩
  have hreported : reportedSince journal (create settings journal rules).2.journal = _ := hl.reportedSince_eq
  rw [hreported]
  exact hmarks

/-- Every reasoner reports contradictions so, if warnings are written: at creation, at each request, and over its whole
history, in which there is one turn at most. -/
theorem announces_after (settings : Settings) (journal : Journal) (rules : List Rule) (qs : List Request)
    (hj : journal.threshold ≤ Level.warning.rank) :
    (∃ facts, CreationReports settings journal rules facts) ∧ RequestReports (after settings journal rules qs) ∧
      reportedSince journal (after settings journal rules qs).journal =
        reportedSince journal (create settings journal rules).2.journal ++
          ((create settings journal rules).2.steps qs).flatMap (fun e => e.1.announced e.2) ∧
      ((create settings journal rules).2.steps qs).countP (fun e => e.1.turns e.2) ≤ 1 := by
  obtain ⟨p₀, h₀, hc₀, hl₀, -⟩ := late_create settings journal rules hj
  obtain ⟨p, -, h⟩ := refines_after settings journal rules qs
  have hc := coherent_after settings journal rules qs
  have hj₀ : (create settings journal rules).2.journal.threshold ≤ Level.warning.rank := hl₀.threshold ▸ hj
  have hl := hc₀.logs_performAll qs hj₀
  have hafter : (after settings journal rules qs).journal.threshold ≤ Level.warning.rank := hl.threshold ▸ hj₀
  refine ⟨creationReports settings journal rules hj, hc.requestReports h hafter, ?_, ?_⟩
  · have hwhole := (hl₀.trans hl).reportedSince_eq
    have hcreated := hl₀.reportedSince_eq
    exact hwhole.trans (congrArg (· ++ _) hcreated.symm)
  · rw [(h₀.countP_turns hc₀ qs).2]
    exact Bool.toNat_le _

/-- A query that meets the contradiction reports it, and so does stating one. -/
theorem announces_penguin : Journal.empty.threshold ≤ Level.warning.rank ∧
    (after {} .empty penguin []).reported (.query ⟨"bottom", [.const "tweety"]⟩) =
      [.aborted ⟨"bottom", [.const "tweety"]⟩] ∧
    (after {} .empty penguin []).reported (.addFact ⟨"bottom", []⟩) = [.stated ⟨"bottom", []⟩] := by
  obtain ⟨-, hreports, -, -⟩ := announces_after {} .empty penguin [] (by decide)
  exact ⟨by decide, (hreports.reported _).trans rfl, (hreports.reported _).trans rfl⟩

/-- After a contradiction, a fact that is none is called one; and saturation meets a contradiction without a line. -/
theorem reports_mislead :
    ¬ Marks ((after {} .empty [.fact ⟨"bottom", []⟩] []).reported (.addFact ⟨"p", [.const "a"]⟩))
      ((after {} .empty [.fact ⟨"bottom", []⟩] []).turns (.addFact ⟨"p", [.const "a"]⟩)) (some "bottom")
      (Request.addFact ⟨"p", [.const "a"]⟩).States ∧
    ¬ Marks ((after {} .empty penguin []).reported .saturate) ((after {} .empty penguin []).turns .saturate)
      (some "bottom") Request.saturate.States := by
  constructor
  · intro hmarks
    have hcalled : (after {} .empty [.fact ⟨"bottom", []⟩] []).reported (.addFact ⟨"p", [.const "a"]⟩) =
        [.stated ⟨"p", [.const "a"]⟩] := by rfl
    cases hmarks.turned_iff.1 (hcalled ▸ List.cons_ne_nil _ _)
  · intro hmarks
    have hturned : (after {} .empty penguin []).turns .saturate = true := by rfl
    exact hmarks.turned_iff.2 hturned (by rfl)

end Reasoner

end Entail
