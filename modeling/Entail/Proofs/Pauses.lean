import Entail.Proofs.Termination

/-!
# The round ceiling only pauses the work

* `Concurs r s` : `s` has the names, facts, rules and counts of `r`; ceilings, journal and the count of queries may
  differ. Rounds of two such reasoners do the same (`Concurs.round`);
* `Paced.loops` : a loop of rounds without ceilings, followed under a ceiling on rounds: it ends alike, or it is cut
  at the ceiling and goes on from there;
* `Paused q m c r s` : `c` requests `q` in a row, each cut at the ceiling `m` after just `m` rounds;
* `Paced.saturate`, `Paced.query` : a request that is made again until it is not cut comes to what the one request
  without ceilings comes to (`pauses_after`).
-/

namespace Entail

namespace SymbolTable

variable {t : SymbolTable}

theorem intern_snd_of_mem {name : String} (h : name ∈ t.names) : (t.intern name).2 = t := by
  unfold intern
  cases hl : t.lookup? name with
  | some s => rfl
  | none => exact absurd h (lookup?_eq_none_iff.1 hl)

theorem internAll_snd_of_mem {names : List String} (h : ∀ name ∈ names, name ∈ t.names) :
    (t.internAll names).2 = t := by
  induction names with
  | nil => rfl
  | cons name names ih =>
    obtain ⟨hname, hnames⟩ := List.forall_mem_cons.1 h
    have hfirst := intern_snd_of_mem hname
    simp only [internAll, hfirst, ih hnames]

theorem mem_names_of_nameOf? {s : Symbol} {name : String} (h : t.nameOf? s = some name) : name ∈ t.names :=
  List.mem_of_getElem? (nameOf?_eq_some_iff.1 h).2

end SymbolTable

/-- An atom whose names the table has adds none. -/
theorem Atom.encode_of_reads {t : SymbolTable} {a : Atom} {c : Coded.Atom} (ht : t.Distinct) (h : c.Reads t [] a) :
    a.encode t = .ok (c, t) := by
  obtain ⟨c', u, he⟩ := Atom.exists_encode h.isGround_right t
  obtain ⟨hext, hdist, hread⟩ := Atom.encode_reads he
  obtain rfl : c' = c := hread.inj (hdist ht) List.nodup_nil (h.mono hext List.prefix_rfl)
  have hargs : ∀ name ∈ a.args.map Term.name, name ∈ t.names := by
    intro name hname
    obtain ⟨y, hy, rfl⟩ := List.mem_map.1 hname
    obtain ⟨x, -, hx⟩ := exists_left_of_forall₂ h.args hy
    cases x <;> cases y
    case sym.const s n => exact SymbolTable.mem_names_of_nameOf? hx
    all_goals simp [Coded.Term.Reads] at hx
  have hsame : u = t := by
    rw [encode, if_pos h.isGround_right] at he
    have hu : ((t.intern a.predicate).2.internAll (a.args.map Term.name)).2 = u := (Prod.mk.inj (Except.ok.inj he)).2
    rw [← hu, SymbolTable.intern_snd_of_mem (SymbolTable.mem_names_of_nameOf? h.predicate),
      SymbolTable.internAll_snd_of_mem hargs]
  rw [he, hsame]

namespace Reasoner

variable {r s t l u : Reasoner} {m : Nat}

/-! ## Reasoners with other ceilings -/

def withCeilings (r : Reasoner) (rounds facts : Option Limit) : Reasoner :=
  { r with settings := { r.settings with maxRounds := rounds, maxFacts := facts } }

/-- A reasoner that has these ceilings already is not changed. -/
theorem withCeilings_self {rounds facts : Option Limit} (h₁ : r.settings.maxRounds = rounds)
    (h₂ : r.settings.maxFacts = facts) : r.withCeilings rounds facts = r := by
  subst h₁ h₂
  rfl

theorem Coherent.withCeilings (h : Coherent r) (rounds facts : Option Limit) :
    Coherent (r.withCeilings rounds facts) :=
  ⟨⟨h.distinct, h.facts, h.rules, h.bottom⟩, ⟨h.maps, h.nodup, h.justified⟩, h.premises, h.variants, h.generations,
    h.contradiction⟩

/-- Names, facts with their rounds and reasons, rules, contradiction and the counts of rounds are the same, and so is
the way of matching. -/
structure Concurs (r s : Reasoner) : Prop where
  matching : s.settings.exhaustiveMatching = r.settings.exhaustiveMatching
  symbols : s.symbols = r.symbols
  known : s.known = r.known
  supports : s.supports = r.supports
  rules : s.rules = r.rules
  generation : s.generation = r.generation
  bottom : s.bottom = r.bottom
  contradiction : s.contradiction = r.contradiction
  rounds : s.tally.rounds = r.tally.rounds
  tried : s.tally.tried = r.tally.tried
  rejected : s.tally.rejected = r.tally.rejected
  derived : s.tally.derived = r.tally.derived

theorem concurs_withCeilings (r : Reasoner) (rounds facts rounds' facts' : Option Limit) :
    Concurs (r.withCeilings rounds facts) (r.withCeilings rounds' facts') :=
  ⟨rfl, rfl, rfl, rfl, rfl, rfl, rfl, rfl, rfl, rfl, rfl, rfl⟩

namespace Concurs

theorem journals (h : Concurs r s) (j j' : Journal) : Concurs { r with journal := j } { s with journal := j' } :=
  { h with }

theorem asked (h : Concurs r s) (u : SymbolTable) : Concurs (r.asked u) (s.asked u) :=
  { h with symbols := rfl }

theorem atoms (h : Concurs r s) : s.atoms = r.atoms := by rw [Reasoner.atoms, h.known, Reasoner.atoms]

theorem attempts (h : Concurs r s) : s.attempts = r.attempts := by
  simp only [Reasoner.attempts, selections, h.rules, h.matching, h.atoms]

theorem checkConsistent (h : Concurs r s) : s.checkConsistent = r.checkConsistent := by
  simp only [Reasoner.checkConsistent, nameFact, Reasoner.derive, h.contradiction, h.symbols, h.supports]

theorem derive (h : Concurs r s) (a : Coded.Atom) : s.derive a = r.derive a := by
  simp only [Reasoner.derive, h.symbols, h.supports]

theorem insert (h : Concurs r s) (a : Coded.Atom) (sup : Support) :
    (s.insert a sup).1 = (r.insert a sup).1 ∧ Concurs (r.insert a sup).2 (s.insert a sup).2 := by
  by_cases hmem : a ∈ r.atoms
  · rw [insert_of_mem hmem, insert_of_mem (h.atoms ▸ hmem)]
    exact ⟨rfl, h⟩
  · rw [insert_of_not_mem hmem, insert_of_not_mem (h.atoms ▸ hmem)]
    have hcon : s.isConsistent = r.isConsistent := by rw [isConsistent, h.contradiction, isConsistent]
    have hbot : s.isBottom a = r.isBottom a := by rw [isBottom, h.bottom, isBottom]
    exact ⟨rfl, { h with known := by simp only [h.known], supports := by simp only [h.supports],
                         contradiction := by simp only [hcon, hbot, h.contradiction] }⟩

theorem commit (h : Concurs r s) (g : Nat) (ps : List Coded.Application) :
    (commit g s ps).1 = (commit g r ps).1 ∧ Concurs (commit g r ps).2 (commit g s ps).2 := by
  induction ps generalizing r s with
  | nil => exact ⟨rfl, h⟩
  | cons p ps ih =>
    obtain ⟨hnew, hins⟩ := h.insert p.conclusion ⟨p.premises, some p.rule, g⟩
    rw [Reasoner.commit, Reasoner.commit]
    generalize r.insert p.conclusion ⟨p.premises, some p.rule, g⟩ = x at hnew hins
    generalize s.insert p.conclusion ⟨p.premises, some p.rule, g⟩ = y at hnew hins
    obtain ⟨b, r'⟩ := x
    obtain ⟨b', s'⟩ := y
    obtain rfl : b' = b := hnew
    have hins : Concurs r' s' := hins
    have hcon : s'.isConsistent = r'.isConsistent := by rw [isConsistent, hins.contradiction, isConsistent]
    cases b' with
    | false => exact ih hins
    | true =>
      simp only [hcon]
      split_ifs
      · exact ⟨by rw [(ih hins).1], (ih hins).2⟩
      · exact ⟨rfl, hins⟩

theorem advance (h : Concurs r s) : s.advance.1 = r.advance.1 ∧ Concurs r.advance.2 s.advance.2 := by
  have happ : s.applications = r.applications := by rw [applications, h.attempts, applications]
  obtain ⟨hn, hc⟩ := h.commit (r.generation + 1) r.applications
  simp only [Reasoner.advance, h.attempts, happ, h.generation, hn, true_and]
  exact { hc with generation := rfl, rounds := by simp only [write, h.rounds], tried := by simp only [write, h.tried],
                  rejected := by simp only [write, h.rejected], derived := by simp only [write, h.derived] }

/-- Two such reasoners go through the same round. -/
theorem round (h : Concurs r s) : s.round.1 = r.round.1 ∧ Concurs r.round.2 s.round.2 := by
  obtain ⟨hn, ha⟩ := h.advance
  rw [Reasoner.round, Reasoner.round, h.checkConsistent]
  cases r.checkConsistent with
  | error e => exact ⟨rfl, h⟩
  | ok _ =>
    simp only [ha.checkConsistent, hn]
    cases r.advance.2.checkConsistent with
    | error e => exact ⟨rfl, ha⟩
    | ok _ => exact ⟨rfl, ha⟩

end Concurs

/-! ## Loops under a ceiling -/

/-- What a round that finds something adds to the counts. -/
theorem round_counts {n : Nat} (h : r.round = (.ok (n + 1), s)) :
    s.generation = r.generation + 1 ∧ s.tally.rounds = r.tally.rounds + 1 := by
  obtain ⟨hnone, hn, hk, -⟩ := round_eq_ok h
  rw [round_of_consistent hnone] at h
  obtain ⟨-, rfl⟩ := Prod.mk.inj h
  have hne : r.fresh ≠ [] := by
    intro hnil
    rw [hnil] at hn
    cases hn
  exact ⟨by rw [hk.generation, stepped, if_neg hne], rfl⟩

/-- A loop goes in one way only. -/
theorem Loops.unique {stop : Reasoner → Prop} {n k k' : Nat} {x x' : Ending} (h : Loops stop n r k x s)
    (h' : Loops stop n r k' x' t) : k = k' ∧ x = x' ∧ s = t := by
  induction h generalizing k' with
  | stopped hstop =>
    cases h' with
    | stopped _ => exact ⟨rfl, rfl, rfl⟩
    | ceiling hnot _ | failed hnot _ _ | fixpoint hnot _ _ | productive hnot _ _ _ => exact absurd hstop hnot
  | ceiling hnot hc =>
    cases h' with
    | stopped hstop => exact absurd hstop hnot
    | ceiling _ hc' => cases hc.symm.trans hc'; exact ⟨rfl, rfl, rfl⟩
    | failed _ hc' _ | fixpoint _ hc' _ | productive _ hc' _ _ => cases hc.symm.trans hc'
  | failed hnot hc hr =>
    cases h' with
    | stopped hstop => exact absurd hstop hnot
    | ceiling _ hc' => cases hc.symm.trans hc'
    | failed _ _ hr' => cases hr.symm.trans hr'; exact ⟨rfl, rfl, rfl⟩
    | fixpoint _ _ hr' | productive _ _ hr' _ => cases hr.symm.trans hr'
  | fixpoint hnot hc hr =>
    cases h' with
    | stopped hstop => exact absurd hstop hnot
    | ceiling _ hc' => cases hc.symm.trans hc'
    | failed _ _ hr' | productive _ _ hr' _ => cases hr.symm.trans hr'
    | fixpoint _ _ hr' => cases hr.symm.trans hr'; exact ⟨rfl, rfl, rfl⟩
  | productive hnot hc hr _ ih =>
    cases h' with
    | stopped hstop => exact absurd hstop hnot
    | ceiling _ hc' => cases hc.symm.trans hc'
    | failed _ _ hr' | fixpoint _ _ hr' => cases hr.symm.trans hr'
    | productive _ _ hr' rest =>
      cases hr.symm.trans hr'
      obtain ⟨rfl, rfl, rfl⟩ := ih rest
      exact ⟨rfl, rfl, rfl⟩

theorem Coherent.loops_lt {stop : Reasoner → Prop} {n k : Nat} {x : Ending} (h : Coherent r)
    (hl : Loops stop n r k x s) : k < r.roundBudget := by
  obtain ⟨k', x', s', hl', hk, -⟩ := h.exists_loops stop n
  obtain ⟨rfl, -⟩ := hl.unique hl'
  exact hk.trans_lt r.ncard_openConclusions_lt

/-- The failure of a loop that is cut at a ceiling on rounds. -/
def atCeiling (m : Nat) : Failure := .exhausted .round (.count m) m

/-- Two reasoners that concur, the first without ceilings and the second with one on rounds. -/
structure Paced (m : Nat) (r l : Reasoner) : Prop extends Concurs r l where
  free : r.settings.maxRounds = none ∧ r.settings.maxFacts = none
  bound : l.settings.maxRounds = some (.count m) ∧ l.settings.maxFacts = none

theorem checkCeilings_of_lt {n : Nat} (h : l.settings.maxRounds = some (.count m) ∧ l.settings.maxFacts = none)
    (hn : n < m) : l.checkCeilings n = (.ok (), l) := by
  have hlt : ¬ m ≤ n := by omega
  simp [checkCeilings, checkCeiling, h.1, h.2, Limit.isReached?, hlt]

theorem checkCeilings_at (h : l.settings.maxRounds = some (.count m) ∧ l.settings.maxFacts = none) :
    ∃ journal, l.checkCeilings m = (.error (atCeiling m), { l with journal := journal }) := by
  simp only [checkCeilings, checkCeiling, h.1, Limit.isReached?, decide_true, Int.le_refl]
  exact ⟨_, rfl⟩

namespace Paced

theorem journals (h : Paced m r l) (j j' : Journal) : Paced m { r with journal := j } { l with journal := j' } :=
  ⟨h.toConcurs.journals j j', h.free, h.bound⟩

theorem asked (h : Paced m r l) (u : SymbolTable) : Paced m (r.asked u) (l.asked u) :=
  ⟨h.toConcurs.asked u, h.free, h.bound⟩

/-- A query whose names are there already changes nothing but the count of queries. -/
theorem again (h : Paced m r l) : Paced m r (l.asked l.symbols) := ⟨{ h with }, h.free, h.bound⟩

theorem round (h : Paced m r l) : l.round.1 = r.round.1 ∧ Paced m r.round.2 l.round.2 := by
  obtain ⟨hout, hc⟩ := h.toConcurs.round
  refine ⟨hout, hc, ?_, ?_⟩
  · rw [(search_round r).settings]
    exact h.free
  · rw [(search_round l).settings]
    exact h.bound

end Paced

/-- The ceiling cuts off the part of a loop after its first `d` rounds, just as many as were allowed after `j` rounds:
under the ceiling, the loop of `l` fails and leaves `l'`; without ceilings, it goes on from `r'`. -/
structure Cut (stop : Reasoner → Prop) (m j n k : Nat) (l : Reasoner) (x : Ending) (t : Reasoner) (d : Nat)
    (r' l' : Reasoner) : Prop where
  allowed : j + d = m
  le : d ≤ k
  loop : Loops stop j l d (.failed (atCeiling m)) l'
  paced : Paced m r' l'
  generation : l'.generation = l.generation + d
  rounds : l'.tally.rounds = l.tally.rounds + d
  consistent : l.contradiction = none → l'.contradiction = none
  rest : Loops stop (n + d) r' (k - d) x t

section
variable {stop : Reasoner → Prop} (hstop : ∀ {a b}, Concurs a b → (stop b ↔ stop a)) {n k j : Nat} {x : Ending}
include hstop

/-- If no round is allowed any more, all of the loop is cut off. -/
theorem Paced.cut (h : Paced m r l) (hl : Loops stop n r k x t) (hnot : ¬ stop r) :
    ∃ l', Cut stop m m n k l x t 0 r l' := by
  obtain ⟨journal, hc⟩ := checkCeilings_at h.bound
  have hloop := Loops.ceiling ((hstop h.toConcurs).not.2 hnot) hc
  exact ⟨_, rfl, Nat.zero_le _, hloop, h.journals r.journal journal, rfl, rfl, id, hl⟩

/-- A loop without ceilings ends alike under a ceiling on rounds, or is cut by it. -/
theorem Paced.loops (h : Paced m r l) (hl : Loops stop n r k x t) (hj : j ≤ m) :
    (∃ t', Loops stop j l k x t' ∧ Paced m t t') ∨ ∃ d r' l', Cut stop m j n k l x t d r' l' := by
  induction hl generalizing l j with
  | stopped hr => exact .inl ⟨l, .stopped ((hstop h.toConcurs).2 hr), h⟩
  | ceiling _ hc =>
    rw [checkCeilings_of_none h.free.1 h.free.2] at hc
    cases hc
  | @failed n r s e hnot hc hr =>
    rcases Nat.eq_or_lt_of_le hj with rfl | hlt
    · exact .inr ⟨0, r, h.cut hstop (.failed hnot hc hr) hnot⟩
    · obtain ⟨hout, hp⟩ := h.round
      rw [hr] at hout hp
      have hround : l.round = (.error e, l.round.2) := Prod.ext hout rfl
      have hatoms : (l.round.2.atoms = l.atoms) = (s.atoms = r.atoms) := by rw [hp.atoms, h.atoms]
      have hloop := Loops.failed ((hstop h.toConcurs).not.2 hnot) (checkCeilings_of_lt h.bound hlt) hround
      simp only [hatoms] at hloop
      exact .inl ⟨_, hloop, hp⟩
  | @fixpoint n r s hnot hc hr =>
    rcases Nat.eq_or_lt_of_le hj with rfl | hlt
    · exact .inr ⟨0, r, h.cut hstop (.fixpoint hnot hc hr) hnot⟩
    · obtain ⟨hout, hp⟩ := h.round
      rw [hr] at hout hp
      have hround : l.round = (.ok 0, l.round.2) := Prod.ext hout rfl
      exact .inl ⟨_, .fixpoint ((hstop h.toConcurs).not.2 hnot) (checkCeilings_of_lt h.bound hlt) hround, hp⟩
  | @productive n i k r s t x hnot hc hr rest ih =>
    rcases Nat.eq_or_lt_of_le hj with rfl | hlt
    · exact .inr ⟨0, r, h.cut hstop (.productive hnot hc hr rest) hnot⟩
    · obtain ⟨hout, hp⟩ := h.round
      rw [hr] at hout hp
      have hround : l.round = (.ok (i + 1), l.round.2) := Prod.ext hout rfl
      obtain ⟨hgen, hrounds⟩ := round_counts hround
      have hfirst : ∀ {d y l'}, Loops stop (j + 1) l.round.2 d y l' → Loops stop j l (d + 1) y l' :=
        .productive ((hstop h.toConcurs).not.2 hnot) (checkCeilings_of_lt h.bound hlt) hround
      obtain ⟨t', hloop, ht⟩ | ⟨d, r', l', hcut⟩ := ih hp hlt
      · exact .inl ⟨t', hfirst hloop, ht⟩
      · have hallowed := hcut.allowed
        have hle := hcut.le
        have hgen' := hcut.generation
        have hrounds' := hcut.rounds
        have hrest := hcut.rest
        rw [← Nat.add_sub_add_right k 1 d, Nat.add_right_comm] at hrest
        have hnone := hcut.consistent (round_eq_ok hround).2.2.2
        exact .inr ⟨d + 1, r', l', by omega, by omega, hfirst hcut.loop, hcut.paced, by omega, by omega, fun _ => hnone,
          hrest⟩

end

/-! ## Requests made again -/

/-- Requests `q`, one after the other: each is cut at a ceiling of `m` rounds after just `m` rounds, all of them
productive. -/
inductive Paused (q : Request) (m : Nat) : Nat → Reasoner → Reasoner → Prop
  | none (r : Reasoner) : Paused q m 0 r r
  | again {c : Nat} {r s t : Reasoner} {reply : Reply} (h : r.answer q = (reply, s))
      (hfail : reply.failure? = some (.exhausted .round (.count m) m))
      (hgeneration : s.generation = r.generation + m) (hrounds : s.tally.rounds = r.tally.rounds + m)
      (rest : Paused q m c s t) : Paused q m (c + 1) r t

/-- Saturation without ceilings, cut into saturations under a ceiling. -/
theorem Paced.saturate {n k : Nat} {x : Ending} (h : Paced m r l) (hm : 0 < m) (hc : Coherent l)
    (hl : Loops (fun _ => False) n r k x t) :
    ∃ c k' u t', Paused .saturate m c l u ∧ c * m + k' = k ∧ u.saturate = (x.saturated k', t') ∧ Paced m t t' := by
  induction k using Nat.strong_induction_on generalizing n r l with
  | _ k ih =>
    obtain ⟨t', hloop, ht⟩ | ⟨d, r', l', hcut⟩ := h.loops (fun _ => Iff.rfl) hl (Nat.zero_le m)
    · obtain ⟨journal, hsat⟩ := saturate_of_loops hloop (hc.loops_lt hloop).le
      exact ⟨0, k, l, _, .none l, by omega, hsat, ht.journals t.journal journal⟩
    · obtain rfl : d = m := by rw [← hcut.allowed, Nat.zero_add]
      obtain ⟨journal, hsat⟩ := saturate_of_loops hcut.loop (hc.loops_lt hcut.loop).le
      have hsearch := search_saturate l
      rw [hsat] at hsearch
      have hc' : Coherent { l' with journal := journal } := hc.search hsearch
      have hle := hcut.le
      obtain ⟨c, k', u, t', hpaused, hk, hend⟩ :=
        ih (k - d) (by omega) (hcut.paced.journals r'.journal journal) hc' hcut.rest
      have hans : l.answer .saturate = (.counted (.error (atCeiling d)), { l' with journal := journal }) := by
        rw [answer, hsat]
        rfl
      exact ⟨c + 1, k', u, t', .again hans rfl hcut.generation hcut.rounds hpaused, by rw [Nat.add_mul]; omega, hend⟩

def Ending.replied (target : Atom) (goal : Coded.Atom) (s : Reasoner) : Ending → Except Failure (Option Derivation)
  | .stopped => s.derive goal
  | .fixpoint => .error (.notEntailed target)
  | .failed e => .error e

section
variable {target : Atom} {goal : Coded.Atom} {tbl : SymbolTable} {n k : Nat} {x : Ending}

theorem query_of_loops (hnone : r.contradiction = none) (he : target.encode r.symbols = .ok (goal, tbl))
    (hl : Loops (fun s => goal ∈ s.atoms) 0 (r.asked tbl) k x s) (hk : k ≤ r.roundBudget) :
    ∃ journal, r.query target = (x.replied target goal s, { s with journal := journal }) := by
  have hc := checkConsistent_eq_ok.2 hnone
  obtain ⟨journal, hrun⟩ : ∃ journal, searchFrom target goal (r.roundBudget + 1) 0 (r.asked tbl) = _ :=
    searchFrom_of_loops hl (Nat.lt_succ_of_le hk)
  cases x with
  | stopped =>
    obtain ⟨text, hq⟩ := query_of_found hc he hrun
    exact ⟨_, hq⟩
  | fixpoint => exact ⟨journal, query_of_failed hc he hrun⟩
  | failed e => exact ⟨journal, query_of_failed hc he hrun⟩

/-- A query without ceilings, cut into queries under a ceiling. -/
theorem Paced.query (h : Paced m r (l.asked tbl)) (hm : 0 < m) (hc : Coherent l) (hnone : l.contradiction = none)
    (he : target.encode l.symbols = .ok (goal, tbl)) (hl : Loops (fun s => goal ∈ s.atoms) n r k x t) :
    ∃ c u t', Paused (.query target) m c l u ∧ u.query target = (x.replied target goal t, t') ∧ Paced m t t' := by
  induction k using Nat.strong_induction_on generalizing n r l tbl with
  | _ k ih =>
    have hasked := hc.keeps (keeps_asked he)
    have hbudget : (l.asked tbl).roundBudget = l.roundBudget := rfl
    obtain ⟨t', hloop, ht⟩ | ⟨d, r', l', hcut⟩ := h.loops (fun h => by rw [h.atoms]) hl (Nat.zero_le m)
    · obtain ⟨journal, hq⟩ := query_of_loops hnone he hloop (hbudget ▸ hasked.loops_lt hloop).le
      refine ⟨0, l, _, .none l, ?_, ht.journals t.journal journal⟩
      rw [hq]
      cases x with
      | stopped => rw [Ending.replied, Ending.replied, ht.derive]
      | fixpoint => rfl
      | failed e => rfl
    · obtain rfl : d = m := by rw [← hcut.allowed, Nat.zero_add]
      obtain ⟨journal, hq⟩ := query_of_loops hnone he hcut.loop (hbudget ▸ hasked.loops_lt hcut.loop).le
      have hsearch := search_query l target
      rw [hq] at hsearch
      have hc' : Coherent { l' with journal := journal } := hc.search hsearch
      -- the names of the target are there already when the query is made again
      have hread : goal.Reads l'.symbols [] target :=
        (Atom.encode_reads he).2.2.mono hcut.loop.search.table List.prefix_rfl
      have he' := Atom.encode_of_reads hc'.distinct hread
      obtain ⟨c, u, t', hpaused, hend⟩ := ih (k - d) (by have := hcut.le; omega)
        ((hcut.paced.journals r'.journal journal).again) hc' (hcut.consistent hnone) he' hcut.rest
      have hans : l.answer (.query target) = (.proved (.error (atCeiling d)), { l' with journal := journal }) := by
        rw [answer, hq]
        rfl
      exact ⟨c + 1, u, t', .again hans rfl hcut.generation hcut.rounds hpaused, hend⟩

end

/-! ## Resuming -/

/-- A ceiling of `m` rounds only pauses the work of a reasoner that is asked again for as long as the answer is that the
ceiling is reached. In the end the facts, their rounds and their reasons are those that the reasoner without ceilings
comes to at once, and so is the answer, but that saturation counts only the rounds since the last pause. -/
structure Pauses (m : Nat) (r : Reasoner) : Prop where
  saturate : ∃ c u, Paused .saturate m c (r.withCeilings (some (.count m)) none) u ∧
    Concurs (r.withCeilings none none).saturate.2 u.saturate.2 ∧
    ((∃ n, (r.withCeilings none none).saturate.1 = .ok (c * m + n) ∧ u.saturate.1 = .ok n) ∨
      ∃ a d, (r.withCeilings none none).saturate.1 = .error (.contradiction a (some d)) ∧
        u.saturate.1 = .error (.contradiction a (some d)))
  query : ∀ target, ∃ c u, Paused (.query target) m c (r.withCeilings (some (.count m)) none) u ∧
    Concurs ((r.withCeilings none none).query target).2 (u.query target).2 ∧
    (u.query target).1 = ((r.withCeilings none none).query target).1 ∧
    ((∃ d, (u.query target).1 = .ok (some d)) ∨ (u.query target).1 = .error (.notGround target) ∨
      (u.query target).1 = .error (.notEntailed target) ∨
      ∃ a d, (u.query target).1 = .error (.contradiction a (some d)))

theorem paced_withCeilings (m : Nat) (r : Reasoner) :
    Paced m (r.withCeilings none none) (r.withCeilings (some (.count m)) none) :=
  ⟨concurs_withCeilings r .., ⟨rfl, rfl⟩, ⟨rfl, rfl⟩⟩

theorem Coherent.pauses (h : Coherent r) (hm : 0 < m) : Pauses m r where
  saturate := by
    have hfree := h.withCeilings none none
    obtain ⟨k, x, s, hloop, hk, hx⟩ := hfree.exists_loops (fun _ => False) 0
    obtain ⟨journal, hsat⟩ := saturate_of_loops hloop (hfree.loops_lt hloop).le
    obtain ⟨c, n, u, t, hpaused, hn, hu, ht⟩ := (paced_withCeilings m r).saturate hm (h.withCeilings _ _) hloop
    refine ⟨c, u, hpaused, ?_, ?_⟩
    · rw [hsat, hu]
      exact ht.toConcurs.journals journal t.journal
    · rw [hsat, hu]
      cases x with
      | stopped => exact (hloop.stop_of_stopped rfl).elim
      | fixpoint => exact .inl ⟨n, by rw [hn]; rfl, rfl⟩
      | failed e =>
        obtain ⟨a, d, rfl⟩ := hx rfl rfl e rfl
        exact .inr ⟨a, d, rfl, rfl⟩
  query target := by
    have hfree := h.withCeilings none none
    have hp := paced_withCeilings m r
    have hlim := h.withCeilings (some (.count m)) none
    generalize r.withCeilings none none = f at hfree hp ⊢
    generalize r.withCeilings (some (.count m)) none = l at hlim hp ⊢
    have hcons := hp.checkConsistent
    obtain ⟨hnone, hok⟩ | ⟨-, a, d, -, -, -, -, herr, -⟩ := hfree.checkConsistent_cases
    · cases hg : target.isGround with
      | false =>
        rw [hok] at hcons
        refine ⟨0, l, .none l, ?_, ?_, .inr (.inl ?_)⟩
        · rw [query_of_not_ground hok hg, query_of_not_ground hcons hg]
          exact { hp.toConcurs with }
        · rw [query_of_not_ground hok hg, query_of_not_ground hcons hg]
        · rw [query_of_not_ground hcons hg]
      | true =>
        obtain ⟨goal, tbl, he⟩ := Atom.exists_encode hg f.symbols
        have hasked := hfree.keeps (keeps_asked he)
        obtain ⟨k, x, s, hloop, -, hx⟩ := hasked.exists_loops (fun s => goal ∈ s.atoms) 0
        obtain ⟨journal, hq⟩ := query_of_loops hnone he hloop (hasked.loops_lt hloop).le
        obtain ⟨c, u, t, hpaused, hu, ht⟩ := (hp.asked tbl).query hm hlim (hp.contradiction.trans hnone)
          (hp.symbols ▸ he) hloop
        refine ⟨c, u, hpaused, ?_, by rw [hq, hu], ?_⟩
        · rw [hq, hu]
          exact ht.toConcurs.journals journal t.journal
        · rw [hu]
          cases x with
          | stopped =>
            obtain ⟨d, hd, -⟩ := (hasked.search hloop.search).derive_eq_ok (hloop.stop_of_stopped rfl)
              ((Atom.encode_reads he).2.2.mono hloop.search.table List.prefix_rfl)
            exact .inl ⟨d, hd⟩
          | fixpoint => exact .inr (.inr (.inl rfl))
          | failed e =>
            obtain ⟨a, d, rfl⟩ := hx hp.free.1 hp.free.2 e rfl
            exact .inr (.inr (.inr ⟨a, d, rfl⟩))
    · refine ⟨0, l, .none l, ?_, ?_, .inr (.inr (.inr ⟨a, d, ?_⟩))⟩
      · rw [query_of_inconsistent herr, query_of_inconsistent (hcons.trans herr)]
        exact { hp.toConcurs with }
      · rw [query_of_inconsistent herr, query_of_inconsistent (hcons.trans herr)]
      · rw [query_of_inconsistent (hcons.trans herr)]

/-- Whatever the settings that a reasoner was created with, a ceiling on rounds that it is put under only pauses the
work. -/
theorem pauses_after (settings : Settings) (journal : Journal) (rules : List Rule) (qs : List Request) (m : Nat)
    (hm : 0 < m) : Pauses m (after settings journal rules qs) :=
  (coherent_after settings journal rules qs).pauses hm

def pairs : Settings := { maxRounds := some (.count 2), maxFacts := none }

/-- The first saturation is cut after two rounds. -/
theorem pauses_chain :
    (after pairs .empty chain []).saturate.1 = .error (.exhausted .round (.count 2) 2) ∧
    (after pairs .empty chain []).withCeilings (some (.count 2)) none = after pairs .empty chain [] ∧
    0 < 2 ∧ Pauses 2 (after pairs .empty chain []) :=
  ⟨by rfl, withCeilings_self (by rfl) (by rfl), by decide, pauses_after pairs .empty chain [] 2 (by decide)⟩

end Reasoner

end Entail
