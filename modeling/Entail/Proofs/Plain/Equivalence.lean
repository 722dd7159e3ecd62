import Entail.Proofs.LeastModel
import Entail.Proofs.Plain.Refinement

/-!
# A reasoner answers like a reasoner over names

* `Refines.saturateFrom_eq`, `Refines.searchFrom_eq` : rounds one after the other, ceilings between them;
* `Refines.answer_eq` : the same reply to every request, and reasoners that match again;
* `Agrees r p` : all that is seen of `r` in names is what `p` holds; `Refines.agrees` : reasoners that match agree;
* `agrees_after` : a reasoner agrees with the one over names after any requests, and replies alike to every next one.
-/

namespace Entail.Reasoner

variable {r s : Reasoner} {p : PlainReasoner} {a : Coded.Atom} {x : Atom}

/-! ## Ceilings -/

theorem checkCeiling_eq (r : Reasoner) (c : Ceiling) (limit? : Option Limit) (count rounds : Nat)
    (line : String → String) : ∃ journal, r.checkCeiling c limit? count rounds line =
      ((PlainReasoner.atCeiling c limit? count rounds).elim (.ok ()) .error, { r with journal := journal }) := by
  cases limit? with
  | none => exact ⟨_, rfl⟩
  | some limit =>
    simp only [checkCeiling, PlainReasoner.atCeiling, Option.bind_some]
    cases limit.isReached? count with
    | none => exact ⟨_, rfl⟩
    | some b => cases b <;> exact ⟨_, rfl⟩

theorem checkCeilings_eq (r : Reasoner) (n : Nat) : ∃ journal, r.checkCeilings n =
    (((PlainReasoner.atCeiling .round r.settings.maxRounds n n).or
      (PlainReasoner.atCeiling .fact r.settings.maxFacts r.factCount n)).elim (.ok ()) .error,
      { r with journal := journal }) := by
  obtain ⟨journal, hround⟩ := r.checkCeiling_eq .round r.settings.maxRounds n n
    fun limit => "Round ceiling " ++ limit ++ " reached"
  rw [checkCeilings, hround]
  cases PlainReasoner.atCeiling .round r.settings.maxRounds n n with
  | some e => exact ⟨journal, rfl⟩
  | none => exact checkCeiling_eq { r with journal := journal } _ _ _ _ _

theorem Refines.factCount_eq (h : Refines r p) (hs : Supported r) : r.factCount = p.facts.length := by
  have hlen := (h.atoms hs).length_eq
  rwa [Reasoner.atoms, PlainReasoner.atoms, List.length_map, List.length_map] at hlen

theorem Refines.checkCeilings_eq (h : Refines r p) (hs : Supported r) (n : Nat) :
    ∃ journal, r.checkCeilings n = ((p.atCeilings n).elim (.ok ()) .error, { r with journal := journal }) := by
  rw [PlainReasoner.atCeilings, ← h.settings, ← h.factCount_eq hs]
  exact r.checkCeilings_eq n

theorem Refines.journal (h : Refines r p) (journal : Journal) : Refines { r with journal := journal } p :=
  h.keeps (keeps_journal r journal) h.tally

theorem Refines.of_ceiling (h : Refines r p) (hs : Supported r) {n : Nat} {e : Failure}
    (hc : r.checkCeilings n = (.error e, s)) : p.atCeilings n = some e ∧ Refines s p := by
  obtain ⟨journal, heq⟩ := h.checkCeilings_eq hs n
  obtain ⟨hout, rfl⟩ := Prod.mk.inj (hc.symm.trans heq)
  refine ⟨?_, h.journal journal⟩
  cases hat : p.atCeilings n with
  | none => rw [hat] at hout; cases hout
  | some e' => rw [hat] at hout; rw [Except.error.inj hout]

theorem Refines.atCeilings_eq_none (h : Refines r p) (hs : Supported r) {n : Nat}
    (hc : r.checkCeilings n = (.ok (), s)) : p.atCeilings n = none := by
  obtain ⟨journal, heq⟩ := h.checkCeilings_eq hs n
  have hout := (Prod.mk.inj (hc.symm.trans heq)).1
  cases hat : p.atCeilings n with
  | none => rfl
  | some e => rw [hat] at hout; cases hout

/-! ## Rounds one after the other -/

theorem Refines.of_round (h : Refines r p) (hc : Coherent r) {out : Except Failure Nat} (hr : r.round = (out, s)) :
    p.round = (out, p.round.2) ∧ Refines s p.round.2 := by
  obtain ⟨t, heq, ht⟩ := h.round_eq hc
  obtain ⟨rfl, rfl⟩ := Prod.mk.inj (hr.symm.trans heq)
  exact ⟨rfl, ht⟩

theorem Coherent.of_round (hc : Coherent r) {out : Except Failure Nat} (hr : r.round = (out, s)) : Coherent s := by
  have hs := search_round r
  rw [hr] at hs
  exact hc.search hs

theorem Refines.saturateFrom_eq (h : Refines r p) (hc : Coherent r) {n k : Nat} {e : Ending}
    (hl : Loops (fun _ => False) n r k e s) : ∃ q, p.saturateFrom n = some (e.saturated (n + k), q) ∧ Refines s q := by
  induction hl generalizing p with
  | stopped hstop => exact hstop.elim
  | ceiling _ hceil =>
    obtain ⟨hat, hs⟩ := h.of_ceiling hc.toSupported hceil
    rw [PlainReasoner.saturateFrom, hat]
    exact ⟨p, rfl, hs⟩
  | failed _ hceil hr =>
    obtain ⟨hround, hs⟩ := h.of_round hc hr
    rw [PlainReasoner.saturateFrom, h.atCeilings_eq_none hc.toSupported hceil, hround]
    exact ⟨_, rfl, hs⟩
  | fixpoint _ hceil hr =>
    obtain ⟨hround, hs⟩ := h.of_round hc hr
    rw [PlainReasoner.saturateFrom, h.atCeilings_eq_none hc.toSupported hceil, hround]
    exact ⟨_, rfl, hs⟩
  | @productive n m k r s t e _ hceil hr _ ih =>
    obtain ⟨hround, hs⟩ := h.of_round hc hr
    rw [PlainReasoner.saturateFrom, h.atCeilings_eq_none hc.toSupported hceil, hround]
    rw [← Nat.add_comm 1 k, ← Nat.add_assoc n 1 k]
    exact ih hs (hc.of_round hr)

theorem Refines.searchFrom_eq (h : Refines r p) (hc : Coherent r) (hx : a.Reads r.symbols [] x) {n k : Nat} {e : Ending}
    (hl : Loops (fun s => a ∈ s.atoms) n r k e s) :
    ∃ q, p.searchFrom x n = some (e.searched x (n + k), q) ∧ Refines s q := by
  induction hl generalizing p with
  | stopped hstop =>
    rw [PlainReasoner.searchFrom, if_pos ((h.mem_iff hc hx).1 hstop)]
    exact ⟨p, rfl, h⟩
  | ceiling hstop hceil =>
    obtain ⟨hat, hs⟩ := h.of_ceiling hc.toSupported hceil
    have hnot := mt (h.mem_iff hc hx).2 hstop
    rw [PlainReasoner.searchFrom, if_neg hnot, hat]
    exact ⟨p, rfl, hs⟩
  | failed hstop hceil hr =>
    obtain ⟨hround, hs⟩ := h.of_round hc hr
    have hnot := mt (h.mem_iff hc hx).2 hstop
    rw [PlainReasoner.searchFrom, if_neg hnot, h.atCeilings_eq_none hc.toSupported hceil, hround]
    exact ⟨_, rfl, hs⟩
  | fixpoint hstop hceil hr =>
    obtain ⟨hround, hs⟩ := h.of_round hc hr
    have hnot := mt (h.mem_iff hc hx).2 hstop
    rw [PlainReasoner.searchFrom, if_neg hnot, h.atCeilings_eq_none hc.toSupported hceil, hround]
    exact ⟨_, rfl, hs⟩
  | @productive n m k r s t e hstop hceil hr _ ih =>
    obtain ⟨hround, hs⟩ := h.of_round hc hr
    have hnot := mt (h.mem_iff hc hx).2 hstop
    rw [PlainReasoner.searchFrom, if_neg hnot, h.atCeilings_eq_none hc.toSupported hceil, hround]
    rw [← Nat.add_comm 1 k, ← Nat.add_assoc n 1 k]
    have htable := (search_round r).table
    rw [hr] at htable
    exact ih hs (hc.of_round hr) (hx.mono htable List.prefix_rfl)

theorem Refines.saturate_eq (h : Refines r p) (hc : Coherent r) :
    ∃ q, p.saturate = some (r.saturate.1, q) ∧ Refines r.saturate.2 q := by
  obtain ⟨k, e, s, journal, hl, -, hsat⟩ := hc.exists_saturate
  obtain ⟨q, hq, hs⟩ := h.saturateFrom_eq hc hl
  rw [Nat.zero_add] at hq
  exact ⟨q, by rw [PlainReasoner.saturate, hq, hsat], by rw [hsat]; exact hs.journal journal⟩

theorem Refines.counted (h : Refines r p) : Refines r.counted p.counted :=
  h.keeps (keeps_counted r) (by rw [Reasoner.counted, h.tally])

/-- The search of a query. -/
theorem Refines.search_eq (h : Refines r p) (hc : Coherent r) {target : Atom} {u : SymbolTable}
    {out : Except Failure Nat} (he : target.encode r.symbols = .ok (a, u))
    (hrun : searchFrom target a (r.roundBudget + 1) 0 (r.asked u) = (out, s)) :
    ∃ q, p.counted.searchFrom target 0 = some (out, q) ∧ Refines s q := by
  obtain ⟨-, -, hreads⟩ := Atom.encode_reads he
  have hk := keeps_asked he
  have hasked : Refines (r.asked u) p.counted := h.keeps hk h.counted.tally
  obtain ⟨k, e, t, journal, hl, -, heq⟩ := hc.exists_search he
  obtain ⟨rfl, rfl⟩ := Prod.mk.inj (hrun.symm.trans heq)
  obtain ⟨q, hq, hs⟩ := hasked.searchFrom_eq (hc.keeps hk) hreads hl
  rw [Nat.zero_add] at hq
  exact ⟨q, hq, hs.journal journal⟩

theorem Refines.query_eq (h : Refines r p) (hc : Coherent r) (target : Atom) :
    ∃ q, p.query target = some ((r.query target).1, q) ∧ Refines (r.query target).2 q := by
  have hcheck := h.checkConsistent_eq hc
  have hq := r.queried target
  generalize r.query target = out at hq ⊢
  rw [PlainReasoner.query, ← hcheck]
  cases hq with
  | inconsistent hr =>
    rw [hr]
    exact ⟨_, rfl, h.counted⟩
  | notGround hr hg =>
    rw [hr, hg]
    exact ⟨_, rfl, h.counted⟩
  | failed hr he hrun =>
    obtain ⟨-, -, hreads⟩ := Atom.encode_reads he
    obtain ⟨q, hq, hs⟩ := h.search_eq hc he hrun
    simp only [hr, hreads.isGround_right, if_true, hq, Option.map_some]
    exact ⟨q, rfl, hs⟩
  | @found goal u n s out text hr he hrun hd =>
    obtain ⟨-, -, hreads⟩ := Atom.encode_reads he
    obtain ⟨q, hq, hs⟩ := h.search_eq hc he hrun
    have hsearch := search_searchFrom target goal (r.roundBudget + 1) 0 (r.asked u)
    rw [hrun] at hsearch
    have hcs := (hc.keeps (keeps_asked he)).search hsearch
    rw [← hd, hs.derive_eq hcs (hreads.mono hsearch.table List.prefix_rfl)]
    simp only [hr, hreads.isGround_right, if_true, hq, Option.map_some]
    exact ⟨q, rfl, hs.write _ _⟩

/-! ## Stating facts and rules -/

theorem Refines.hold (h : Refines r p) (hc : Coherent r) (hx : a.Reads r.symbols [] x) (ha : a ∉ r.atoms) :
    Refines (r.insert a .seed).2 (p.hold x ⟨[], none, 0⟩) := by
  rw [insert_of_not_mem ha, put_of_not_mem (hc.keys ▸ ha)]
  refine ⟨h.settings, ?_, h.rules, h.generation, PlainReasoner.contradiction_hold h.contradiction _ _, h.tally⟩
  exact List.rel_append h.facts (.cons ⟨hx, Support.reads_seed _⟩ .nil)

theorem Refines.addFact_eq (h : Refines r p) (hc : Coherent r) (x : Atom) :
    (r.addFact x).1 = (p.addFact x).1 ∧ Refines (r.addFact x).2 (p.addFact x).2 := by
  cases hg : x.isGround with
  | false =>
    rw [addFact, Atom.encode_of_not_ground hg, PlainReasoner.addFact, hg]
    exact ⟨rfl, h⟩
  | true =>
    obtain ⟨c, u, he⟩ := Atom.exists_encode hg r.symbols
    obtain ⟨hext, hdist, hreads⟩ := Atom.encode_reads he
    have hk := keeps_symbols r hext hdist
    have hu : Refines { r with symbols := u } p := h.keeps hk h.tally
    have hcu := hc.keeps hk
    have hmem := hu.mem_iff hcu hreads
    simp only [addFact, he, PlainReasoner.addFact, if_pos hg]
    by_cases hheld : c ∈ ({ r with symbols := u } : Reasoner).atoms
    · rw [if_pos (hmem.1 hheld), insert_of_mem hheld]
      exact ⟨rfl, hu⟩
    · have hins := hu.hold hcu hreads hheld
      rw [if_neg (mt hmem.2 hheld), insert_fst_of_not_mem hheld]
      simp only [Bool.true_and]
      split_ifs
      · exact ⟨rfl, hins.write _ _⟩
      · exact ⟨rfl, hins⟩

theorem Refines.addRule_eq (h : Refines r p) (hc : Coherent r) (rule : Rule) :
    (r.addRule rule).1 = (p.addRule rule).1 ∧ Refines (r.addRule rule).2 (p.addRule rule).2 := by
  rw [addRule, PlainReasoner.addRule]
  cases hax : rule.isAxiom with
  | true =>
    cases hg : rule.conclusion.isGround with
    | false => exact ⟨rfl, h⟩
    | true => exact h.addFact_eq hc _
  | false =>
    obtain ⟨hext, hdist, hreads⟩ := rule.encode_reads hc.distinct
    have hk := keeps_symbols r hext fun _ => hdist
    have hu := h.keeps hk h.tally
    have hvariant : (r.rules.any fun old => old.toClause = (rule.encode r.symbols).1.toClause) =
        decide (∃ old ∈ p.rules, old.IsVariant rule) := by
      have hiff := Coded.exists_clause_eq_iff hdist hu.rules hreads (rule.encode_names r.symbols)
      rw [Bool.eq_iff_iff, List.any_eq_true, decide_eq_true_iff, ← hiff]
      simp only [decide_eq_true_eq]
    simp only [Bool.false_eq_true, if_false, hvariant, decide_eq_true_eq]
    split_ifs
    · exact ⟨rfl, hu⟩
    · refine ⟨rfl, hu.settings, hu.facts, ?_, hu.generation, hu.contradiction, hu.tally⟩
      exact List.rel_append hu.rules (.cons ⟨hreads, rule.encode_names r.symbols⟩ .nil)

theorem Refines.addRules_eq (h : Refines r p) (hc : Coherent r) (rules : List Rule) :
    (r.addRules rules).1 = (p.addRules rules).1 ∧ Refines (r.addRules rules).2 (p.addRules rules).2 := by
  induction rules generalizing r p with
  | nil => exact ⟨rfl, h⟩
  | cons rule rules ih =>
    obtain ⟨hout, hs⟩ := h.addRule_eq hc rule
    have hcs := hc.addRule rule
    rw [addRules, PlainReasoner.addRules]
    generalize r.addRule rule = l, p.addRule rule = l' at hout hs hcs
    obtain ⟨out, s⟩ := l
    obtain ⟨out', q⟩ := l'
    obtain rfl : out = out' := hout
    cases out with
    | ok _ => exact ih hs hcs
    | error e => exact ⟨rfl, hs⟩

theorem refines_empty (settings : Settings) (journal : Journal) :
    Refines (empty settings journal) (PlainReasoner.empty settings) :=
  ⟨rfl, .nil, .nil, rfl, rfl, rfl⟩

theorem refines_create (settings : Settings) (journal : Journal) (rules : List Rule) :
    (create settings journal rules).1 = (PlainReasoner.create settings rules).1 ∧
      Refines (create settings journal rules).2 (PlainReasoner.create settings rules).2 := by
  obtain ⟨hout, hs⟩ := (refines_empty settings journal).addRules_eq (coherent_empty settings journal) rules
  rw [create, PlainReasoner.create, ← hout]
  generalize (empty settings journal).addRules rules = l at hs
  obtain ⟨out, s⟩ := l
  cases out with
  | ok _ => exact ⟨rfl, hs.write _ _⟩
  | error e => exact ⟨rfl, hs⟩

/-! ## Requests -/

theorem Refines.answer_eq (h : Refines r p) (hc : Coherent r) (q : Request) :
    ∃ p', p.answer q = some ((r.answer q).1, p') ∧ Refines (r.perform q) p' := by
  cases q with
  | addRule rule =>
    obtain ⟨hout, hs⟩ := h.addRule_eq hc rule
    exact ⟨_, by rw [PlainReasoner.answer, answer, hout], hs⟩
  | addFact x =>
    obtain ⟨hout, hs⟩ := h.addFact_eq hc x
    exact ⟨_, by rw [PlainReasoner.answer, answer, hout], hs⟩
  | query target =>
    obtain ⟨q, hq, hs⟩ := h.query_eq hc target
    exact ⟨q, by rw [PlainReasoner.answer, hq]; rfl, hs⟩
  | saturate =>
    obtain ⟨q, hq, hs⟩ := h.saturate_eq hc
    exact ⟨q, by rw [PlainReasoner.answer, hq]; rfl, hs⟩
  | round =>
    obtain ⟨s, hs, href⟩ := h.round_eq hc
    exact ⟨_, by rw [PlainReasoner.answer, answer, hs], by rw [perform, answer, hs]; exact href⟩

theorem Refines.performAll_eq (h : Refines r p) (hc : Coherent r) (qs : List Request) :
    ∃ p', p.performAll qs = some p' ∧ Refines (r.performAll qs) p' := by
  induction qs generalizing r p with
  | nil => exact ⟨p, rfl, h⟩
  | cons q qs ih =>
    obtain ⟨p₁, hp₁, h₁⟩ := h.answer_eq hc q
    obtain ⟨p₂, hp₂, h₂⟩ := ih h₁ (hc.perform q)
    refine ⟨p₂, ?_, h₂⟩
    rw [PlainReasoner.performAll, List.foldlM_cons, hp₁]
    exact hp₂

theorem refines_after (settings : Settings) (journal : Journal) (rules : List Rule) (qs : List Request) :
    ∃ p, PlainReasoner.after settings rules qs = some p ∧ Refines (after settings journal rules qs) p :=
  (refines_create settings journal rules).2.performAll_eq (coherent_create settings journal rules) qs

/-! ## What is seen -/

/-- What is seen of the reasoner in names is what the reasoner over names holds: facts, rounds, reasons, rules, the
contradiction, the counts of work, and for any atom whether it is held, since when, and how it is derived. -/
structure Agrees (r : Reasoner) (p : PlainReasoner) : Prop where
  facts : r.facts = .ok p.atoms
  generations : r.generations = .ok (p.facts.map fun e => (e.1, e.2.generation))
  justifications : r.justifications = .ok (p.facts.map fun e => (e.1, e.2.premises))
  statedFacts : r.statedFacts = .ok ((p.facts.filter fun e => e.2.premises.isEmpty).map (·.1))
  statedRules : r.statedRules = .ok p.rules
  contradictionAtom : r.contradictionAtom = .ok p.contradiction
  tally : r.tally = p.tally
  contains : ∀ x, r.contains x = true ↔ x ∈ p.atoms
  generationOf : ∀ x, r.generationOf x = p.generationOf x
  derivationOf : ∀ x, r.derivationOf x = .ok (p.derivation? x)

theorem Refines.facts_eq (h : Refines r p) (hc : Coherent r) : r.facts = .ok p.atoms :=
  mapM_eq_ok ((h.atoms hc.toSupported).imp fun _ _ hx => nameFact_eq_ok hx)

theorem Refines.statedRules_eq (h : Refines r p) : r.statedRules = .ok p.rules :=
  mapM_eq_ok (h.rules.imp fun _ _ hx => nameRule_eq_ok hx.1)

theorem Refines.contradictionAtom_eq (h : Refines r p) (hc : Coherent r) :
    r.contradictionAtom = .ok p.contradiction := by
  have hrel := h.contradiction_rel hc
  rw [contradictionAtom]
  generalize r.contradiction = c, p.contradiction = d at hrel
  cases hrel with
  | none => rfl
  | some hx => rw [Option.mapM_some, nameFact_eq_ok hx]; rfl

/-- A name that was never seen belongs to no fact. -/
theorem Refines.not_mem_of_lookup? (h : Refines r p) (hc : Coherent r) (hx : x.lookup? r.symbols = none) :
    x ∉ p.atoms := by
  intro hmem
  obtain ⟨a, -, ha⟩ := exists_left_of_forall₂ (h.atoms hc.toSupported) hmem
  rw [(Atom.lookup?_eq_some_iff hc.distinct).2 ha] at hx
  cases hx

theorem Refines.roundOf?_eq (h : Refines r p) (hc : Coherent r) (hx : a.Reads r.symbols [] x) :
    r.roundOf? a = p.generationOf x := by
  have hsame : ∀ b y, b.Reads r.symbols [] y → (b = a ↔ y = x) := by
    intro b y hb
    constructor
    · rintro rfl
      exact hb.unique hx
    · rintro rfl
      exact hb.inj hc.distinct List.nodup_nil hx
  have hfind := find?_rel (p := fun e => e.1 = a) (q := fun f => f.1 = x) h.facts
    fun e f he => decide_eq_decide.2 (hsame e.1 f.1 he.1)
  rw [roundOf?, ← hc.maps, List.find?_map, Option.map_map, PlainReasoner.generationOf]
  change (r.supports.find? fun e => e.1 = a).map (·.2.generation) = _
  generalize r.supports.find? (fun e => e.1 = a) = e, p.facts.find? (fun f => f.1 = x) = f at hfind
  cases hfind with
  | none => rfl
  | some hef => exact congrArg some hef.2.generation

theorem Refines.agrees (h : Refines r p) (hc : Coherent r) : Agrees r p where
  facts := h.facts_eq hc
  generations := by
    rw [Reasoner.generations, ← hc.maps]
    refine mapM_eq_ok ?_
    rw [List.forall₂_map_left_iff, List.forall₂_map_right_iff]
    refine h.facts.imp fun e f he => ?_
    rw [nameFact_eq_ok he.1, ← he.2.generation]
    rfl
  justifications := by
    refine mapM_eq_ok ?_
    rw [List.forall₂_map_right_iff]
    refine h.facts.imp fun e f he => ?_
    rw [nameFact_eq_ok he.1, mapM_eq_ok (he.2.premises.imp fun _ _ hx => nameFact_eq_ok hx)]
    rfl
  statedFacts := by
    have hseed := List.rel_filter (p := fun e => e.2.isSeed) (q := fun f => f.2.premises.isEmpty)
      (fun e f he => by simp only [Support.isSeed, List.isEmpty_iff_length_eq_zero, he.2.premises.length_eq]) h.facts
    refine mapM_eq_ok ?_
    rw [List.forall₂_map_left_iff, List.forall₂_map_right_iff]
    exact hseed.imp fun _ _ he => nameFact_eq_ok he.1
  statedRules := h.statedRules_eq
  contradictionAtom := h.contradictionAtom_eq hc
  tally := h.tally
  contains y := by
    rw [Reasoner.contains]
    cases hy : y.lookup? r.symbols with
    | none => simpa using h.not_mem_of_lookup? hc hy
    | some b =>
      rw [Option.any_some, holds_iff]
      exact h.mem_iff hc ((Atom.lookup?_eq_some_iff hc.distinct).1 hy)
  generationOf y := by
    rw [Reasoner.generationOf]
    cases hy : y.lookup? r.symbols with
    | none =>
      rw [Option.bind_none, PlainReasoner.generationOf_eq_none_iff.2 (h.not_mem_of_lookup? hc hy)]
    | some b => exact h.roundOf?_eq hc ((Atom.lookup?_eq_some_iff hc.distinct).1 hy)
  derivationOf y := by
    rw [Reasoner.derivationOf]
    cases hy : y.lookup? r.symbols with
    | none =>
      rw [PlainReasoner.derivation?_eq_none (h.not_mem_of_lookup? hc hy)]
    | some b => exact h.derive_eq hc ((Atom.lookup?_eq_some_iff hc.distinct).1 hy)

/-- Created alike and asked alike, a reasoner and the one over names agree, and they reply alike to every next request
and agree then: symbols and slots make no difference. -/
theorem agrees_after (settings : Settings) (journal : Journal) (rules : List Rule) (qs : List Request) :
    (create settings journal rules).1 = (PlainReasoner.create settings rules).1 ∧
    ∃ p, PlainReasoner.after settings rules qs = some p ∧ Agrees (after settings journal rules qs) p ∧
      ∀ q, ∃ p', p.answer q = some (((after settings journal rules qs).answer q).1, p') ∧
        Agrees ((after settings journal rules qs).perform q) p' := by
  obtain ⟨p, hp, h⟩ := refines_after settings journal rules qs
  have hc := coherent_after settings journal rules qs
  refine ⟨(refines_create settings journal rules).1, p, hp, h.agrees hc, fun q => ?_⟩
  obtain ⟨p', hp', h'⟩ := h.answer_eq hc q
  exact ⟨p', hp', h'.agrees (hc.perform q)⟩

end Entail.Reasoner
