import Entail.Proofs.Termination

/-!
# Exhaustive saturation computes the least model

* `Stated`, `Added` : the ground atoms and the rules that a history of requests has stated and added;
* `leastModel history` : the least set of atoms that holds what is stated and is closed under what is added
  (`isLeast_leastModel`);
* `Recorded history r` : `r` holds what its history says, its stated facts and its rules come from there
  (`recorded_after`);
* `Recorded.factSet_subset` : every fact is in every model; `Recorded.isModel_factSet` : after a round of exhaustive
  matching that finds nothing new the facts are a model;
* `saturation_computes_leastModel` : both together, with the contradictions, and for any order of the same requests.
-/

namespace Entail

open Coded (Application)

/-! ## Histories and their models -/

/-- The request states the ground atom, as a fact or as a rule without premises. -/
def Request.States (q : Request) (a : Atom) : Prop := a.isGround ∧ (q = .addFact a ∨ q = .addRule (.fact a))

/-- The request adds the rule, which has premises. -/
def Request.Adds (q : Request) (rule : Rule) : Prop := rule.premises ≠ [] ∧ q = .addRule rule

def Stated (history : List Request) (a : Atom) : Prop := ∃ q ∈ history, q.States a

def Added (history : List Request) (rule : Rule) : Prop := ∃ q ∈ history, q.Adds rule

/-- The set is closed under the rule, which says nothing if its conclusion has a variable of its own. -/
def Rule.ClosedIn (rule : Rule) (M : Set Atom) : Prop :=
  rule.Covered → ∀ σ : String → String, (∀ p ∈ rule.premises, p.instantiate σ ∈ M) → rule.conclusion.instantiate σ ∈ M

structure IsModel (history : List Request) (M : Set Atom) : Prop where
  stated : ∀ a, Stated history a → a ∈ M
  closed : ∀ rule, Added history rule → rule.ClosedIn M

def leastModel (history : List Request) : Set Atom := {a | ∀ M, IsModel history M → a ∈ M}

theorem isLeast_leastModel (history : List Request) : IsLeast {M | IsModel history M} (leastModel history) := by
  refine ⟨⟨fun a ha M hM => hM.stated a ha, fun rule hrule hcov σ hps M hM => ?_⟩, fun M hM a ha => ha M hM⟩
  exact hM.closed rule hrule hcov σ fun p hp => hps p hp M hM

variable {history history' : List Request}

theorem leastModel_congr (hs : ∀ a, Stated history a ↔ Stated history' a)
    (ha : ∀ rule, Added history rule ↔ Added history' rule) : leastModel history = leastModel history' := by
  have hmodel : ∀ M, IsModel history M ↔ IsModel history' M := by
    intro M
    constructor
    · exact fun h => ⟨fun a h' => h.stated a ((hs a).2 h'), fun rule h' => h.closed rule ((ha rule).2 h')⟩
    · exact fun h => ⟨fun a h' => h.stated a ((hs a).1 h'), fun rule h' => h.closed rule ((ha rule).1 h')⟩
  simp only [leastModel, hmodel]

theorem stated_concat {q : Request} {a : Atom} : Stated (history ++ [q]) a ↔ Stated history a ∨ q.States a := by
  simp [Stated, or_and_right, exists_or]

theorem added_concat {q : Request} {rule : Rule} : Added (history ++ [q]) rule ↔ Added history rule ∨ q.Adds rule := by
  simp [Added, or_and_right, exists_or]

namespace Request

variable {a b : Atom} {rule x : Rule} {q : Request}

theorem states_addFact : (addFact a).States b ↔ a.isGround ∧ b = a := by
  simp only [States, addFact.injEq, reduceCtorEq, or_false]
  constructor
  · rintro ⟨hg, rfl⟩
    exact ⟨hg, rfl⟩
  · rintro ⟨hg, rfl⟩
    exact ⟨hg, rfl⟩

theorem states_addRule : (addRule rule).States b ↔ rule.isAxiom ∧ rule.conclusion.isGround ∧ b = rule.conclusion := by
  obtain ⟨premises, conclusion⟩ := rule
  simp only [States, Rule.fact, addRule.injEq, Rule.mk.injEq, reduceCtorEq, false_or, Rule.isAxiom, List.isEmpty_iff]
  constructor
  · rintro ⟨hg, rfl, rfl⟩
    exact ⟨rfl, hg, rfl⟩
  · rintro ⟨rfl, hg, rfl⟩
    exact ⟨hg, rfl, rfl⟩

theorem adds_addRule : (addRule rule).Adds x ↔ rule.isAxiom = false ∧ x = rule := by
  simp only [Adds, addRule.injEq, Rule.isAxiom, List.isEmpty_eq_false_iff]
  constructor
  · rintro ⟨hne, rfl⟩
    exact ⟨hne, rfl⟩
  · rintro ⟨hne, rfl⟩
    exact ⟨hne, rfl⟩

end Request

namespace Reasoner

variable {r s : Reasoner}

/-! ## What a reasoner records -/

/-- What is stated is held and what is added is a rule, up to the names of variables; stated facts and rules come from
nowhere else. -/
structure Recorded (history : List Request) (r : Reasoner) : Prop where
  held : ∀ a, Stated history a → ∃ c ∈ r.atoms, c.Reads r.symbols [] a
  seeds : ∀ e ∈ r.supports, e.2.isSeed → ∃ a, Stated history a ∧ e.1.Reads r.symbols [] a
  known : ∀ x, Added history x → ∃ old ∈ r.rules, ∃ c : Coded.Rule, c.toClause = old.toClause ∧ c.Reads r.symbols x
  rules : ∀ c ∈ r.rules, ∃ x, Added history x ∧ c.Reads r.symbols x

theorem recorded_empty (settings : Settings) (journal : Journal) : Recorded [] (empty settings journal) where
  held a ha := by
    obtain ⟨q, hq, -⟩ := ha
    cases hq
  seeds e he := by cases he
  known x hx := by
    obtain ⟨q, hq, -⟩ := hx
    cases hq
  rules c hc := by cases hc

/-- Facts may be added that are derived, and names. -/
theorem Recorded.grow (h : Recorded history r) (ht : r.symbols.Extends s.symbols) (ha : r.atoms ⊆ s.atoms)
    (hs : ∀ e ∈ s.supports, e.2.isSeed → e ∈ r.supports) (hr : s.rules = r.rules) : Recorded history s where
  held a hst := by
    obtain ⟨c, hc, hread⟩ := h.held a hst
    exact ⟨c, ha hc, hread.mono ht List.prefix_rfl⟩
  seeds e he hseed := by
    obtain ⟨a, hst, hread⟩ := h.seeds e (hs e he hseed) hseed
    exact ⟨a, hst, hread.mono ht List.prefix_rfl⟩
  known x hx := by
    obtain ⟨old, hold, c, hc, hread⟩ := h.known x hx
    exact ⟨old, hr ▸ hold, c, hc, hread.mono ht⟩
  rules c hc := by
    obtain ⟨x, hx, hread⟩ := h.rules c (hr ▸ hc)
    exact ⟨x, hx, hread.mono ht⟩

theorem Recorded.keeps (h : Recorded history r) (hk : Keeps r s) : Recorded history s :=
  h.grow hk.table (hk.atoms ▸ List.Subset.refl _) (fun _ he _ => hk.supports ▸ he) hk.rules

theorem Recorded.stepped (h : Recorded history r) (hc : Coherent r) : Recorded history r.stepped := by
  refine h.grow ?_ ?_ (fun e he hseed => ?_) r.stepped_frame.rules
  · rw [r.stepped_frame.symbols]
    exact .refl _
  · rw [hc.atoms_stepped]
    exact List.subset_append_left _ _
  · rw [hc.supports_stepped] at he
    rcases List.mem_append.1 he with he | he
    · exact he
    · obtain ⟨p, hp, rfl⟩ := List.mem_map.1 he
      exact absurd (List.isEmpty_iff.1 hseed) (hc.premises_ne_nil (mem_applications_of_fresh hp))

theorem Recorded.search (h : Recorded history r) (hc : Coherent r) (hs : Search r s) : Recorded history s := by
  induction hs with
  | rest hk => exact h.keeps hk
  | round hrs _ ht ih => exact (ih.stepped (hc.search hrs)).keeps ht

/-- Another history that says the same. -/
theorem Recorded.congr (h : Recorded history r) (hs : ∀ a, Stated history' a ↔ Stated history a)
    (ha : ∀ x, Added history' x ↔ Added history x) : Recorded history' r where
  held a hst := h.held a ((hs a).1 hst)
  seeds e he hseed := by
    obtain ⟨a, hst, hread⟩ := h.seeds e he hseed
    exact ⟨a, (hs a).2 hst, hread⟩
  known x hx := h.known x ((ha x).1 hx)
  rules c hc := by
    obtain ⟨x, hx, hread⟩ := h.rules c hc
    exact ⟨x, (ha x).2 hx, hread⟩

/-- Holding what one more atom reads as, as a stated fact. -/
theorem Recorded.addSeed (h : Recorded history r) (hc : Coherent r) {c : Coded.Atom} {a : Atom}
    (hread : c.Reads r.symbols [] a) (hs : ∀ b, Stated history' b ↔ Stated history b ∨ b = a)
    (ha : ∀ x, Added history' x ↔ Added history x) : Recorded history' (r.insert c .seed).2 := by
  have hframe := insert_frame r c .seed
  refine ⟨fun b hst => ?_, fun e he hseed => ?_, fun x hx => ?_, fun d hd => ?_⟩
  · rw [hframe.symbols]
    have hsub : r.atoms ⊆ (r.insert c .seed).2.atoms ∧ c ∈ (r.insert c .seed).2.atoms := by
      by_cases hmem : c ∈ r.atoms
      · rw [insert_of_mem hmem]
        exact ⟨List.Subset.refl _, hmem⟩
      · rw [atoms_insert hmem]
        exact ⟨List.subset_append_left _ _, by simp⟩
    rcases (hs b).1 hst with hst | rfl
    · obtain ⟨d, hd, hdb⟩ := h.held b hst
      exact ⟨d, hsub.1 hd, hdb⟩
    · exact ⟨c, hsub.2, hread⟩
  · rw [hframe.symbols]
    have hcase : e ∈ r.supports ∨ e = (c, .seed) := by
      by_cases hmem : c ∈ r.atoms
      · rw [insert_of_mem hmem] at he
        exact .inl he
      · rw [insert_of_not_mem hmem, put_of_not_mem (hc.keys ▸ hmem)] at he
        exact (List.mem_append.1 he).imp_right List.mem_singleton.1
    rcases hcase with he | rfl
    · obtain ⟨b, hst, hb⟩ := h.seeds e he hseed
      exact ⟨b, (hs b).2 (.inl hst), hb⟩
    · exact ⟨a, (hs a).2 (.inr rfl), hread⟩
  · rw [hframe.symbols, hframe.rules]
    exact h.known x ((ha x).1 hx)
  · rw [hframe.rules] at hd
    rw [hframe.symbols]
    obtain ⟨x, hx, hdx⟩ := h.rules d hd
    exact ⟨x, (ha x).2 hx, hdx⟩

theorem Recorded.addFact (h : Recorded history r) (hc : Coherent r) {a : Atom} (hg : a.isGround)
    (hs : ∀ b, Stated history' b ↔ Stated history b ∨ b = a) (ha : ∀ x, Added history' x ↔ Added history x) :
    Recorded history' (r.addFact a).2 := by
  obtain ⟨c, u, he⟩ := Atom.exists_encode hg r.symbols
  obtain ⟨hext, hdist, hread⟩ := Atom.encode_reads he
  have hk := keeps_symbols r hext hdist
  exact ((h.keeps hk).addSeed (hc.keeps hk) hread hs ha).keeps (addFact_of_encode he)

/-- A rule with premises, as one more rule or as a variant of one that is there. -/
theorem Recorded.addRule (h : Recorded history r) (hc : Coherent r) {rule : Rule} (hax : rule.isAxiom = false)
    (hs : ∀ b, Stated history' b ↔ Stated history b) (ha : ∀ x, Added history' x ↔ Added history x ∨ x = rule) :
    Recorded history' (r.addRule rule).2 := by
  obtain ⟨hext, hdist, hread⟩ := rule.encode_reads hc.distinct
  have hk := h.keeps (keeps_symbols r hext fun _ => hdist)
  by_cases hv : ∃ old ∈ r.rules, old.toClause = (rule.encode r.symbols).1.toClause
  · rw [addRule_of_variant hax hv]
    refine ⟨fun b hst => hk.held b ((hs b).1 hst), fun e he hseed => ?_, fun x hx => ?_, fun d hd => ?_⟩
    · obtain ⟨b, hst, hb⟩ := hk.seeds e he hseed
      exact ⟨b, (hs b).2 hst, hb⟩
    · rcases (ha x).1 hx with hx | rfl
      · exact hk.known x hx
      · obtain ⟨old, hold, hclause⟩ := hv
        exact ⟨old, hold, _, hclause.symm, hread⟩
    · obtain ⟨x, hx, hdx⟩ := hk.rules d hd
      exact ⟨x, (ha x).2 (.inl hx), hdx⟩
  · have hv : ∀ old ∈ r.rules, old.toClause ≠ (rule.encode r.symbols).1.toClause :=
      fun old hold heq => hv ⟨old, hold, heq⟩
    rw [addRule_of_new hax hv]
    refine ⟨fun b hst => hk.held b ((hs b).1 hst), fun e he hseed => ?_, fun x hx => ?_, fun d hd => ?_⟩
    · obtain ⟨b, hst, hb⟩ := hk.seeds e he hseed
      exact ⟨b, (hs b).2 hst, hb⟩
    · rcases (ha x).1 hx with hx | rfl
      · obtain ⟨old, hold, c, hcl, hcx⟩ := hk.known x hx
        exact ⟨old, List.mem_append_left _ hold, c, hcl, hcx⟩
      · exact ⟨_, List.mem_append_right _ (List.mem_singleton_self _), _, rfl, hread⟩
    · rcases List.mem_append.1 hd with hd | hd
      · obtain ⟨x, hx, hdx⟩ := hk.rules d hd
        exact ⟨x, (ha x).2 (.inl hx), hdx⟩
      · rw [List.mem_singleton.1 hd]
        exact ⟨rule, (ha rule).2 (.inr rfl), hread⟩

/-- Rounds state nothing and add nothing. -/
theorem Recorded.search_concat (h : Recorded history r) (hc : Coherent r) (hr : Search r s) {q : Request}
    (hs : ∀ a, ¬ q.States a) (ha : ∀ x, ¬ q.Adds x) : Recorded (history ++ [q]) s :=
  (h.search hc hr).congr (by simp [stated_concat, hs]) (by simp [added_concat, ha])

theorem Recorded.perform (h : Recorded history r) (hc : Coherent r) (q : Request) :
    Recorded (history ++ [q]) (r.perform q) := by
  cases q with
  | addFact a =>
    have hadd : ∀ x, Added (history ++ [.addFact a]) x ↔ Added history x := by simp [added_concat, Request.Adds]
    cases hg : a.isGround with
    | true => exact h.addFact hc hg (by simp [stated_concat, Request.states_addFact, hg]) hadd
    | false =>
      have hsame : r.perform (.addFact a) = r := addFact_of_not_ground hg
      rw [hsame]
      exact h.congr (by simp [stated_concat, Request.states_addFact, hg]) hadd
  | addRule rule =>
    cases hax : rule.isAxiom with
    | true =>
      have hadd : ∀ x, Added (history ++ [.addRule rule]) x ↔ Added history x := by
        simp [added_concat, Request.adds_addRule, hax]
      cases hg : rule.conclusion.isGround with
      | true =>
        have hsame : r.perform (.addRule rule) = (r.addFact rule.conclusion).2 :=
          congrArg Prod.snd (addRule_of_stated hax hg)
        rw [hsame]
        exact h.addFact hc hg (by simp [stated_concat, Request.states_addRule, hax, hg]) hadd
      | false =>
        have hsame : r.perform (.addRule rule) = r := addRule_of_refused hax hg
        rw [hsame]
        exact h.congr (by simp [stated_concat, Request.states_addRule, hg]) hadd
    | false =>
      exact h.addRule hc hax (by simp [stated_concat, Request.states_addRule, hax])
        (by simp [added_concat, Request.adds_addRule, hax])
  | query target =>
    exact h.search_concat hc (search_query r target) (by simp [Request.States]) (by simp [Request.Adds])
  | saturate => exact h.search_concat hc (search_saturate r) (by simp [Request.States]) (by simp [Request.Adds])
  | round => exact h.search_concat hc (search_round r) (by simp [Request.States]) (by simp [Request.Adds])

/-- The history of a reasoner that was created with rules: they are added first. -/
theorem recorded_after {settings : Settings} {journal : Journal} {rules : List Rule} (qs : List Request)
    (h : (create settings journal rules).1 = .ok ()) :
    Recorded (rules.map .addRule ++ qs) (after settings journal rules qs) := by
  refine (after_induction (P := fun history r => Coherent r ∧ Recorded history r) qs h ?_ ?_ ?_).2
  · exact ⟨coherent_empty settings journal, recorded_empty settings journal⟩
  · exact fun _ _ _ hk h => ⟨h.1.keeps hk, h.2.keeps hk⟩
  · exact fun _ _ q h => ⟨h.1.perform q, h.2.perform h.1 q⟩

/-! ## Facts and models -/

def factSet (r : Reasoner) : Set Atom := {a | ∃ c ∈ r.atoms, c.Reads r.symbols [] a}

theorem Readable.facts_eq_ok (h : Readable r) : ∃ fs, r.facts = .ok fs ∧ {a | a ∈ fs} = r.factSet := by
  obtain ⟨fs, hfs, hread⟩ := exists_nameFacts h.facts
  refine ⟨fs, hfs, Set.ext fun a => ⟨fun ha => exists_left_of_forall₂ hread ha, ?_⟩⟩
  rintro ⟨c, hc, hca⟩
  obtain ⟨b, hb, hcb⟩ := exists_right_of_forall₂ hread hc
  exact hca.unique hcb ▸ hb

/-- What a rule yields from facts in a model is in the model. -/
theorem Recorded.mem_of_yields (h : Recorded history r) (hc : Coherent r) {M : Set Atom} (hM : IsModel history M)
    {c : Coded.Rule} (hrule : c ∈ r.rules) {facts : List Coded.Atom} (hheld : ∀ f ∈ facts, f ∈ r.atoms)
    (hfacts : ∀ f ∈ facts, ∀ x, f.Reads r.symbols [] x → x ∈ M) {a : Coded.Atom} {x : Atom}
    (hy : c.toClause.Yields facts a) (hx : a.Reads r.symbols [] x) : x ∈ M := by
  obtain ⟨y, hadded, hread⟩ := h.rules c hrule
  obtain ⟨σ, hps, hconc⟩ := hread.exists_instance (fun f hf => hc.facts f (hheld f hf)) hy
  have hcov : y.Covered := by
    obtain ⟨τ, -, hin, -⟩ := hy
    exact hread.covered_iff.2 hin
  rw [hx.unique hconc]
  refine hM.closed y hadded hcov σ fun p hp => ?_
  obtain ⟨f, hf, hfp⟩ := exists_left_of_forall₂ hps hp
  exact hfacts f hf _ hfp

/-- Every fact is in every model. The induction is on the order in which facts came in. -/
theorem Recorded.factSet_subset (h : Recorded history r) (hc : Coherent r) {M : Set Atom} (hM : IsModel history M) :
    r.factSet ⊆ M := by
  have hprefix : ∀ earlier later, r.supports = earlier ++ later →
      ∀ e ∈ earlier, ∀ x, e.1.Reads r.symbols [] x → x ∈ M := by
    intro earlier
    induction earlier using List.reverseRecOn with
    | nil =>
      intro _ _ e he
      cases he
    | append_singleton earlier e ih =>
      obtain ⟨a, sup⟩ := e
      intro later heq d hd x hx
      rw [List.append_assoc, List.singleton_append] at heq
      rcases List.mem_append.1 hd with hd | hd
      · exact ih _ heq d hd x hx
      · rw [List.mem_singleton.1 hd] at hx
        cases hc.justified earlier a sup later heq with
        | stated =>
          obtain ⟨y, hst, hy⟩ := h.seeds (a, .seed) (heq ▸ List.mem_append_right _ List.mem_cons_self) rfl
          exact hx.unique hy ▸ hM.stated y hst
        | @derived premises c g hrule _ hheld happly =>
          have hsub := hc.premises_held heq hheld
          obtain ⟨hy, -⟩ :=
            (Coded.Rule.apply_eq_ok_iff (hc.scoped hrule) fun f hf => hc.isGround (hsub f hf)).1 happly
          refine h.mem_of_yields hc hM hrule hsub (fun p hp y hpy => ?_) hy hx
          obtain ⟨t, ht, -⟩ := hheld p hp
          exact ih _ heq (p, t) ht y hpy
  rintro x ⟨a, ha, hx⟩
  obtain ⟨sup, hsup⟩ := hc.exists_support ha
  exact hprefix r.supports [] (List.append_nil _).symm (a, sup) hsup x hx

/-- In exhaustive matching, a round that holds nothing new has found all that rules yield among the facts. -/
theorem Coherent.mem_of_yields (h : Coherent r) (hx : r.settings.exhaustiveMatching = true) (hfresh : r.fresh = [])
    {c : Coded.Rule} (hc : c ∈ r.rules) {facts : List Coded.Atom} (hheld : ∀ f ∈ facts, f ∈ r.atoms) {a : Coded.Atom}
    (hy : c.toClause.Yields facts a) : a ∈ r.atoms := by
  have hall : ∀ p ∈ r.applications, p.conclusion ∈ r.atoms ++ r.fresh.map (·.conclusion) := by
    refine mem_admitted fun p hp => ?_
    rw [← Reasoner.fresh, hfresh] at hp
    cases hp
  rw [hfresh, List.map_nil, List.append_nil] at hall
  exact hall _ (h.application_of_yields hc (mem_selections_of_exhaustive hx hheld hy.length) hy)

theorem Recorded.isModel_factSet (h : Recorded history r) (hc : Coherent r)
    (hx : r.settings.exhaustiveMatching = true) (hfresh : r.fresh = []) : IsModel history r.factSet := by
  refine ⟨h.held, fun rule hrule hcov σ hps => ?_⟩
  obtain ⟨old, hold, c, hclause, hread⟩ := h.known rule hrule
  obtain ⟨facts, hfacts⟩ : ∃ facts, List.Forall₂ (fun p f => f ∈ r.atoms ∧ f.Reads r.symbols [] (p.instantiate σ))
      rule.premises facts := exists_forall₂ hps
  obtain ⟨a, hy, ha⟩ := hread.exists_yields hc.distinct hcov (hfacts.flip.imp fun _ _ h => h.2)
  refine ⟨a, hc.mem_of_yields hx hfresh hold (fun f hf => ?_) (hclause ▸ hy), ha⟩
  obtain ⟨p, -, hmem, -⟩ := exists_left_of_forall₂ hfacts hf
  exact hmem

/-! ## Saturation -/

/-- After a saturation that returns, another round would find nothing, and there is no contradiction. -/
theorem Coherent.fresh_of_saturate (h : Coherent r) {n : Nat} (hs : r.saturate = (.ok n, s)) :
    s.fresh = [] ∧ s.contradiction = none := by
  obtain ⟨k, x, t, journal, hloop, -, hsat⟩ := h.exists_saturate
  obtain ⟨hout, rfl⟩ := Prod.mk.inj (hs.symm.trans hsat)
  have hkeep := keeps_journal t journal
  cases x with
  | stopped => exact (hloop.stop_of_stopped rfl).elim
  | failed e => cases hout
  | fixpoint =>
    obtain ⟨last, -, -, hround⟩ := hloop.exists_last rfl
    obtain ⟨-, hlen, hlast, hconsistent⟩ := round_eq_ok hround
    have hfresh : last.fresh = [] := List.length_eq_zero_iff.1 hlen.symm
    rw [stepped_of_fresh_eq_nil hfresh] at hlast
    have hall := hlast.trans hkeep
    exact ⟨by rw [hall.fresh, hfresh], by rw [hkeep.contradiction, hconsistent]⟩

theorem Recorded.factSet_eq (h : Recorded history r) (hc : Coherent r) (hx : r.settings.exhaustiveMatching = true)
    (hfresh : r.fresh = []) : r.factSet = leastModel history := by
  have hleast := isLeast_leastModel history
  exact Set.Subset.antisymm (h.factSet_subset hc hleast.1) (hleast.2 (h.isModel_factSet hc hx hfresh))

/-- There is a contradiction if some fact has the predicate of contradictions. -/
theorem Coherent.contradiction_ne_none_iff (h : Coherent r) :
    r.contradiction ≠ none ↔ ∃ x ∈ r.factSet, r.settings.bottom? = some x.predicate := by
  simp only [h.contradiction, ne_eq, List.find?_eq_none, not_forall, not_not, exists_prop]
  constructor
  · rintro ⟨a, ha, hb⟩
    obtain ⟨x, hx⟩ := h.facts a ha
    exact ⟨x, ⟨a, ha, hx⟩, (h.bottom_iff hx).1 (isBottom_iff.1 hb)⟩
  · rintro ⟨x, ⟨a, ha, hx⟩, hb⟩
    exact ⟨a, ha, isBottom_iff.2 ((h.bottom_iff hx).2 hb)⟩

section
variable {settings : Settings} {journal : Journal} {records : List Rule} {qs : List Request}

theorem facts_of_saturate (hx : settings.exhaustiveMatching = true) (hc : (create settings journal records).1 = .ok ())
    {n : Nat} (hs : (after settings journal records qs).saturate = (.ok n, s)) :
    ∃ fs, s.facts = .ok fs ∧ {a | a ∈ fs} = leastModel (records.map .addRule ++ qs) := by
  have hcoh := coherent_after settings journal records qs
  have hsearch := search_saturate (after settings journal records qs)
  rw [hs] at hsearch
  have hend := hcoh.search hsearch
  obtain ⟨fs, hfs, hset⟩ := hend.facts_eq_ok
  refine ⟨fs, hfs, hset.trans (((recorded_after qs hc).search hcoh hsearch).factSet_eq hend ?_ ?_)⟩
  · rw [hsearch.settings, settings_after, hx]
  · exact (hcoh.fresh_of_saturate hs).1

theorem contradiction_of_saturate_iff (hx : settings.exhaustiveMatching = true)
    (hc : (create settings journal records).1 = .ok ()) (hr : settings.maxRounds = none)
    (hf : settings.maxFacts = none) :
    (∃ a d, (after settings journal records qs).saturate.1 = .error (.contradiction a d)) ↔
      ∃ a ∈ leastModel (records.map .addRule ++ qs), settings.bottom? = some a.predicate := by
  have hset := settings_after settings journal records qs
  have hcoh := coherent_after settings journal records qs
  have hrec := recorded_after qs hc
  generalize after settings journal records qs = r at hset hcoh hrec ⊢
  have hsearch := search_saturate r
  have hend := hcoh.search hsearch
  have hbottom : r.saturate.2.settings.bottom? = settings.bottom? := by rw [hsearch.settings, hset]
  constructor
  · rintro ⟨a, d, hsat⟩
    have hne : r.saturate.2.contradiction ≠ none := by
      obtain ⟨hname, -⟩ := hcoh.accounts_saturate hsat
      intro hnone
      rw [contradictionAtom, hnone] at hname
      cases hname
    obtain ⟨x, hx, hb⟩ := hend.contradiction_ne_none_iff.1 hne
    exact ⟨x, (hrec.search hcoh hsearch).factSet_subset hend (isLeast_leastModel _).1 hx, hbottom ▸ hb⟩
  · rintro ⟨x, hmem, hb⟩
    obtain ⟨k, ending, t, -, -, ⟨-, hsat⟩ | ⟨a, d, -, hsat⟩⟩ := (hcoh.roundsEnd (hset ▸ hr) (hset ▸ hf)).saturate
    · obtain ⟨hfresh, hnone⟩ := hcoh.fresh_of_saturate (Prod.ext hsat rfl)
      refine absurd hnone (hend.contradiction_ne_none_iff.2 ⟨x, ?_, hbottom ▸ hb⟩)
      rwa [(hrec.search hcoh hsearch).factSet_eq hend (by rw [hsearch.settings, hset, hx]) hfresh]
    · exact ⟨a, d, hsat⟩

/-- With exhaustive matching, a saturation that returns leaves the least model of the history behind, and without
ceilings one fails with a contradiction exactly if the least model has one. So two histories that state and add the same
come to the same, whatever their order. -/
theorem saturation_computes_leastModel (settings : Settings) (journal : Journal) (records : List Rule)
    (qs : List Request) (hx : settings.exhaustiveMatching = true)
    (hc : (create settings journal records).1 = .ok ()) :
    IsLeast {M | IsModel (records.map .addRule ++ qs) M} (leastModel (records.map .addRule ++ qs)) ∧
    (∀ n s, (after settings journal records qs).saturate = (.ok n, s) →
      ∃ fs, s.facts = .ok fs ∧ {a | a ∈ fs} = leastModel (records.map .addRule ++ qs)) ∧
    (settings.maxRounds = none → settings.maxFacts = none →
      ((∃ a d, (after settings journal records qs).saturate.1 = .error (.contradiction a d)) ↔
        ∃ a ∈ leastModel (records.map .addRule ++ qs), settings.bottom? = some a.predicate)) ∧
    ∀ journal' records' qs', (create settings journal' records').1 = .ok () →
      (∀ a, Stated (records.map .addRule ++ qs) a ↔ Stated (records'.map .addRule ++ qs') a) →
      (∀ x, Added (records.map .addRule ++ qs) x ↔ Added (records'.map .addRule ++ qs') x) →
      (∀ n n' s s', (after settings journal records qs).saturate = (.ok n, s) →
        (after settings journal' records' qs').saturate = (.ok n', s') →
        ∃ fs fs', s.facts = .ok fs ∧ s'.facts = .ok fs' ∧ ∀ a, a ∈ fs ↔ a ∈ fs') ∧
      (settings.maxRounds = none → settings.maxFacts = none →
        ((∃ a d, (after settings journal records qs).saturate.1 = .error (.contradiction a d)) ↔
          ∃ a d, (after settings journal' records' qs').saturate.1 = .error (.contradiction a d))) := by
  refine ⟨isLeast_leastModel _, fun n s hs => facts_of_saturate hx hc hs, contradiction_of_saturate_iff hx hc,
    fun journal' records' qs' hc' hst hadd => ⟨fun n n' s s' hs hs' => ?_, fun hr hf => ?_⟩⟩
  · obtain ⟨fs, hfs, hset⟩ := facts_of_saturate hx hc hs
    obtain ⟨fs', hfs', hset'⟩ := facts_of_saturate hx hc' hs'
    rw [← leastModel_congr hst hadd, ← hset] at hset'
    exact ⟨fs, fs', hfs, hfs', fun a => (Set.ext_iff.1 hset' a).symm⟩
  · rw [contradiction_of_saturate_iff hx hc hr hf, contradiction_of_saturate_iff hx hc' hr hf,
      leastModel_congr hst hadd]

end

theorem leastModel_joined : exhaustive.exhaustiveMatching = true ∧ (create exhaustive .empty joined).1 = .ok () ∧
    leastModel (joined.map .addRule ++ []) =
      {a | a ∈ [⟨"link", [.const "b", .const "c"]⟩, ⟨"link", [.const "a", .const "b"]⟩,
        (⟨"reach", [.const "a", .const "c"]⟩ : Atom)]} := by
  have hcreate : (create exhaustive .empty joined).1 = .ok () := by rfl
  refine ⟨rfl, hcreate, ?_⟩
  obtain ⟨-, hfacts, -⟩ := saturation_computes_leastModel exhaustive .empty joined [] rfl hcreate
  have hsat : (after exhaustive .empty joined []).saturate.1 = .ok 1 := by rfl
  have hlist : (after exhaustive .empty joined []).saturate.2.facts =
      .ok [⟨"link", [.const "b", .const "c"]⟩, ⟨"link", [.const "a", .const "b"]⟩,
        ⟨"reach", [.const "a", .const "c"]⟩] := by rfl
  obtain ⟨fs, hfs, hset⟩ := hfacts 1 _ (Prod.ext hsat rfl)
  rw [← hset, Except.ok.inj (hfs.symm.trans hlist)]

end Reasoner

end Entail
