import Entail.Proofs.LeastModel

/-!
# The round of a fact and the depth of its proof

* `Request.addsNothing` : requests that only look for what follows; they are a `Search` (`search_performAll`);
* `Layered r` : each derived fact has a premise of the round before its own, and what rules give from facts of rounds
  before the last is held. It holds after any search that starts before the first round (`Layered.search`);
* `Coherent.exists_depth` : a derivation is at most as deep as the round of its fact says, and just as deep in a layered
  reasoner;
* `Shallow` : with exhaustive matching, whatever has a proof no deeper than the rounds so far is held, and no fact is of
  a later round than one of its proofs is deep (`Shallow.search`);
* `depths_after` : all three of every reasoner.
-/

namespace Entail

open Coded (Application)

/-! ## Depths -/

namespace Derivation

variable {d : Derivation} {ds : List Derivation} {n : Nat}

theorem depth_le_greatestDepth (h : d ∈ ds) : d.depth ≤ greatestDepth ds := by
  induction ds with
  | nil => cases h
  | cons e ds ih =>
    rw [greatestDepth]
    rcases List.mem_cons.1 h with rfl | h
    · exact le_max_left _ _
    · exact (ih h).trans (le_max_right _ _)

theorem greatestDepth_le (h : ∀ d ∈ ds, d.depth ≤ n) : greatestDepth ds ≤ n := by
  induction ds with
  | nil => exact Nat.zero_le n
  | cons e ds ih =>
    rw [greatestDepth]
    exact max_le (h e List.mem_cons_self) (ih fun d hd => h d (List.mem_cons_of_mem _ hd))

theorem depth_node (x : Atom) (h : ds ≠ []) (c : Option Rule) : (node x ds c).depth = 1 + greatestDepth ds := by
  cases ds with
  | nil => exact absurd rfl h
  | cons d ds => rw [depth, greatestDepth]

theorem depth_lt_node (h : d ∈ ds) (x : Atom) (c : Option Rule) : d.depth < (node x ds c).depth := by
  rw [depth_node x (List.ne_nil_of_mem h)]
  have := depth_le_greatestDepth h
  omega

theorem depth_node_le (h : ∀ d ∈ ds, d.depth < n) (x : Atom) (c : Option Rule) : (node x ds c).depth ≤ n := by
  obtain rfl | hne := eq_or_ne ds []
  · exact Nat.zero_le n
  · obtain ⟨d, hd⟩ := List.exists_mem_of_ne_nil ds hne
    have hpos := h d hd
    have hall : greatestDepth ds ≤ n - 1 := greatestDepth_le fun e he => Nat.le_sub_one_of_lt (h e he)
    rw [depth_node x hne]
    omega

end Derivation

def Request.addsNothing : Request → Bool
  | .addRule _ | .addFact _ => false
  | .query _ | .saturate | .round => true

namespace Reasoner

variable {r s : Reasoner} {a : Coded.Atom} {sup : Support} {x : Atom}

/-! ## Searches -/

theorem search_perform {q : Request} (h : q.addsNothing) (r : Reasoner) : Search r (r.perform q) := by
  cases q with
  | addRule rule => cases h
  | addFact x => cases h
  | query target => exact search_query r target
  | saturate => exact search_saturate r
  | round => exact search_round r

theorem search_performAll {qs : List Request} (h : ∀ q ∈ qs, q.addsNothing) (r : Reasoner) :
    Search r (r.performAll qs) := by
  induction qs generalizing r with
  | nil => exact .refl r
  | cons q qs ih =>
    exact (search_perform (h q List.mem_cons_self) r).trans (ih (fun p hp => h p (List.mem_cons_of_mem _ hp)) _)

theorem generation_addRule (r : Reasoner) (rule : Rule) : (r.addRule rule).2.generation = r.generation := by
  unfold addRule
  split_ifs
  · exact (addFact_same r _).2.2
  · rfl
  · simp only
    split_ifs <;> rfl

/-- No round has passed when a reasoner is created. -/
theorem generation_create (settings : Settings) (journal : Journal) (rules : List Rule) :
    (create settings journal rules).2.generation = 0 :=
  create_induction (P := fun r => r.generation = 0) settings journal rules rfl (fun _ _ hk h => hk.generation.trans h)
    fun r h rule _ => (generation_addRule r rule).trans h

/-- A search states nothing. -/
theorem Coherent.seeds_search (h : Coherent r) (hs : Search r s) :
    s.supports.filter (·.2.isSeed) = r.supports.filter (·.2.isSeed) := by
  induction hs with
  | rest hk => rw [hk.supports]
  | @round s t hrs _ ht ih =>
    have hcs := h.search hrs
    rw [ht.supports, hcs.supports_stepped, List.filter_append, ih, List.append_right_eq_self, List.filter_eq_nil_iff]
    intro e he
    obtain ⟨p, hp, rfl⟩ := List.mem_map.1 he
    simpa [Support.isSeed] using hcs.premises_ne_nil (mem_applications_of_fresh hp)

/-! ## Rounds build on the round before -/

/-- Derived facts have a premise of the round before, and what rules give from facts of rounds before the last is
held. -/
structure Layered (r : Reasoner) : Prop where
  tight : ∀ e ∈ r.supports, e.2.isSeed = false →
    ∃ p ∈ e.2.premises, ∃ t, (p, t) ∈ r.supports ∧ t.generation + 1 = e.2.generation
  closed : r.contradiction = none → ∀ c ∈ r.rules, ∀ facts ∈ r.selections c.premises.length,
    (∀ f ∈ facts, ∃ t, (f, t) ∈ r.supports ∧ t.generation < r.generation) →
      ∀ a, c.toClause.Yields facts a → a ∈ r.atoms

theorem Coherent.layered (h : Coherent r) (h0 : r.generation = 0) : Layered r := by
  refine ⟨fun e he hseed => ?_, fun _ c hc facts _ hfacts a hy => ?_⟩
  · have := (h.generations _).1 ⟨e, he, hseed, rfl⟩
    omega
  · cases facts with
    | nil => exact absurd (List.length_eq_zero_iff.1 hy.length.symm) (h.premises c hc)
    | cons f facts =>
      obtain ⟨t, -, hlt⟩ := hfacts f List.mem_cons_self
      omega

theorem Keeps.selections (h : Keeps r s) (k : Nat) : s.selections k = r.selections k := by
  rw [Reasoner.selections, h.settings, h.atoms, Reasoner.selections]

theorem Layered.keeps (h : Layered r) (hk : Keeps r s) : Layered s where
  tight := by
    rw [hk.supports]
    exact h.tight
  closed := by
    simp only [hk.contradiction, hk.rules, hk.selections, hk.supports, hk.generation, hk.atoms]
    exact h.closed

/-- Selections of facts that were held before a round were tried in it. -/
theorem Coherent.mem_selections_of_stepped (h : Coherent r) {k : Nat} {facts : List Coded.Atom}
    (hf : facts ∈ r.stepped.selections k) (hheld : ∀ f ∈ facts, f ∈ r.atoms) : facts ∈ r.selections k := by
  cases hx : r.settings.exhaustiveMatching with
  | true => exact mem_selections_of_exhaustive hx hheld (mem_selections hf).1
  | false =>
    rw [selections, r.stepped_frame.settings, hx] at hf
    obtain ⟨hsub, hlen⟩ := Selection.mem_increasing.1 hf
    rw [h.atoms_stepped] at hsub
    obtain ⟨front, back, rfl, hfront, hback⟩ := List.sublist_append_iff.1 hsub
    have hnil : back = [] := by
      refine List.eq_nil_iff_forall_not_mem.2 fun f hfb => ?_
      exact (List.nodup_append.1 h.nodup_fresh).2.2 f (hheld f (List.mem_append_right _ hfb)) f (hback.subset hfb) rfl
    rw [selections, hx]
    subst hnil
    exact Selection.mem_increasing.2 ⟨by simpa using hfront, hlen⟩

theorem Coherent.conclusion_not_mem (h : Coherent r) {p : Application} (hp : p ∈ r.fresh) : p.conclusion ∉ r.atoms :=
  fun hmem => (List.nodup_append.1 h.nodup_fresh).2.2 _ hmem _ (List.mem_map_of_mem hp) rfl

theorem Layered.stepped (h : Layered r) (hc : Coherent r) (hnone : r.contradiction = none) : Layered r.stepped := by
  by_cases hnil : r.fresh = []
  · rwa [stepped_of_fresh_eq_nil hnil]
  have hgen : r.stepped.generation = r.generation + 1 := if_neg hnil
  have hsup := hc.supports_stepped
  have hsub : r.supports ⊆ r.stepped.supports := hsup ▸ List.subset_append_left _ _
  refine ⟨fun e he hseed => ?_, fun hnone' c hrule facts hfacts hearly a hy => ?_⟩
  · rw [hsup] at he
    rcases List.mem_append.1 he with he | he
    · obtain ⟨p, hp, t, ht, hlt⟩ := h.tight e he hseed
      exact ⟨p, hp, t, hsub ht, hlt⟩
    · obtain ⟨p, hp, rfl⟩ := List.mem_map.1 he
      obtain ⟨hrule, hsel, hheld, hy, -⟩ := hc.application (mem_applications_of_fresh hp)
      -- were all premises of earlier rounds, the conclusion would not be new
      by_contra hno
      push Not at hno
      refine hc.conclusion_not_mem hp (h.closed hnone _ hrule _ hsel (fun f hf => ?_) _ hy)
      obtain ⟨t, ht⟩ := hc.exists_support (hheld f hf)
      have hne := hno f hf t (hsub ht)
      have hle := hc.generation_le ht
      simp only [ne_eq, Nat.add_right_cancel_iff] at hne
      exact ⟨t, ht, by omega⟩
  · have hheld : ∀ f ∈ facts, f ∈ r.atoms := by
      intro f hf
      obtain ⟨t, ht, hlt⟩ := hearly f hf
      rw [hsup] at ht
      rcases List.mem_append.1 ht with ht | ht
      · exact hc.mem_atoms ht
      · obtain ⟨p, -, hpe⟩ := List.mem_map.1 ht
        rw [hgen, ← (Prod.mk.inj hpe).2] at hlt
        exact absurd hlt (lt_irrefl _)
    rw [r.stepped_frame.rules] at hrule
    exact hc.conclusion_mem_stepped hnone'
      (hc.application_of_yields hrule (hc.mem_selections_of_stepped hfacts hheld) hy)

theorem Layered.search (h : Layered r) (hc : Coherent r) (hs : Search r s) : Layered s := by
  induction hs with
  | rest hk => exact h.keeps hk
  | round hrs hnone ht ih => exact (ih.stepped (hc.search hrs) hnone).keeps ht

/-! ## Derivations -/

theorem Supported.support_unique (h : Supported r) {t : Support} (ha : (a, sup) ∈ r.supports)
    (ht : (a, t) ∈ r.supports) : sup = t := by
  have hn : (r.supports.map (·.1)).Nodup := h.keys ▸ h.nodup
  exact Option.some.inj ((Supports.get?_of_mem hn ha).symm.trans (Supports.get?_of_mem hn ht))

theorem Coherent.exists_depth (h : Coherent r) (ha : (a, sup) ∈ r.supports) :
    ∃ d, r.derive a = .ok (some d) ∧ d.depth ≤ sup.generation ∧ (Layered r → d.depth = sup.generation) := by
  have hq : r.Inherited fun b d => ∀ t, (b, t) ∈ r.supports →
      d.depth ≤ t.generation ∧ (Layered r → t.generation ≤ d.depth) := by
    refine ⟨fun b z hb _ t ht => ?_, fun earlier b ps c g later z y ds heq hj _ _ hds t ht => ?_⟩
    · obtain rfl := h.support_unique hb ht
      exact ⟨Nat.le_refl 0, fun _ => Nat.le_refl 0⟩
    · have hb : (b, ⟨ps, some c, g⟩) ∈ r.supports := heq ▸ List.mem_append_right _ List.mem_cons_self
      obtain rfl := h.support_unique hb ht
      cases hj with
      | derived _ hne hheld _ =>
        refine ⟨Derivation.depth_node_le (fun d hd => ?_) _ _, fun hlay => ?_⟩
        · obtain ⟨p, hp, hpd⟩ := exists_left_of_forall₂ hds hd
          obtain ⟨t, ht, hlt⟩ := hheld p hp
          exact ((hpd t (heq ▸ List.mem_append_left _ ht)).1).trans_lt hlt
        · obtain ⟨p, hp, t, ht, hlt⟩ := hlay.tight _ hb (by simpa [Support.isSeed] using hne)
          obtain ⟨d, hd, hpd⟩ := exists_right_of_forall₂ hds hp
          have hle := (hpd t ht).2 hlay
          have := Derivation.depth_lt_node hd z (some y)
          simp only at hlt ⊢
          omega
  obtain ⟨d, hd, hdepth⟩ := h.exists_derive hq (h.mem_atoms ha)
  exact ⟨d, hd, (hdepth sup ha).1, fun hlay => le_antisymm (hdepth sup ha).1 ((hdepth sup ha).2 hlay)⟩

/-! ## Shallow proofs -/

theorem Keeps.factSet_subset (h : Keeps r s) : r.factSet ⊆ s.factSet := by
  rintro x ⟨c, hc, hx⟩
  exact ⟨c, h.atoms.symm ▸ hc, hx.mono h.table List.prefix_rfl⟩

theorem Coherent.factSet_stepped (h : Coherent r) : r.factSet ⊆ r.stepped.factSet := by
  rintro x ⟨c, hc, hx⟩
  refine ⟨c, h.atoms_stepped.symm ▸ List.mem_append_left _ hc, ?_⟩
  rwa [r.stepped_frame.symbols]

/-- What is stated is held and the rules are rules of the reasoner. Proofs from them that are no deeper than there were
rounds prove facts, and no fact is of a later round than one of its proofs is deep. -/
structure Shallow (stated : List Atom) (rules : List Rule) (r : Reasoner) : Prop where
  held : ∀ x ∈ stated, x ∈ r.factSet
  added : ∀ y ∈ rules, y.Covered ∧ ∃ c ∈ r.rules, c.Reads r.symbols y
  complete : r.contradiction = none → ∀ d : Derivation, d.Proves stated rules → d.depth ≤ r.generation →
    d.atom ∈ r.factSet
  least : ∀ d : Derivation, d.Proves stated rules → ∀ a sup, (a, sup) ∈ r.supports → a.Reads r.symbols [] d.atom →
    sup.generation ≤ d.depth

section
variable {stated : List Atom} {rules : List Rule}

theorem Coherent.shallow (h : Coherent r) (h0 : r.generation = 0) (hs : ∀ x ∈ stated, x ∈ r.factSet)
    (hr : ∀ y ∈ rules, y.Covered ∧ ∃ c ∈ r.rules, c.Reads r.symbols y) : Shallow stated rules r := by
  refine ⟨hs, hr, fun _ d hd hdepth => ?_, fun d _ a sup ha _ => ?_⟩
  · cases hd with
    | stated hmem => exact hs _ hmem
    | inferred σ _ hne _ _ =>
      rw [Derivation.depth_node _ hne] at hdepth
      omega
  · have := h.generation_le ha
    omega

theorem Shallow.keeps (h : Shallow stated rules r) (hc : Coherent r) (hk : Keeps r s) : Shallow stated rules s where
  held x hx := hk.factSet_subset (h.held x hx)
  added y hy := by
    obtain ⟨hcov, c, hmem, hread⟩ := h.added y hy
    exact ⟨hcov, c, hk.rules.symm ▸ hmem, hread.mono hk.table⟩
  complete hnone d hd hdepth := by
    rw [hk.contradiction] at hnone
    rw [hk.generation] at hdepth
    exact hk.factSet_subset (h.complete hnone d hd hdepth)
  least d hd a sup ha hread := by
    rw [hk.supports] at ha
    obtain ⟨x, hx⟩ := hc.facts a (hc.mem_atoms ha)
    exact h.least d hd a sup ha (hread.unique (hx.mono hk.table List.prefix_rfl) ▸ hx)

/-- A proof whose premises are proved by facts is found in an exhaustive round. -/
theorem Coherent.mem_factSet_stepped (h : Coherent r) (hx : r.settings.exhaustiveMatching = true)
    (hnone : r.stepped.contradiction = none) {c : Coded.Rule} {y : Rule} (hc : c ∈ r.rules) (hy : c.Reads r.symbols y)
    (hcov : y.Covered) {σ : String → String} (hps : ∀ q ∈ y.premises, q.instantiate σ ∈ r.factSet) :
    y.conclusion.instantiate σ ∈ r.stepped.factSet := by
  obtain ⟨facts, hfacts⟩ : ∃ facts, List.Forall₂ (fun p f => f ∈ r.atoms ∧ f.Reads r.symbols [] (p.instantiate σ))
      y.premises facts := exists_forall₂ hps
  have hheld : ∀ f ∈ facts, f ∈ r.atoms := fun f hf => (exists_left_of_forall₂ hfacts hf).elim fun _ h => h.2.1
  obtain ⟨a, hyields, ha⟩ := hy.exists_yields h.distinct hcov (hfacts.flip.imp fun _ _ h => h.2)
  have hsel := mem_selections_of_exhaustive hx hheld hyields.length
  refine ⟨a, h.conclusion_mem_stepped hnone (h.application_of_yields hc hsel hyields), ?_⟩
  rwa [r.stepped_frame.symbols]

theorem Shallow.stepped (h : Shallow stated rules r) (hc : Coherent r) (hx : r.settings.exhaustiveMatching = true)
    (hnone : r.contradiction = none) : Shallow stated rules r.stepped := by
  by_cases hnil : r.fresh = []
  · rwa [stepped_of_fresh_eq_nil hnil]
  have hgen : r.stepped.generation = r.generation + 1 := if_neg hnil
  refine ⟨fun x hx => hc.factSet_stepped (h.held x hx), fun y hy => ?_, fun hnone' d hd hdepth => ?_,
    fun d hd a sup ha hread => ?_⟩
  · rw [r.stepped_frame.rules, r.stepped_frame.symbols]
    exact h.added y hy
  · cases hd with
    | stated hmem => exact hc.factSet_stepped (h.held _ hmem)
    | @inferred y children σ hmem _ hps hproved =>
      obtain ⟨hcov, c, hrule, hy⟩ := h.added y hmem
      refine hc.mem_factSet_stepped hx hnone' hrule hy hcov fun q hq => ?_
      obtain ⟨e, he, heq⟩ : ∃ e ∈ children, e.atom = q.instantiate σ := by
        rw [← List.mem_map, ← hps]
        exact List.mem_map_of_mem hq
      have := Derivation.depth_lt_node he (y.conclusion.instantiate σ) (some y)
      exact heq ▸ h.complete hnone e (hproved e he) (by omega)
  · rw [hc.supports_stepped] at ha
    rw [r.stepped_frame.symbols] at hread
    rcases List.mem_append.1 ha with ha | ha
    · exact h.least d hd a sup ha hread
    · obtain ⟨p, hp, hpe⟩ := List.mem_map.1 ha
      obtain ⟨rfl, rfl⟩ := Prod.mk.inj hpe
      -- were the proof shallower, its atom would be a fact already
      by_contra hlt
      obtain ⟨b, hb, hbd⟩ := h.complete hnone d hd (by simp only [not_le] at hlt; omega)
      exact hc.conclusion_not_mem hp (hread.inj hc.distinct List.nodup_nil hbd ▸ hb)

theorem Shallow.search (h : Shallow stated rules r) (hc : Coherent r) (hx : r.settings.exhaustiveMatching = true)
    (hs : Search r s) : Shallow stated rules s := by
  induction hs with
  | rest hk => exact h.keeps hc hk
  | round hrs hnone ht ih =>
    have hcs := hc.search hrs
    exact (ih.stepped hcs (hrs.settings ▸ hx) hnone).keeps hcs.stepped ht

end

/-! ## In every reasoner -/

theorem Supported.roundOf?_eq (h : Supported r) (ha : (a, sup) ∈ r.supports) : r.roundOf? a = some sup.generation := by
  have hget := Supports.get?_of_mem (h.keys ▸ h.nodup) ha
  rw [Supports.get?, Option.map_eq_some_iff] at hget
  obtain ⟨e, he, rfl⟩ := hget
  rw [roundOf?, ← h.maps, List.find?_map, Option.map_map]
  change (r.supports.find? fun e => e.1 = a).map _ = _
  rw [he]
  rfl

theorem Coherent.generationOf_eq (h : Coherent r) (ha : (a, sup) ∈ r.supports) (hx : a.Reads r.symbols [] x) :
    r.generationOf x = some sup.generation := by
  rw [generationOf, (Atom.lookup?_eq_some_iff h.distinct).2 hx, Option.bind_some, h.roundOf?_eq ha]

/-- A fact that is looked up by name, with its round and its derivation. -/
theorem Coherent.exists_fact (h : Coherent r) (hx : r.contains x) :
    ∃ a sup, (a, sup) ∈ r.supports ∧ a.Reads r.symbols [] x ∧ r.generationOf x = some sup.generation ∧
      r.derivationOf x = r.derive a := by
  obtain ⟨a, ha, hlook, hread⟩ := h.exists_of_contains hx
  obtain ⟨sup, hsup⟩ := h.exists_support ha
  exact ⟨a, sup, hsup, hread, h.generationOf_eq hsup hread, by rw [derivationOf, hlook]⟩

/-- Every fact has a derivation that is no deeper than its round says. -/
def DepthsWithin (r : Reasoner) : Prop :=
  ∀ x, r.contains x → ∃ d g, r.derivationOf x = .ok (some d) ∧ r.generationOf x = some g ∧ d.depth ≤ g

/-- Every fact has a derivation that is as deep as its round says. -/
def DepthsExact (r : Reasoner) : Prop :=
  ∀ x, r.contains x → ∃ d g, r.derivationOf x = .ok (some d) ∧ r.generationOf x = some g ∧ d.depth = g

/-- The round of every fact is the least depth of all proofs of it from what is stated, by instances of rules whose
conclusions have no variable of their own. -/
def DepthsLeast (r : Reasoner) : Prop :=
  ∃ stated rules, r.statedFacts = .ok stated ∧ r.statedRules = .ok rules ∧
    ∀ x, r.contains x → ∃ g, r.generationOf x = some g ∧
      IsLeast {n | ∃ e : Derivation, e.atom = x ∧ e.Proves stated (rules.filter Rule.Covered) ∧ e.depth = n} g

theorem Coherent.depthsWithin (h : Coherent r) : DepthsWithin r := by
  intro x hx
  obtain ⟨a, sup, ha, -, hgen, hder⟩ := h.exists_fact hx
  obtain ⟨d, hd, hle, -⟩ := h.exists_depth ha
  exact ⟨d, sup.generation, hder.trans hd, hgen, hle⟩

theorem Layered.depthsExact (h : Layered r) (hc : Coherent r) : DepthsExact r := by
  intro x hx
  obtain ⟨a, sup, ha, -, hgen, hder⟩ := hc.exists_fact hx
  obtain ⟨d, hd, -, heq⟩ := hc.exists_depth ha
  exact ⟨d, sup.generation, hder.trans hd, hgen, heq h⟩

/-- A search with exhaustive matching that starts before the first round. -/
theorem Coherent.depthsLeast (h : Coherent r) (h0 : r.generation = 0) (hx : r.settings.exhaustiveMatching = true)
    (hs : Search r s) : DepthsLeast s := by
  obtain ⟨stated, -, hstated⟩ := h.exists_statedFacts
  obtain ⟨rules, -, hrules⟩ := h.toReadable.exists_statedRules
  have hseeds := h.seeds_search hs
  have hsame := hs.rules
  have hcs := h.search hs
  have hlay := (h.layered h0).search h hs
  have hshallow : Shallow stated (rules.filter Rule.Covered) s := by
    refine (h.shallow h0 (fun x hx => ?_) fun y hy => ?_).search h hx hs
    · obtain ⟨a, ha, hax⟩ := exists_left_of_forall₂ hstated hx
      obtain ⟨e, he, rfl⟩ := List.mem_map.1 ha
      exact ⟨e.1, h.mem_atoms (List.mem_filter.1 he).1, hax⟩
    · obtain ⟨hmem, hcov⟩ := List.mem_filter.1 hy
      exact ⟨of_decide_eq_true hcov, exists_left_of_forall₂ hrules hmem⟩
  have hstated' : List.Forall₂ (Coded.Atom.Reads s.symbols []) ((s.supports.filter (·.2.isSeed)).map (·.1)) stated := by
    rw [hseeds]
    exact hstated.imp fun _ _ h => h.mono hs.table List.prefix_rfl
  have hrules' : List.Forall₂ (Coded.Rule.Reads s.symbols) s.rules rules := by
    rw [hsame]
    exact hrules.imp fun _ _ h => h.mono hs.table
  refine ⟨stated, rules, mapM_eq_ok (hstated'.imp fun _ _ h => nameFact_eq_ok h),
    mapM_eq_ok (hrules'.imp fun _ _ h => nameRule_eq_ok h), fun x hx => ?_⟩
  obtain ⟨a, sup, ha, hread, hgen, -⟩ := hcs.exists_fact hx
  refine ⟨sup.generation, hgen, ?_, ?_⟩
  · have hcov : ∀ c ∈ s.rules, ∀ y, c.Reads s.symbols y → y.Covered → y ∈ rules.filter Rule.Covered := by
      intro c hc y hy hcov
      obtain ⟨z, hz, hcz⟩ := exists_right_of_forall₂ hrules' hc
      exact List.mem_filter.2 ⟨hcz.unique hy ▸ hz, decide_eq_true hcov⟩
    obtain ⟨d, hd, hda, hproves⟩ := hcs.exists_proof hstated' hcov (hcs.mem_atoms ha)
    obtain ⟨d', hd', -, heq⟩ := hcs.exists_depth ha
    obtain rfl : d = d' := Option.some.inj (Except.ok.inj (hd.symm.trans hd'))
    exact ⟨d, hda.unique hread, hproves, heq hlay⟩
  · rintro n ⟨e, rfl, hproves, rfl⟩
    exact hshallow.least e hproves a sup ha hread

/-- No derivation is deeper than the round of its fact. If nothing is stated and no rule is added after a reasoner is
created, each is just as deep; with exhaustive matching no proof of the fact is shallower. -/
theorem depths_after (settings : Settings) (journal : Journal) (rules : List Rule) (qs : List Request) :
    DepthsWithin (after settings journal rules qs) ∧
    ((∀ q ∈ qs, q.addsNothing) →
      DepthsExact (after settings journal rules qs) ∧
      (settings.exhaustiveMatching = true → DepthsLeast (after settings journal rules qs))) := by
  have hc := coherent_create settings journal rules
  have h0 := generation_create settings journal rules
  refine ⟨(coherent_after settings journal rules qs).depthsWithin, fun hqs => ?_⟩
  have hs := search_performAll hqs (create settings journal rules).2
  refine ⟨((hc.layered h0).search hc hs).depthsExact (hc.search hs), fun hx => ?_⟩
  have hset : (create settings journal rules).2.settings = settings := settings_after settings journal rules []
  exact hc.depthsLeast h0 (by rw [hset, hx]) hs

/-- The link between a and c takes a round, and no proof takes less. -/
theorem depths_joined : (∀ q ∈ [Request.saturate], q.addsNothing) ∧ exhaustive.exhaustiveMatching = true ∧
    (after exhaustive .empty joined [.saturate]).generationOf ⟨"reach", [.const "a", .const "c"]⟩ = some 1 ∧
    DepthsExact (after exhaustive .empty joined [.saturate]) ∧
    DepthsLeast (after exhaustive .empty joined [.saturate]) := by
  have hqs : ∀ q ∈ [Request.saturate], q.addsNothing := by simp [Request.addsNothing]
  obtain ⟨-, hall⟩ := depths_after exhaustive .empty joined [.saturate]
  exact ⟨hqs, rfl, by rfl, (hall hqs).1, (hall hqs).2 rfl⟩

end Reasoner

end Entail
