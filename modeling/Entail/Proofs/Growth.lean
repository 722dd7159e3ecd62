import Entail.Proofs.Plain.Equivalence

/-!
# What is held stays as it is

* `Reasoner.Grows r s` : names, supports and rules of `s` begin with those of `r`; this is all that a request does to
  them, whether it succeeds or fails (`Coherent.grows_perform`);
* `PlainReasoner.Grows p q` : the same over names. The derivation, the round and the reason of a fact depend on the facts
  up to it, so they stay (`Grows.derivation?_eq`, `Grows.exists_generationOf`, `Grows.mem_stated_iff`);
* `Refines.grows` : from the one to the other;
* `Refines.query_of_contains`, `Coherent.contains_of_query` : a query of a fact that is held begins no round; a query
  that succeeds leaves its target behind as a fact;
* `HeldIn r s` : whatever is seen of the facts of `r` is seen of them in `s`; so it is after any further requests
  (`heldIn_after`).
-/

namespace Entail

/-- What stands for the beginning of a list is the beginning of what stands for the list. -/
theorem prefix_of_forall₂ {α β : Type} {R : α → β → Prop} (hR : Relator.RightUnique R) {xs ys : List α}
    {us vs : List β} (hus : List.Forall₂ R xs us) (hvs : List.Forall₂ R ys vs) (h : xs <+: ys) : us <+: vs := by
  obtain ⟨zs, rfl⟩ := h
  induction hus generalizing vs with
  | nil => exact List.nil_prefix
  | cons hxu _ ih =>
    obtain ⟨v, vs, hxv, hrest, rfl⟩ := List.forall₂_cons_left_iff.1 hvs
    rw [hR hxu hxv]
    exact List.cons_prefix_cons.2 ⟨rfl, ih hrest⟩

theorem Support.Reads.unique {t : SymbolTable} {s : Support} {y z : Reason} (hy : s.Reads t y) (hz : s.Reads t z) :
    y = z := by
  obtain ⟨xs, c, g⟩ := y
  obtain ⟨xs', c', g'⟩ := z
  have hpremises : xs = xs' :=
    List.right_unique_forall₂' (fun _ _ _ h h' => h.unique h') hy.premises hz.premises
  have hrule : c = c' := by
    have hc := hy.rule
    have hc' := hz.rule
    generalize s.rule = d at hc hc'
    cases hc with
    | none => cases hc'; rfl
    | some hc => obtain ⟨hc'⟩ := hc'; rw [hc.unique hc']
  have hgeneration : g = g' := hy.generation.symm.trans hz.generation
  rw [hpremises, hrule, hgeneration]

/-! ## Over names -/

namespace PlainReasoner

variable {p q : PlainReasoner} {x : Atom}

structure Grows (p q : PlainReasoner) : Prop where
  settings : q.settings = p.settings
  facts : p.facts <+: q.facts
  rules : p.rules <+: q.rules

theorem Grows.atoms (h : Grows p q) : p.atoms <+: q.atoms := h.facts.map _

/-- The facts that came later, none of them one that was there. -/
theorem Grows.exists_later (h : Grows p q) (hn : q.atoms.Nodup) :
    ∃ later, q.facts = p.facts ++ later ∧ ∀ x ∈ p.atoms, x ∉ later.map (·.1) := by
  obtain ⟨later, hlater⟩ := h.facts
  rw [PlainReasoner.atoms, ← hlater, List.map_append] at hn
  exact ⟨later, hlater.symm, fun x hx hmem => (List.nodup_append.1 hn).2.2 x hx x hmem rfl⟩

theorem Grows.derivation?_eq (h : Grows p q) (hn : q.atoms.Nodup) (hx : x ∈ p.atoms) :
    q.derivation? x = p.derivation? x := by
  obtain ⟨later, heq, hnew⟩ := h.exists_later hn
  exact derivation?_of_split heq (hnew x hx)

theorem Grows.exists_generationOf (h : Grows p q) (hx : x ∈ p.atoms) :
    ∃ g, p.generationOf x = some g ∧ q.generationOf x = some g := by
  obtain ⟨later, hlater⟩ := h.facts
  obtain ⟨e, he, rfl⟩ := List.mem_map.1 hx
  obtain ⟨f, hf⟩ : ∃ f, p.facts.find? (fun f => f.1 = e.1) = some f :=
    Option.isSome_iff_exists.1 (List.find?_isSome.2 ⟨e, he, decide_eq_true rfl⟩)
  refine ⟨f.2.generation, by rw [generationOf, hf, Option.map_some], ?_⟩
  rw [generationOf, ← hlater, List.find?_append, hf, Option.some_or, Option.map_some]

theorem Grows.mem_stated_iff (h : Grows p q) (hn : q.atoms.Nodup) (hx : x ∈ p.atoms) :
    x ∈ (q.facts.filter fun e => e.2.premises.isEmpty).map (·.1) ↔
      x ∈ (p.facts.filter fun e => e.2.premises.isEmpty).map (·.1) := by
  obtain ⟨later, heq, hnew⟩ := h.exists_later hn
  rw [heq, List.filter_append, List.map_append, List.mem_append, or_iff_left]
  exact fun hmem => hnew x hx ((List.filter_sublist.map _).subset hmem)

end PlainReasoner

namespace Reasoner

variable {r s t : Reasoner} {p q : PlainReasoner} {x : Atom}

/-! ## Over symbols -/

structure Grows (r s : Reasoner) : Prop where
  settings : s.settings = r.settings
  table : r.symbols.Extends s.symbols
  supports : r.supports <+: s.supports
  rules : r.rules <+: s.rules

theorem Grows.refl (r : Reasoner) : Grows r r := ⟨rfl, .refl _, List.prefix_rfl, List.prefix_rfl⟩

theorem Grows.trans (h₁ : Grows r s) (h₂ : Grows s t) : Grows r t where
  settings := h₂.settings.trans h₁.settings
  table := h₁.table.trans h₂.table
  supports := h₁.supports.trans h₂.supports
  rules := h₁.rules.trans h₂.rules

theorem Keeps.grows (h : Keeps r s) : Grows r s :=
  ⟨h.settings, h.table, h.supports ▸ List.prefix_rfl, h.rules ▸ List.prefix_rfl⟩

/-- The two maps of facts grow alike. -/
theorem Grows.known (h : Grows r s) (hr : Supported r) (hs : Supported s) : r.known <+: s.known := by
  rw [← hr.maps, ← hs.maps]
  exact h.supports.map _

theorem Supported.grows_insert (h : Supported r) (a : Coded.Atom) (sup : Support) : Grows r (r.insert a sup).2 := by
  have hf := insert_frame r a sup
  refine ⟨hf.settings, hf.symbols ▸ .refl _, ?_, hf.rules ▸ List.prefix_rfl⟩
  by_cases hmem : a ∈ r.atoms
  · rw [insert_of_mem hmem]
  · rw [insert_of_not_mem hmem, put_of_not_mem (h.keys ▸ hmem)]
    exact List.prefix_append _ _

theorem Coherent.grows_stepped (h : Coherent r) : Grows r r.stepped := by
  have hf := r.stepped_frame
  refine ⟨hf.settings, hf.symbols ▸ .refl _, ?_, hf.rules ▸ List.prefix_rfl⟩
  rw [h.supports_stepped]
  exact List.prefix_append _ _

theorem Coherent.grows_search (h : Coherent r) (hs : Search r s) : Grows r s := by
  induction hs with
  | rest hk => exact hk.grows
  | round hrs _ ht ih => exact (ih.trans (h.search hrs).grows_stepped).trans ht.grows

theorem Coherent.grows_addFact (h : Coherent r) (x : Atom) : Grows r (r.addFact x).2 := by
  cases hg : x.isGround with
  | false => rw [addFact_of_not_ground hg]; exact .refl r
  | true =>
    obtain ⟨c, u, he⟩ := Atom.exists_encode hg r.symbols
    obtain ⟨hext, hdist, -⟩ := Atom.encode_reads he
    have hk := keeps_symbols r hext hdist
    exact (hk.grows.trans ((h.keeps hk).grows_insert c .seed)).trans (addFact_of_encode he).grows

theorem Coherent.grows_addRule (h : Coherent r) (rule : Rule) : Grows r (r.addRule rule).2 := by
  cases hax : rule.isAxiom with
  | true =>
    cases hg : rule.conclusion.isGround with
    | false => rw [addRule_of_refused hax hg]; exact .refl r
    | true => rw [addRule_of_stated hax hg]; exact h.grows_addFact _
  | false =>
    obtain ⟨hext, -, -⟩ := rule.encode_reads h.distinct
    by_cases hv : ∃ old ∈ r.rules, old.toClause = (rule.encode r.symbols).1.toClause
    · rw [addRule_of_variant hax hv]
      exact ⟨rfl, hext, List.prefix_rfl, List.prefix_rfl⟩
    · rw [addRule_of_new hax fun old hold heq => hv ⟨old, hold, heq⟩]
      exact ⟨rfl, hext, List.prefix_rfl, List.prefix_append _ _⟩

theorem Coherent.grows_perform (h : Coherent r) (request : Request) : Grows r (r.perform request) := by
  cases request with
  | addRule rule => exact h.grows_addRule rule
  | addFact a => exact h.grows_addFact a
  | query target => exact h.grows_search (search_query r target)
  | saturate => exact h.grows_search (search_saturate r)
  | round => exact h.grows_search (search_round r)

theorem Coherent.grows_performAll (h : Coherent r) (requests : List Request) : Grows r (r.performAll requests) := by
  induction requests generalizing r with
  | nil => exact .refl r
  | cons request requests ih => exact (h.grows_perform request).trans (ih (h.perform request))

/-- What stands for a reasoner that grows grows too. -/
theorem Refines.grows (h : Refines r p) (h' : Refines s q) (hg : Grows r s) : p.Grows q where
  settings := by rw [← h.settings, ← h'.settings, hg.settings]
  facts := by
    have hbefore := h.facts.imp fun _ _ he => And.intro (he.1.mono hg.table List.prefix_rfl) (he.2.mono hg.table)
    refine prefix_of_forall₂ (fun e f f' hf hf' => ?_) hbefore h'.facts hg.supports
    exact Prod.ext (hf.1.unique hf'.1) (hf.2.unique hf'.2)
  rules := by
    have hbefore := h.rules.imp fun _ _ hc => And.intro (hc.1.mono hg.table) hc.2
    exact prefix_of_forall₂ (fun c x y hx hy => hx.1.unique hy.1) hbefore h'.rules hg.rules

/-! ## Queries of what is held -/

theorem searchFrom_of_mem (target : Atom) {goal : Coded.Atom} (h : goal ∈ r.atoms) (fuel rounds : Nat) :
    searchFrom target goal (fuel + 1) rounds r = (.ok rounds, r) := by
  rw [searchFrom, if_pos (holds_iff.2 h)]

/-- A query of a fact gives its derivation and changes nothing that is held. -/
theorem Refines.query_of_contains (h : Refines r p) (hc : Coherent r) (hnone : r.contradiction = none)
    (hx : r.contains x) : (r.query x).1 = r.derivationOf x ∧ Keeps r (r.query x).2 := by
  obtain ⟨a, ha, -, hread⟩ := hc.exists_of_contains hx
  obtain ⟨goal, u, he⟩ := Atom.exists_encode hread.isGround_right r.symbols
  obtain ⟨hext, -, hgoal⟩ := Atom.encode_reads he
  have hk := keeps_asked he
  have hasked := hc.keeps hk
  obtain rfl : a = goal := (hread.mono hext List.prefix_rfl).inj hasked.distinct List.nodup_nil hgoal
  rw [← hk.atoms] at ha
  have hrun := searchFrom_of_mem x ha r.roundBudget 0
  obtain ⟨text, hq⟩ := query_of_found (checkConsistent_eq_ok.2 hnone) he hrun
  rw [hq]
  refine ⟨?_, hk.trans (keeps_write _ _ _)⟩
  rw [(h.keeps hk rfl).derive_eq hasked hgoal, (h.agrees hc).derivationOf]
  rfl

/-- A search that succeeds has met no contradiction. -/
theorem consistent_of_searchFrom {target : Atom} {goal : Coded.Atom} {fuel rounds n : Nat}
    (hr : r.contradiction = none) (h : searchFrom target goal fuel rounds r = (.ok n, s)) : s.contradiction = none := by
  induction fuel generalizing rounds r with
  | zero => cases h
  | succ fuel ih =>
    rw [searchFrom] at h
    split at h
    · rwa [← (Prod.mk.inj h).2]
    · split at h
      · cases h
      · split at h
        · cases h
        · cases h
        · next hround => exact ih (round_eq_ok hround).2.2.2 h

/-- A query that succeeds leaves its target behind as a fact, with the derivation that it gives, and no contradiction. -/
theorem Coherent.contains_of_query (h : Coherent r) {d? : Option Derivation} (hq : r.query x = (.ok d?, s)) :
    s.contradiction = none ∧ s.contains x ∧ s.derivationOf x = .ok d? := by
  have hqueried := r.queried x
  rw [hq] at hqueried
  cases hqueried with
  | @found goal u n t out text hc he hrun hd =>
    have hasked := keeps_asked he
    have hsearch := search_searchFrom x goal (r.roundBudget + 1) 0 (r.asked u)
    have hmem := mem_of_searchFrom (n := n) (by rw [hrun])
    rw [hrun] at hsearch hmem
    have ht := ((h.keeps hasked).search hsearch).keeps (keeps_write t .info text)
    obtain ⟨-, -, hgoal⟩ := Atom.encode_reads he
    have hread := hgoal.mono hsearch.table List.prefix_rfl
    have hnone := hasked.contradiction.trans (checkConsistent_eq_ok.1 hc)
    have hend : t.contradiction = none := consistent_of_searchFrom hnone hrun
    refine ⟨hend, ht.contains_of_mem hmem hread, ?_⟩
    have hlook : x.lookup? (t.write .info text).symbols = some goal := (Atom.lookup?_eq_some_iff ht.distinct).2 hread
    simp only [derivationOf, hlook]
    exact hd

/-! ## What is seen later -/

/-- Both lists can be had, and the one is the beginning of the other. -/
def Begins {α : Type} (xs? ys? : Except Failure (List α)) : Prop :=
  ∃ xs ys, xs? = .ok xs ∧ ys? = .ok ys ∧ xs <+: ys

/-- What is held in the first reasoner is held in the second just as it is: in the same places, since the same round, for
the same reason. All that is seen of its facts and rules is seen of them in the second. -/
structure HeldIn (r s : Reasoner) : Prop where
  known : r.known <+: s.known
  supports : r.supports <+: s.supports
  rules : r.rules <+: s.rules
  facts : Begins r.facts s.facts
  generations : Begins r.generations s.generations
  justifications : Begins r.justifications s.justifications
  statedRules : Begins r.statedRules s.statedRules
  contains : ∀ x, r.contains x → s.contains x
  derivationOf : ∀ x, r.contains x → ∃ d, r.derivationOf x = .ok (some d) ∧ s.derivationOf x = .ok (some d)
  generationOf : ∀ x, r.contains x → ∃ g, r.generationOf x = some g ∧ s.generationOf x = some g
  statedFacts : ∃ as bs, r.statedFacts = .ok as ∧ s.statedFacts = .ok bs ∧ ∀ x, r.contains x → (x ∈ bs ↔ x ∈ as)

/-- Names that only the one which grew has make no difference. -/
theorem Refines.heldIn (h : Refines r p) (h' : Refines s q) (hc : Coherent r) (hc' : Coherent s) (hg : Grows r t)
    (hk : Keeps s t) : HeldIn r s := by
  have hcoded : r.known <+: s.known := hk.known ▸ hg.known hc.toSupported (hc'.keeps hk).toSupported
  have hplain : p.Grows q := by
    obtain ⟨hsettings, hfacts, hrules⟩ := h.grows (h'.keeps hk rfl) hg
    exact ⟨hsettings, hfacts, hrules⟩
  have ha := h.agrees hc
  have ha' := h'.agrees hc'
  refine { known := hcoded, supports := hk.supports ▸ hg.supports, rules := hk.rules ▸ hg.rules,
           facts := ⟨_, _, ha.facts, ha'.facts, hplain.atoms⟩,
           generations := ⟨_, _, ha.generations, ha'.generations, hplain.facts.map _⟩,
           justifications := ⟨_, _, ha.justifications, ha'.justifications, hplain.facts.map _⟩,
           statedRules := ⟨_, _, ha.statedRules, ha'.statedRules, hplain.rules⟩,
           contains := fun x hx => ?_, derivationOf := fun x hx => ?_, generationOf := fun x hx => ?_,
           statedFacts := ⟨_, _, ha.statedFacts, ha'.statedFacts, fun x hx => ?_⟩ }
  · rw [ha.contains] at hx
    exact (ha'.contains x).2 (hplain.atoms.subset hx)
  · obtain ⟨d, hd, -⟩ := hc.exists_derivationOf hx
    rw [ha.contains] at hx
    exact ⟨d, hd, by rw [ha'.derivationOf, hplain.derivation?_eq (h'.nodup hc') hx, ← ha.derivationOf, hd]⟩
  · rw [ha.contains] at hx
    rw [ha.generationOf, ha'.generationOf]
    exact hplain.exists_generationOf hx
  · rw [ha.contains] at hx
    exact hplain.mem_stated_iff (h'.nodup hc') hx

theorem Refines.heldIn_performAll (h : Refines r p) (hc : Coherent r) (later : List Request) :
    HeldIn r (r.performAll later) := by
  obtain ⟨q, -, h'⟩ := h.performAll_eq hc later
  exact h.heldIn h' hc (hc.performAll later) (hc.grows_performAll later) (.refl _)

/-- No request changes what is held already, be it refused, answered or cut short by a contradiction. So a query that
was answered once is answered alike after any further requests that end without a contradiction, and it changes nothing
that is held. -/
theorem heldIn_after (settings : Settings) (journal : Journal) (rules : List Rule) (qs : List Request) :
    (∀ later, HeldIn (after settings journal rules qs) ((after settings journal rules qs).performAll later)) ∧
    ∀ target d? s, (after settings journal rules qs).query target = (.ok d?, s) →
      s.isConsistent ∧ ∀ later, (s.performAll later).isConsistent →
        ∃ d, d? = some d ∧ ((s.performAll later).query target).1 = .ok (some d) ∧
          Keeps (s.performAll later) ((s.performAll later).query target).2 := by
  obtain ⟨p, -, h⟩ := refines_after settings journal rules qs
  have hc := coherent_after settings journal rules qs
  generalize after settings journal rules qs = r at h hc ⊢
  refine ⟨h.heldIn_performAll hc, fun target d? s hq => ?_⟩
  obtain ⟨hnone, hheld, hd⟩ := hc.contains_of_query hq
  obtain ⟨p', -, hs⟩ := h.query_eq hc target
  have hcs := hc.search (search_query r target)
  rw [hq] at hs hcs
  refine ⟨Option.isNone_iff_eq_none.2 hnone, fun later hlater => ?_⟩
  have hin := hs.heldIn_performAll hcs later
  obtain ⟨q, -, ht⟩ := hs.performAll_eq hcs later
  obtain ⟨hagain, hk⟩ := ht.query_of_contains (hcs.performAll later) (Option.isNone_iff_eq_none.1 hlater)
    (hin.contains target hheld)
  obtain ⟨d, hd', hlast⟩ := hin.derivationOf target hheld
  exact ⟨d, Except.ok.inj (hd.symm.trans hd'), hagain.trans hlast, hk⟩

/-- What joins two links is proved once, and proved alike after it has been stated too. -/
theorem heldIn_joined : ∃ d,
    ((after exhaustive .empty joined []).query ⟨"reach", [.const "a", .const "c"]⟩).1 = .ok (some d) ∧
    ((after exhaustive .empty joined [.query ⟨"reach", [.const "a", .const "c"]⟩,
      .addFact ⟨"reach", [.const "a", .const "c"]⟩]).query ⟨"reach", [.const "a", .const "c"]⟩).1 = .ok (some d) ∧
    (after exhaustive .empty joined []).contains ⟨"link", [.const "a", .const "b"]⟩ ∧
    HeldIn (after exhaustive .empty joined [])
      (after exhaustive .empty joined [.query ⟨"reach", [.const "a", .const "c"]⟩,
        .addFact ⟨"reach", [.const "a", .const "c"]⟩]) := by
  obtain ⟨hin, hquery⟩ := heldIn_after exhaustive .empty joined []
  have hfirst : ((after exhaustive .empty joined []).query ⟨"reach", [.const "a", .const "c"]⟩).1 = .ok (some
      (.node ⟨"reach", [.const "a", .const "c"]⟩
        [.node ⟨"link", [.const "a", .const "b"]⟩ [] none, .node ⟨"link", [.const "b", .const "c"]⟩ [] none]
        joined[2])) := by rfl
  obtain ⟨-, hagain⟩ := hquery _ _ _ (Prod.ext hfirst rfl)
  obtain ⟨d, hd, hsecond, -⟩ := hagain [.addFact ⟨"reach", [.const "a", .const "c"]⟩] (by rfl)
  exact ⟨d, by rw [hfirst, hd], hsecond, by rfl, hin _⟩

end Reasoner

end Entail
