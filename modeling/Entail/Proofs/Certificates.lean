import Entail.Proofs.Coherence
import Entail.Proofs.Instances
import Entail.Proofs.Unfolding
import Entail.Reasoner.Query

/-!
# Derivations certify what they prove

* `Derivation.Proves` : a proof tree from stated atoms by instances of rules, nothing said of reasoners;
* `Reasoner.Certifies r a d` : `d` proves `a` from what is stated in `r` by the rules of `r`;
* `Coherent.exists_derive` : the supports of a fact unfold to a tree, because the premises of a support stand earlier,
  and what is `Inherited` from leaves to nodes holds of it;
* `Attested r` : all derivations that come of `r` certify what they are for, with facts, with queries and with
  contradictions (`attested_after`).
-/

namespace Entail

/-! ## Proof trees -/

/-- A leaf is a stated atom; any other node is an instance of a rule, with the rule's premises as children. -/
inductive Derivation.Proves (stated : List Atom) (rules : List Rule) : Derivation → Prop
  | stated {a : Atom} (mem : a ∈ stated) : Proves stated rules (.node a [] none)
  | inferred {rule : Rule} {children : List Derivation} (σ : String → String) (mem : rule ∈ rules)
      (some_child : children ≠ []) (premises : rule.premises.map (Atom.instantiate σ) = children.map Derivation.atom)
      (proved : ∀ d ∈ children, Proves stated rules d) :
      Proves stated rules (.node (rule.conclusion.instantiate σ) children (some rule))

namespace Reasoner

variable {r s : Reasoner} {a : Coded.Atom} {x : Atom}

/-! ## Views -/

theorem nameFact_eq_ok (h : a.Reads r.symbols [] x) : r.nameFact a = .ok x := by
  rw [nameFact, Supports.nameAtom_eq_ok h]

theorem nameRule_eq_ok {c : Coded.Rule} {y : Rule} (h : c.Reads r.symbols y) : r.nameRule c = .ok y := by
  rw [nameRule, h.decode]

/-- Atoms that read as something are all named. -/
theorem exists_nameFacts {as : List Coded.Atom} (h : ∀ a ∈ as, ∃ x, a.Reads r.symbols [] x) :
    ∃ xs, as.mapM r.nameFact = .ok xs ∧ List.Forall₂ (Coded.Atom.Reads r.symbols []) as xs := by
  obtain ⟨xs, hxs⟩ := exists_forall₂ h
  exact ⟨xs, mapM_eq_ok (hxs.imp fun _ _ h => nameFact_eq_ok h), hxs⟩

theorem Readable.exists_statedRules (h : Readable r) :
    ∃ rules, r.statedRules = .ok rules ∧ List.Forall₂ (Coded.Rule.Reads r.symbols) r.rules rules := by
  obtain ⟨rules, hrules⟩ := exists_forall₂ h.rules
  exact ⟨rules, mapM_eq_ok (hrules.imp fun _ _ h => nameRule_eq_ok h), hrules⟩

theorem Coherent.exists_statedFacts (h : Coherent r) :
    ∃ stated, r.statedFacts = .ok stated ∧
      List.Forall₂ (Coded.Atom.Reads r.symbols []) ((r.supports.filter (·.2.isSeed)).map (·.1)) stated := by
  refine exists_nameFacts fun a ha => h.facts a ?_
  obtain ⟨e, he, rfl⟩ := List.mem_map.1 ha
  rw [← h.keys]
  exact List.mem_map_of_mem (List.mem_filter.1 he).1

theorem Readable.exists_of_contains (h : Readable r) (hx : r.contains x) :
    ∃ a ∈ r.atoms, x.lookup? r.symbols = some a ∧ a.Reads r.symbols [] x := by
  obtain ⟨a, ha, hheld⟩ := (Option.any_eq_true _ _).1 hx
  exact ⟨a, holds_iff.1 hheld, ha, (Atom.lookup?_eq_some_iff h.distinct).1 ha⟩

theorem Readable.contains_of_mem (h : Readable r) (ha : a ∈ r.atoms) (hx : a.Reads r.symbols [] x) : r.contains x := by
  rw [contains, (Atom.lookup?_eq_some_iff h.distinct).2 hx]
  exact holds_iff.2 ha

/-! ## Unfolding -/

/-- The rules written so far are rules of the reasoner, as they read. -/
def Transcribed (r : Reasoner) (w : Supports.Written) : Prop :=
  ∀ e ∈ w, ∃ c ∈ r.rules, c.toClause = e.1 ∧ c.Reads r.symbols e.2

/-- A rule is written with its own variables, since no other rule is a variant of it. -/
theorem Coherent.writeRule_eq_ok (h : Coherent r) {c : Coded.Rule} (hc : c ∈ r.rules) {w : Supports.Written}
    (hw : r.Transcribed w) :
    ∃ y w', Supports.writeRule r.symbols w c = .ok (y, w') ∧ r.Transcribed w' ∧ c.Reads r.symbols y := by
  obtain ⟨z, hz⟩ := h.rules c hc
  obtain ⟨y, w', hy, hw', old, hold, hclause, hread⟩ := Supports.exists_writeRule
    (P := fun clause y => ∃ old ∈ r.rules, old.toClause = clause ∧ old.Reads r.symbols y) hw hz.decode ⟨c, hc, rfl, hz⟩
  have hsame : old = c := List.inj_on_of_nodup_map h.variants hold hc hclause
  exact ⟨y, w', hy, hw', hsame ▸ hread⟩

/-- A fact with a derived support is proved by proofs of its premises. -/
theorem Coherent.proves_node (h : Coherent r) {stated : List Atom} {rules : List Rule} {premises : List Coded.Atom}
    {c : Coded.Rule} {y : Rule} {ds : List Derivation} (hc : c ∈ r.rules) (hr : y.Covered → y ∈ rules)
    (hne : premises ≠ []) (hheld : ∀ p ∈ premises, p ∈ r.atoms) (happly : c.apply premises = .ok ⟨a, premises, c⟩)
    (hx : a.Reads r.symbols [] x) (hy : c.Reads r.symbols y)
    (hds : List.Forall₂ (fun p d => p.Reads r.symbols [] d.atom ∧ d.Proves stated rules) premises ds) :
    (Derivation.node x ds (some y)).Proves stated rules := by
  obtain ⟨hyields, -⟩ := (Coded.Rule.apply_eq_ok_iff (h.scoped hc) fun f hf => h.isGround (hheld f hf)).1 happly
  obtain ⟨σ, hps, hconc⟩ := hy.exists_instance (fun f hf => h.facts f (hheld f hf)) hyields
  have hcov : y.Covered := by
    obtain ⟨τ, -, hin, -⟩ := hyields
    exact hy.covered_iff.2 hin
  have hchildren : y.premises.map (Atom.instantiate σ) = ds.map Derivation.atom :=
    List.right_unique_forall₂' (R := Coded.Atom.Reads r.symbols []) (fun _ _ _ h₁ h₂ => h₁.unique h₂)
      (List.forall₂_map_right_iff.2 hps) (List.forall₂_map_right_iff.2 (hds.imp fun _ _ h => h.1))
  have hsome : ds ≠ [] := by
    rintro rfl
    exact hne (List.length_eq_zero_iff.1 hds.length_eq)
  rw [hx.unique hconc]
  refine .inferred σ (hr hcov) hsome hchildren fun d hd => ?_
  obtain ⟨p, -, -, hproves⟩ := exists_left_of_forall₂ hds hd
  exact hproves

/-- What holds of leaves for stated facts and is passed on to a node from its children. -/
structure Inherited (r : Reasoner) (Q : Coded.Atom → Derivation → Prop) : Prop where
  leaf : ∀ a x, (a, .seed) ∈ r.supports → a.Reads r.symbols [] x → Q a (.node x [] none)
  node : ∀ earlier a premises c g later x y ds, r.supports = earlier ++ (a, ⟨premises, some c, g⟩) :: later →
    Justified r.rules earlier a ⟨premises, some c, g⟩ → a.Reads r.symbols [] x → c.Reads r.symbols y →
    List.Forall₂ Q premises ds → Q a (.node x ds (some y))

section
variable {Q : Coded.Atom → Derivation → Prop}

/-- A fact unfolds to a derivation. The facts that wait for it all stand later, so none of them is met again. -/
theorem Coherent.unfold_eq_ok (h : Coherent r) (hq : r.Inherited Q) {fuel : Nat} :
    ∀ {earlier : Supports} {a : Coded.Atom} {sup : Support} {later : Supports} {waiting : List Coded.Atom}
      {w : Supports.Written}, r.supports = earlier ++ (a, sup) :: later → earlier.length < fuel →
      waiting ⊆ later.map (·.1) → r.Transcribed w →
      ∃ d w', Supports.unfold r.supports r.symbols fuel waiting w a = .ok (d, w') ∧ r.Transcribed w' ∧ Q a d := by
  induction fuel with
  | zero => exact fun _ hlen => absurd hlen (Nat.not_lt_zero _)
  | succ fuel ih =>
    intro earlier a sup later waiting w heq hlen hwait hw
    have hn : (r.supports.map (·.1)).Nodup := h.keys ▸ h.nodup
    have hmem : (a, sup) ∈ r.supports := heq ▸ List.mem_append_right _ List.mem_cons_self
    have hfree : a ∉ waiting := by
      rw [heq, List.map_append, List.map_cons] at hn
      exact fun haw => (List.nodup_cons.1 hn.of_append_right).1 (hwait haw)
    obtain ⟨x, hx⟩ := h.facts a (h.mem_atoms hmem)
    have hsup := Supports.get?_of_mem hn hmem
    have hname := Supports.nameAtom_eq_ok hx
    cases h.justified earlier a sup later heq with
    | stated => exact ⟨.node x [] none, w, Supports.unfold_of_seed hfree hsup hname rfl, hw, hq.leaf a x hmem hx⟩
    | @derived premises c g hc hne hheld happly =>
      -- a premise stands earlier than the fact, so less fuel is enough for it
      have hstep : ∀ p ∈ premises, ∀ w, r.Transcribed w →
          ∃ d w', Supports.unfold r.supports r.symbols fuel (a :: waiting) w p = .ok (d, w') ∧ r.Transcribed w' ∧
            Q p d := by
        intro p hp w hw
        obtain ⟨t, ht, -⟩ := hheld p hp
        obtain ⟨before, between, rfl⟩ := List.append_of_mem ht
        have hsplit : r.supports = before ++ (p, t) :: (between ++ (a, ⟨premises, some c, g⟩) :: later) := by simp [heq]
        refine ih hsplit ?_ ?_ hw
        · simp only [List.length_append, List.length_cons] at hlen
          omega
        · rw [List.map_append, List.map_cons]
          exact List.Subset.trans (List.cons_subset_cons a hwait) (List.subset_append_right _ _)
      obtain ⟨ds, w₁, hds, hw₁, hall⟩ := Supports.unfoldAll_eq_ok hstep hw
      obtain ⟨y, w₂, hy, hw₂, hread⟩ := h.writeRule_eq_ok hc hw₁
      have hnode := hq.node earlier a premises c g later x y ds heq (.derived hc hne hheld happly) hx hread hall
      have hderived : Support.isSeed ⟨premises, some c, g⟩ = false := List.isEmpty_eq_false_iff.2 hne
      exact ⟨.node x ds (some y), w₂, Supports.unfold_of_inferred hfree hsup hname hderived hds rfl hy, hw₂, hnode⟩

/-- Every fact has a derivation, and what is inherited holds of it. -/
theorem Coherent.exists_derive (h : Coherent r) (hq : r.Inherited Q) (ha : a ∈ r.atoms) :
    ∃ d, r.derive a = .ok (some d) ∧ Q a d := by
  obtain ⟨sup, hsup⟩ := h.exists_support ha
  obtain ⟨earlier, later, heq⟩ := List.append_of_mem hsup
  have hlen : earlier.length < r.supports.length + 1 := by
    rw [heq, List.length_append]
    omega
  have hnone : r.Transcribed [] := fun e he => by cases he
  obtain ⟨d, w, hd, -, had⟩ := h.unfold_eq_ok hq heq hlen (List.nil_subset _) hnone
  refine ⟨d, ?_, had⟩
  rw [derive, Supports.derivation?, Supports.get?_of_mem (h.keys ▸ h.nodup) hsup, hd]
  rfl

end

/-! ## Certificates -/

/-- The derivation proves the atom from the stated facts of the reasoner by its rules. -/
def Certifies (r : Reasoner) (x : Atom) (d : Derivation) : Prop :=
  d.atom = x ∧ ∃ stated rules, r.statedFacts = .ok stated ∧ r.statedRules = .ok rules ∧ d.Proves stated rules

/-- The derivation of a fact is a proof of it, by covered rules alone. -/
theorem Coherent.exists_proof (h : Coherent r) {stated : List Atom} {rules : List Rule}
    (hs : List.Forall₂ (Coded.Atom.Reads r.symbols []) ((r.supports.filter (·.2.isSeed)).map (·.1)) stated)
    (hr : ∀ c ∈ r.rules, ∀ y, c.Reads r.symbols y → y.Covered → y ∈ rules) (ha : a ∈ r.atoms) :
    ∃ d, r.derive a = .ok (some d) ∧ a.Reads r.symbols [] d.atom ∧ d.Proves stated rules := by
  have hq : r.Inherited fun b d => b.Reads r.symbols [] d.atom ∧ d.Proves stated rules := by
    refine ⟨fun b z hb hz => ⟨hz, ?_⟩, fun earlier b ps c g later z y ds heq hj hz hy hds => ⟨hz, ?_⟩⟩
    · obtain ⟨z', hz', hread⟩ := exists_right_of_forall₂ hs (List.mem_map.2 ⟨_, List.mem_filter.2 ⟨hb, rfl⟩, rfl⟩)
      exact .stated (hread.unique hz ▸ hz')
    · cases hj with
      | derived hc hne hheld happly =>
        exact h.proves_node hc (hr c hc y hy) hne (h.premises_held heq hheld) happly hz hy hds
  exact h.exists_derive hq ha

theorem Coherent.derive_eq_ok (h : Coherent r) (ha : a ∈ r.atoms) (hx : a.Reads r.symbols [] x) :
    ∃ d, r.derive a = .ok (some d) ∧ r.Certifies x d := by
  obtain ⟨stated, hstated, hs⟩ := h.exists_statedFacts
  obtain ⟨rules, hrules, hr⟩ := h.exists_statedRules
  have hmem : ∀ c ∈ r.rules, ∀ y, c.Reads r.symbols y → y.Covered → y ∈ rules := by
    intro c hc y hy _
    obtain ⟨z, hz, hcz⟩ := exists_right_of_forall₂ hr hc
    exact hcz.unique hy ▸ hz
  obtain ⟨d, hd, hread, hproves⟩ := h.exists_proof hs hmem ha
  exact ⟨d, hd, hread.unique hx, stated, rules, hstated, hrules, hproves⟩

/-- Every fact has a derivation, and it proves the fact. -/
theorem Coherent.exists_derivationOf (h : Coherent r) (hx : r.contains x) :
    ∃ d, r.derivationOf x = .ok (some d) ∧ r.Certifies x d := by
  obtain ⟨a, ha, hlook, hread⟩ := h.exists_of_contains hx
  obtain ⟨d, hd, hcert⟩ := h.derive_eq_ok ha hread
  exact ⟨d, by simp only [derivationOf, hlook, hd], hcert⟩

/-- What a failure may be: one with a contradiction names the contradiction held and carries a proof of it, and none
is for want of a written form. -/
def Accounts (r : Reasoner) : Failure → Prop
  | .contradiction x d? => r.contradictionAtom = .ok (some x) ∧ ∃ d, d? = some d ∧ r.Certifies x d
  | .derivation _ => False
  | _ => True

/-- A check finds no contradiction, or fails with the one there is and a proof of it. -/
theorem Coherent.checkConsistent_cases (h : Coherent r) :
    (r.contradiction = none ∧ r.checkConsistent = .ok ()) ∨
    ∃ a x d, r.contradiction = some a ∧ a ∈ r.atoms ∧ r.bottom = some a.predicate ∧ a.Reads r.symbols [] x ∧
      r.checkConsistent = .error (.contradiction x (some d)) ∧ r.Accounts (.contradiction x (some d)) := by
  cases hc : r.contradiction with
  | none => exact .inl ⟨rfl, checkConsistent_eq_ok.2 hc⟩
  | some a =>
    have hfind : r.atoms.find? r.isBottom = some a := by rw [← h.contradiction, hc]
    have ha : a ∈ r.atoms := List.mem_of_find?_eq_some hfind
    obtain ⟨x, hx⟩ := h.facts a ha
    obtain ⟨d, hd, hcert⟩ := h.derive_eq_ok ha hx
    refine .inr ⟨a, x, d, rfl, ha, isBottom_iff.1 (List.find?_some hfind), hx, ?_, ?_, d, rfl, hcert⟩
    · simp only [checkConsistent, hc, nameFact_eq_ok hx, hd, bind, Except.bind]
      rfl
    · rw [contradictionAtom, hc, Option.mapM_some, nameFact_eq_ok hx]
      rfl

theorem Coherent.accounts_of_checkConsistent (h : Coherent r) {e : Failure} (he : r.checkConsistent = .error e) :
    r.Accounts e := by
  obtain ⟨-, hok⟩ | ⟨a, x, d, -, -, -, -, herr, hacc⟩ := h.checkConsistent_cases
  · rw [hok] at he
    cases he
  · rw [herr] at he
    exact Except.error.inj he ▸ hacc

theorem accounts_write {e : Failure} (level : Level) (text : String) (h : r.Accounts e) :
    (r.write level text).Accounts e := by
  cases e <;> exact h

/-! ## Failures -/

theorem accounts_of_checkCeiling {c : Ceiling} {limit? : Option Limit} {count rounds : Nat} {line : String → String}
    {e : Failure} (he : (r.checkCeiling c limit? count rounds line).1 = .error e) : s.Accounts e := by
  unfold checkCeiling at he
  split at he
  · cases he
  · split at he
    · exact Except.error.inj he ▸ trivial
    · cases he
    · exact Except.error.inj he ▸ trivial

theorem accounts_of_checkCeilings {rounds : Nat} {e : Failure} (he : (r.checkCeilings rounds).1 = .error e) :
    s.Accounts e := by
  unfold checkCeilings at he
  split at he
  · next h => exact accounts_of_checkCeiling (by rw [h]; exact he)
  · exact accounts_of_checkCeiling he

theorem Coherent.accounts_round (h : Coherent r) {e : Failure} (he : r.round.1 = .error e) : r.round.2.Accounts e := by
  obtain ⟨hc, -⟩ | ⟨a, x, d, -, -, -, -, herr, hacc⟩ := h.checkConsistent_cases
  · rw [round_of_consistent hc] at he ⊢
    have hafter := h.stepped.keeps (keeps_advance hc)
    cases hchk : r.advance.2.checkConsistent with
    | ok u =>
      rw [hchk] at he
      cases he
    | error e' =>
      rw [hchk] at he
      exact Except.error.inj he ▸ hafter.accounts_of_checkConsistent hchk
  · rw [round_of_inconsistent herr] at he ⊢
    exact Except.error.inj he ▸ hacc

theorem Coherent.accounts_saturateFrom {fuel rounds : Nat} {e : Failure} (h : Coherent r) :
    (saturateFrom fuel rounds r).1 = .error e → (saturateFrom fuel rounds r).2.Accounts e := by
  induction fuel generalizing rounds r with
  | zero =>
    intro he
    cases he
  | succ fuel ih =>
    rw [saturateFrom]
    split
    · next hc => exact fun he => accounts_of_checkCeilings (by rw [hc, Except.error.inj he])
    · next s hc =>
      obtain rfl := checkCeilings_ok hc
      have hround := h.search (search_round s)
      split
      · next hr =>
        intro he
        have := h.accounts_round (e := e) (by rw [hr]; exact he)
        rwa [hr] at this
      · next hr =>
        intro he
        cases he
      · next hr =>
        rw [hr] at hround
        exact ih hround

theorem Coherent.accounts_saturate (h : Coherent r) {e : Failure} (he : r.saturate.1 = .error e) :
    r.saturate.2.Accounts e := by
  have hacc : (saturateFrom (r.roundBudget + 1) 0 r).1 = .error e →
      (saturateFrom (r.roundBudget + 1) 0 r).2.Accounts e := h.accounts_saturateFrom
  revert he
  unfold saturate
  split
  · intro he
    cases he
  · next hs =>
    rw [hs] at hacc
    exact hacc

theorem accounts_writeAborted {target : Atom} {e e' : Failure} (h : r.Accounts e) :
    (r.writeAborted target e').Accounts e := by
  unfold writeAborted
  split
  · exact accounts_write _ _ h
  · exact h

theorem Coherent.accounts_searchFrom {target : Atom} {goal : Coded.Atom} {fuel rounds : Nat} {e : Failure}
    (h : Coherent r) :
    (searchFrom target goal fuel rounds r).1 = .error e → (searchFrom target goal fuel rounds r).2.Accounts e := by
  induction fuel generalizing rounds r with
  | zero => exact fun he => Except.error.inj he ▸ trivial
  | succ fuel ih =>
    rw [searchFrom]
    split
    · intro he
      cases he
    · split
      · next hc => exact fun he => accounts_of_checkCeilings (by rw [hc, Except.error.inj he])
      · next s hc =>
        obtain rfl := checkCeilings_ok hc
        have hround := h.search (search_round s)
        split
        · next hr =>
          intro he
          have := h.accounts_round (e := e) (by rw [hr]; exact he)
          rw [hr] at this
          exact accounts_writeAborted this
        · exact fun he => Except.error.inj he ▸ trivial
        · next hr =>
          rw [hr] at hround
          exact ih hround

/-- A search that succeeds holds its goal. -/
theorem mem_of_searchFrom {target : Atom} {goal : Coded.Atom} {fuel rounds n : Nat} :
    (searchFrom target goal fuel rounds r).1 = .ok n → goal ∈ (searchFrom target goal fuel rounds r).2.atoms := by
  induction fuel generalizing rounds r with
  | zero =>
    intro he
    cases he
  | succ fuel ih =>
    rw [searchFrom]
    split
    · next hg => exact fun _ => holds_iff.1 hg
    · split
      · intro he
        cases he
      · split
        · intro he
          cases he
        · intro he
          cases he
        · exact ih

theorem Coherent.accounts_counted (h : Coherent r) {e : Failure} (he : r.checkConsistent = .error e) :
    r.counted.Accounts e := (h.keeps (keeps_counted r)).accounts_of_checkConsistent he

/-- What a search of a query finds has a derivation, which certifies the target. -/
theorem Coherent.derive_of_found (h : Coherent r) {target : Atom} {goal : Coded.Atom} {u : SymbolTable}
    {fuel rounds n : Nat} (he : target.encode r.symbols = .ok (goal, u))
    (hrun : searchFrom target goal fuel rounds (r.asked u) = (.ok n, s)) :
    ∃ d, s.derive goal = .ok (some d) ∧ s.Certifies target d := by
  obtain ⟨-, -, hreads⟩ := Atom.encode_reads he
  have hmem := mem_of_searchFrom (n := n) (by rw [hrun])
  have hs := search_searchFrom target goal fuel rounds (r.asked u)
  rw [hrun] at hmem hs
  have hcoh := h.search (.trans (.rest (keeps_asked he)) hs)
  exact hcoh.derive_eq_ok hmem (hreads.mono hs.table List.prefix_rfl)

/-- A query fails with an account of it, or succeeds with a proof of its target. -/
theorem Coherent.query_cases (h : Coherent r) (target : Atom) :
    (∃ e s, r.query target = (.error e, s) ∧ s.Accounts e) ∨
    ∃ d s, r.query target = (.ok (some d), s) ∧ s.Certifies target d := by
  have hq := r.queried target
  generalize r.query target = q at hq ⊢
  cases hq with
  | inconsistent hc => exact .inl ⟨_, _, rfl, h.accounts_counted hc⟩
  | notGround _ _ => exact .inl ⟨_, _, rfl, trivial⟩
  | @failed goal u e s _ he hrun =>
    have hfail : (searchFrom target goal (r.roundBudget + 1) 0 (r.asked u)).1 = .error e := by rw [hrun]
    have hacc := (h.keeps (keeps_asked he)).accounts_searchFrom hfail
    rw [hrun] at hacc
    exact .inl ⟨e, s, rfl, hacc⟩
  | @found goal u n s out text _ he hrun hout =>
    obtain ⟨d, hd, hcert⟩ := h.derive_of_found he hrun
    exact .inr ⟨d, s.write .info text, by rw [← hout, hd], hcert⟩

theorem accounts_addFact {target : Atom} {e : Failure} (he : (r.addFact target).1 = .error e) : s.Accounts e := by
  cases hg : target.isGround with
  | false =>
    rw [addFact, Atom.encode_of_not_ground hg] at he
    exact Except.error.inj he ▸ trivial
  | true =>
    obtain ⟨c, u, henc⟩ := Atom.exists_encode hg r.symbols
    rw [addFact, henc] at he
    simp only at he
    split at he <;> cases he

theorem accounts_addRule {rule : Rule} {e : Failure} (he : (r.addRule rule).1 = .error e) : s.Accounts e := by
  unfold addRule at he
  split at he
  · split at he
    · exact accounts_addFact he
    · exact Except.error.inj he ▸ trivial
  · simp only at he
    split at he <;> cases he

/-- All derivations that come of a reasoner certify what they are for. -/
structure Attested (r : Reasoner) : Prop where
  /-- Every fact that is held has a derivation, and it proves the fact. -/
  facts : ∀ x, r.contains x → ∃ d, r.derivationOf x = .ok (some d) ∧ r.Certifies x d
  /-- What a query succeeds with proves its target. -/
  queries : ∀ target d? s, r.query target = (.ok d?, s) → ∃ d, d? = some d ∧ s.Certifies target d
  /-- Whatever fails accounts for it: a contradiction is proved, and no derivation is missing or broken. -/
  failures : ∀ q e, (r.answer q).1.failure? = some e → (r.perform q).Accounts e

theorem attested_after (settings : Settings) (journal : Journal) (rules : List Rule) (qs : List Request) :
    Attested (after settings journal rules qs) := by
  have h := coherent_after settings journal rules qs
  generalize after settings journal rules qs = r at h ⊢
  refine ⟨fun x hx => h.exists_derivationOf hx, fun target d? s hq => ?_, fun q e he => ?_⟩
  · obtain ⟨e, t, hfail, -⟩ | ⟨d, t, hok, hcert⟩ := h.query_cases target
    · rw [hfail] at hq
      cases hq
    · rw [hok] at hq
      obtain ⟨hd, rfl⟩ := Prod.mk.inj hq
      exact ⟨d, (Except.ok.inj hd).symm, hcert⟩
  · cases q with
    | addRule rule => exact accounts_addRule (Reply.failure?_added.1 he)
    | addFact a => exact accounts_addFact (Reply.failure?_added.1 he)
    | query target =>
      obtain ⟨e', t, hfail, hacc⟩ | ⟨d, t, hok, -⟩ := h.query_cases target
      · simp only [answer, hfail, Reply.failure?_proved] at he
        rw [← Except.error.inj he, perform, answer, hfail]
        exact hacc
      · simp only [answer, hok, Reply.failure?_proved] at he
        cases he
    | saturate => exact h.accounts_saturate (Reply.failure?_counted.1 he)
    | round => exact h.accounts_round (Reply.failure?_counted.1 he)

/-- Two links, the later one first, and a rule that joins two links. -/
def joined : List Rule :=
  [.fact ⟨"link", [.const "b", .const "c"]⟩, .fact ⟨"link", [.const "a", .const "b"]⟩,
    ⟨[⟨"link", [.var "X", .var "Y"]⟩, ⟨"link", [.var "Y", .var "Z"]⟩], ⟨"reach", [.var "X", .var "Z"]⟩⟩]

/-- Four facts, the last three of which take a round each. -/
def chain : List Rule :=
  [.fact ⟨"a", []⟩, ⟨[⟨"a", []⟩], ⟨"b", []⟩⟩, ⟨[⟨"b", []⟩], ⟨"c", []⟩⟩, ⟨[⟨"c", []⟩], ⟨"d", []⟩⟩]

def exhaustive : Settings := { exhaustiveMatching := true }

theorem attested_joined : ∃ d,
    (after { exhaustiveMatching := true } .empty joined [.saturate]).derivationOf ⟨"reach", [.const "a", .const "c"]⟩ =
      .ok (some d) ∧
    (after { exhaustiveMatching := true } .empty joined [.saturate]).Certifies ⟨"reach", [.const "a", .const "c"]⟩ d :=
  (attested_after { exhaustiveMatching := true } .empty joined [.saturate]).facts _ (by rfl)

end Reasoner

end Entail
