import Entail.Proofs.Growth

/-!
# Rule sets up to renaming

* `Rule.encode_eq_iff` : two rules encoded one after the other have one clause exactly if they are variants;
* `firstVariants` : the rules of a list without the variants of earlier ones; each rule of the list has a variant among
  them (`exists_firstVariants_iff`);
* `Collects history r` : the rules of `r` read as the first variants of the rules that its history adds
  (`Collects.perform`);
* `MergesVariants` : what a reasoner makes of a rule that is added, by the rules that were added before
  (`mergesVariants_after`).
-/

namespace Entail

/-- Encoding tells two rules apart exactly if they are no variants, whatever is interned between them. -/
theorem Rule.encode_eq_iff {t u : SymbolTable} (ht : t.Distinct) (hu : u.Distinct) {x : Rule}
    (h : (x.encode t).2.Extends u) (y : Rule) :
    (x.encode t).1.toClause = (y.encode u).1.toClause ↔ x.IsVariant y := by
  obtain ⟨-, -, hx⟩ := x.encode_reads ht
  obtain ⟨hext, hd, hy⟩ := y.encode_reads hu
  exact (hx.mono (h.trans hext)).clause_eq_iff hd hy (x.encode_names t) (y.encode_names u)

/-! ## First variants -/

/-- The rules of a list that are no variants of earlier ones, in order. -/
def firstVariants : List Rule → List Rule
  | [] => []
  | x :: xs => x :: (firstVariants xs).filter fun y => ¬ x.IsVariant y

section
variable {xs : List Rule} {x y : Rule}

theorem firstVariants_concat : firstVariants (xs ++ [y]) =
    if ∃ x ∈ xs, x.IsVariant y then firstVariants xs else firstVariants xs ++ [y] := by
  induction xs with
  | nil => simp [firstVariants]
  | cons x xs ih =>
    rw [List.cons_append, firstVariants, ih, firstVariants]
    by_cases hx : x.IsVariant y
    · have hany : ∃ z ∈ x :: xs, z.IsVariant y := ⟨x, List.mem_cons_self, hx⟩
      rw [if_pos hany]
      split_ifs
      · rfl
      · simp [hx]
    · have hiff : (∃ z ∈ x :: xs, z.IsVariant y) ↔ ∃ z ∈ xs, z.IsVariant y := by simp [hx]
      simp only [hiff]
      split_ifs
      · rfl
      · simp [hx]

/-- A rule is a variant of one of the first variants exactly if it is one of some rule of the list. -/
theorem exists_firstVariants_iff : (∃ x ∈ firstVariants xs, x.IsVariant y) ↔ ∃ x ∈ xs, x.IsVariant y := by
  induction xs with
  | nil => rfl
  | cons x xs ih =>
    by_cases hx : x.IsVariant y
    · exact iff_of_true ⟨x, List.mem_cons_self, hx⟩ ⟨x, List.mem_cons_self, hx⟩
    · -- a variant of `y` is none of `x`, so it is not dropped
      have hdrop : ∀ z, z.IsVariant y → ¬ x.IsVariant z := fun z hz hxz => hx (hxz.trans hz)
      simp only [firstVariants, List.mem_cons, exists_eq_or_imp, hx, false_or, ← ih, List.mem_filter,
        decide_eq_true_eq]
      constructor
      · rintro ⟨z, ⟨hz, -⟩, hzy⟩
        exact ⟨z, hz, hzy⟩
      · rintro ⟨z, hz, hzy⟩
        exact ⟨z, ⟨hz, hdrop z hzy⟩, hzy⟩

end

/-! ## Rules that are added -/

/-- The rule with premises that a request adds. -/
def Request.rule? : Request → Option Rule
  | .addRule rule => if rule.isAxiom then none else some rule
  | _ => none

/-- The rules with premises that a history adds, in order and with repeats. -/
def addedRules (history : List Request) : List Rule := history.filterMap Request.rule?

variable {history : List Request} {rule : Rule}

theorem Request.rule?_eq_some_iff {q : Request} : q.rule? = some rule ↔ q.Adds rule := by
  cases q with
  | addRule x =>
    rw [adds_addRule, rule?]
    cases x.isAxiom <;> simp [eq_comm]
  | _ => simp [rule?, Adds]

theorem mem_addedRules : rule ∈ addedRules history ↔ Added history rule := by
  simp only [addedRules, List.mem_filterMap, Request.rule?_eq_some_iff, Added]

namespace Reasoner

variable {r s : Reasoner}

/-- The rules are the first variants of those that the history adds, each with the variables it came with. -/
def Collects (history : List Request) (r : Reasoner) : Prop :=
  List.Forall₂ (fun c x => c.Reads r.symbols x ∧ c.names = x.variableNames) r.rules
    (firstVariants (addedRules history))

theorem Collects.grow (h : Collects history r) (ht : r.symbols.Extends s.symbols) (hr : s.rules = r.rules) :
    Collects history s := by
  rw [Collects, hr]
  exact h.imp fun _ _ hc => ⟨hc.1.mono ht, hc.2⟩

/-- A rule that is added is found among the rules exactly if the history has added a variant of it. -/
theorem Collects.exists_clause_iff (h : Collects history r) (hd : r.symbols.Distinct) (rule : Rule) :
    (∃ old ∈ r.rules, old.toClause = (rule.encode r.symbols).1.toClause) ↔
      ∃ old, Added history old ∧ old.IsVariant rule := by
  obtain ⟨hext, hdist, hread⟩ := rule.encode_reads hd
  have hgrown := h.grow (s := { r with symbols := (rule.encode r.symbols).2 }) hext rfl
  rw [Coded.exists_clause_eq_iff hdist hgrown hread (rule.encode_names r.symbols), exists_firstVariants_iff]
  simp only [mem_addedRules]

/-- A rule with a variant among the rules brings no new names. -/
theorem Readable.encode_table (h : Readable r) {old : Coded.Rule} (hold : old ∈ r.rules) {rule : Rule}
    (heq : old.toClause = (rule.encode r.symbols).1.toClause) : (rule.encode r.symbols).2 = r.symbols := by
  obtain ⟨x, hx⟩ := h.rules old hold
  obtain ⟨hext, -, hread⟩ := rule.encode_reads h.distinct
  have hlen : old.names.length = (rule.encode r.symbols).1.names.length := by rw [hx.slots, hread.slots, heq]
  have hrename := hx.rename_alongside hlen
  rw [(hx.mono hext).rename_eq hread heq] at hrename
  exact hrename.encode_table

/-- A rule that is added is one more first variant, or changes nothing. -/
theorem Collects.addRule (h : Collects history r) (hc : Coherent r) (hax : rule.isAxiom = false) :
    Collects (history ++ [.addRule rule]) (r.addRule rule).2 := by
  obtain ⟨hext, -, hread⟩ := rule.encode_reads hc.distinct
  have hgrown := h.grow (s := { r with symbols := (rule.encode r.symbols).2 }) hext rfl
  have hadded : addedRules (history ++ [.addRule rule]) = addedRules history ++ [rule] := by
    simp [addedRules, Request.rule?, hax]
  have hiff := h.exists_clause_iff hc.distinct rule
  simp only [← mem_addedRules] at hiff
  rw [Collects, hadded, firstVariants_concat]
  by_cases hv : ∃ old ∈ r.rules, old.toClause = (rule.encode r.symbols).1.toClause
  · rw [addRule_of_variant hax hv, if_pos (hiff.1 hv)]
    exact hgrown
  · rw [addRule_of_new hax fun old hold heq => hv ⟨old, hold, heq⟩, if_neg (mt hiff.2 hv)]
    exact List.rel_append hgrown (.cons ⟨hread, rule.encode_names r.symbols⟩ .nil)

theorem Collects.perform (h : Collects history r) (hc : Coherent r) (q : Request) :
    Collects (history ++ [q]) (r.perform q) := by
  have hskip : q.rule? = none → (r.perform q).rules = r.rules → Collects (history ++ [q]) (r.perform q) := by
    intro hq hrules
    have hadded : addedRules (history ++ [q]) = addedRules history := by simp [addedRules, hq]
    rw [Collects, hadded]
    exact h.grow (hc.grows_perform q).table hrules
  cases q with
  | addFact a => exact hskip rfl (addFact_same r a).2.1
  | addRule rule =>
    cases hax : rule.isAxiom with
    | true => exact hskip (if_pos hax) (rules_addRule_of_isAxiom hax)
    | false => exact h.addRule hc hax
  | query target => exact hskip rfl (search_query r target).rules
  | saturate => exact hskip rfl (search_saturate r).rules
  | round => exact hskip rfl (search_round r).rules

/-- A rule is new exactly if the history has added no variant of it. -/
theorem Collects.addRule_isNew_iff (h : Collects history r) (hd : r.symbols.Distinct) (hp : rule.premises ≠ []) :
    ∃ isNew, (r.addRule rule).1 = .ok isNew ∧ (isNew = true ↔ ∀ old, Added history old → ¬ old.IsVariant rule) := by
  obtain ⟨isNew, hout, hiff⟩ := addRule_isNew (r := r) (List.isEmpty_eq_false_iff.2 hp : rule.isAxiom = false)
  refine ⟨isNew, hout, hiff.trans ?_⟩
  rw [h.exists_clause_iff hd]
  simp

/-- A rule that is not new leaves nothing behind, no name either. -/
theorem Readable.addRule_eq_self (h : Readable r) (hp : rule.premises ≠ []) (hold : (r.addRule rule).1 = .ok false) :
    (r.addRule rule).2 = r := by
  have hax : rule.isAxiom = false := List.isEmpty_eq_false_iff.2 hp
  obtain ⟨isNew, hout, hiff⟩ := addRule_isNew (r := r) hax
  obtain rfl : isNew = false := Except.ok.inj (hout.symm.trans hold)
  have hv : ∃ old ∈ r.rules, old.toClause = (rule.encode r.symbols).1.toClause := by simpa using hiff
  obtain ⟨old, hmem, heq⟩ := hv
  rw [addRule_of_variant hax ⟨old, hmem, heq⟩, h.encode_table hmem heq]

/-- The rules of a reasoner are the first of each class of variants that its history adds. -/
structure MergesVariants (history : List Request) (r : Reasoner) : Prop where
  /-- Variants are turned into each other by a bijection between their variables. -/
  variants : ∀ x y : Rule, x.IsVariant y ↔
    ∃ ρ, Set.BijOn ρ {v | v ∈ x.variableNames} {v | v ∈ y.variableNames} ∧ x.rename ρ = y
  encoded : ∀ (t u : SymbolTable) (x y : Rule), t.Distinct → u.Distinct → (x.encode t).2.Extends u →
    ((x.encode t).1.toClause = (y.encode u).1.toClause ↔ x.IsVariant y)
  stated : r.statedRules = .ok (firstVariants (addedRules history))
  added : ∀ rule : Rule, rule.premises ≠ [] → ∃ isNew, (r.addRule rule).1 = .ok isNew ∧
    (isNew = true ↔ ∀ old, Added history old → ¬ old.IsVariant rule)
  /-- A rule that is not new leaves nothing behind, no name either. -/
  unchanged : ∀ rule : Rule, rule.premises ≠ [] → (r.addRule rule).1 = .ok false → (r.addRule rule).2 = r

theorem Collects.mergesVariants (h : Collects history r) (hc : Coherent r) : MergesVariants history r where
  variants _ _ := Rule.isVariant_iff_bijOn
  encoded _ _ _ y ht hu hext := Rule.encode_eq_iff ht hu hext y
  stated := mapM_eq_ok (h.imp fun _ _ hx => nameRule_eq_ok hx.1)
  added _ hp := h.addRule_isNew_iff hc.distinct hp
  unchanged _ hp hold := hc.addRule_eq_self hp hold

theorem mergesVariants_after {settings : Settings} {journal : Journal} {rules : List Rule} (qs : List Request)
    (h : (create settings journal rules).1 = .ok ()) :
    MergesVariants (rules.map .addRule ++ qs) (after settings journal rules qs) := by
  have hcollects : Coherent (after settings journal rules qs) ∧
      Collects (rules.map .addRule ++ qs) (after settings journal rules qs) := by
    refine after_induction (P := fun history r => Coherent r ∧ Collects history r) qs h ?_ ?_ ?_
    · exact ⟨coherent_empty settings journal, .nil⟩
    · exact fun _ _ _ hk h => ⟨h.1.keeps hk, h.2.grow hk.table hk.rules⟩
    · exact fun _ _ q h => ⟨h.1.perform q, h.2.perform h.1 q⟩
  exact hcollects.2.mergesVariants hcollects.1

/-- Two links make one of them. -/
def joining : Rule :=
  ⟨[⟨"link", [.var "X", .var "Y"]⟩, ⟨"link", [.var "Y", .var "Z"]⟩], ⟨"link", [.var "X", .var "Z"]⟩⟩

/-- The same with other variables, two of them exchanged. -/
def joiningAlike : Rule :=
  ⟨[⟨"link", [.var "Y", .var "X"]⟩, ⟨"link", [.var "X", .var "link"]⟩], ⟨"link", [.var "Y", .var "link"]⟩⟩

/-- A special case. -/
def joiningLoop : Rule :=
  ⟨[⟨"link", [.var "X", .var "X"]⟩, ⟨"link", [.var "X", .var "Z"]⟩], ⟨"link", [.var "X", .var "Z"]⟩⟩

theorem mergesVariants_joining :
    (after {} .empty [joining, joiningAlike] [.saturate, .addRule joiningLoop, .addRule joining]).statedRules =
      .ok [joining, joiningLoop] := by
  have hcreate : (create {} .empty [joining, joiningAlike]).1 = .ok () := rfl
  have h := mergesVariants_after [.saturate, .addRule joiningLoop, .addRule joining] hcreate
  exact h.stated

end Reasoner

end Entail
