import Entail.Proofs.Rounds
import Entail.Reasoner.Query

/-!
# Requests and what they leave behind

* `Request`, `Reasoner.answer`, `Reasoner.performAll` : what may be asked of a reasoner, one request after the other;
* `Reasoner.after` : the reasoner that is created with some rules and then takes requests, refused ones included;
* `Keeps r s` : `s` has the facts and rules of `r`, and its names; counts and journal may differ;
* `Search r s` : `s` comes of `r` by rounds, each begun without a contradiction; this is all that queries and
  saturation do (`search_query`, `search_saturate`, `search_round`);
* `Queried`, `query_of_found`, `addRule_of_new` and their like : what a query and what stating facts and rules comes to;
* `create_induction` : what is so of every reasoner that is created.
-/

namespace Entail

inductive Request where
  | addRule (rule : Rule)
  | addFact (a : Atom)
  | query (target : Atom)
  | saturate
  | round

inductive Reply where
  | added (x : Except Failure Bool)
  | proved (x : Except Failure (Option Derivation))
  | counted (x : Except Failure Nat)

def Reply.failure? : Reply → Option Failure
  | .added (.error e) => some e
  | .proved (.error e) => some e
  | .counted (.error e) => some e
  | _ => none

namespace Reply

@[simp] theorem failure?_added {x : Except Failure Bool} {e : Failure} :
    (added x).failure? = some e ↔ x = .error e := by
  cases x <;> simp [failure?]

@[simp] theorem failure?_proved {x : Except Failure (Option Derivation)} {e : Failure} :
    (proved x).failure? = some e ↔ x = .error e := by
  cases x <;> simp [failure?]

@[simp] theorem failure?_counted {x : Except Failure Nat} {e : Failure} :
    (counted x).failure? = some e ↔ x = .error e := by
  cases x <;> simp [failure?]

end Reply

namespace Reasoner

def answer (r : Reasoner) : Request → Reply × Reasoner
  | .addRule rule => (.added (r.addRule rule).1, (r.addRule rule).2)
  | .addFact a => (.added (r.addFact a).1, (r.addFact a).2)
  | .query target => (.proved (r.query target).1, (r.query target).2)
  | .saturate => (.counted r.saturate.1, r.saturate.2)
  | .round => (.counted r.round.1, r.round.2)

def perform (r : Reasoner) (q : Request) : Reasoner := (r.answer q).2

def performAll (r : Reasoner) (qs : List Request) : Reasoner := qs.foldl perform r

/-- The reasoner that is created with rules and then takes requests. If a rule is refused, it is the one left behind
by those before. -/
def after (settings : Settings) (journal : Journal) (rules : List Rule) (qs : List Request) : Reasoner :=
  (create settings journal rules).2.performAll qs

variable {r s t : Reasoner}

/-! ## Keeping facts and rules -/

/-- Facts and rules are the same, and names are kept. -/
structure Keeps (r s : Reasoner) : Prop where
  settings : s.settings = r.settings
  known : s.known = r.known
  supports : s.supports = r.supports
  rules : s.rules = r.rules
  generation : s.generation = r.generation
  bottom : s.bottom = r.bottom
  contradiction : s.contradiction = r.contradiction
  table : r.symbols.Extends s.symbols
  distinct : r.symbols.Distinct → s.symbols.Distinct

theorem Keeps.refl (r : Reasoner) : Keeps r r := ⟨rfl, rfl, rfl, rfl, rfl, rfl, rfl, .refl _, id⟩

theorem Keeps.trans (h₁ : Keeps r s) (h₂ : Keeps s t) : Keeps r t where
  settings := h₂.settings.trans h₁.settings
  known := h₂.known.trans h₁.known
  supports := h₂.supports.trans h₁.supports
  rules := h₂.rules.trans h₁.rules
  generation := h₂.generation.trans h₁.generation
  bottom := h₂.bottom.trans h₁.bottom
  contradiction := h₂.contradiction.trans h₁.contradiction
  table := h₁.table.trans h₂.table
  distinct := h₂.distinct ∘ h₁.distinct

theorem Keeps.atoms (h : Keeps r s) : s.atoms = r.atoms := by rw [Reasoner.atoms, h.known, Reasoner.atoms]

theorem keeps_journal (r : Reasoner) (journal : Journal) : Keeps r { r with journal := journal } :=
  ⟨rfl, rfl, rfl, rfl, rfl, rfl, rfl, .refl _, id⟩

theorem keeps_write (r : Reasoner) (level : Level) (text : String) : Keeps r (r.write level text) := keeps_journal r _

theorem keeps_tally (r : Reasoner) (tally : Tally) : Keeps r { r with tally := tally } :=
  ⟨rfl, rfl, rfl, rfl, rfl, rfl, rfl, .refl _, id⟩

theorem keeps_symbols (r : Reasoner) {u : SymbolTable} (h : r.symbols.Extends u)
    (hd : r.symbols.Distinct → u.Distinct) : Keeps r { r with symbols := u } :=
  ⟨rfl, rfl, rfl, rfl, rfl, rfl, rfl, h, hd⟩

theorem keeps_checkCeiling (r : Reasoner) (c : Ceiling) (limit? : Option Limit) (count rounds : Nat)
    (line : String → String) : Keeps r (r.checkCeiling c limit? count rounds line).2 := by
  unfold checkCeiling
  split
  · exact .refl r
  · split
    · exact keeps_write r _ _
    · exact .refl r
    · exact .refl r

theorem keeps_checkCeilings (r : Reasoner) (rounds : Nat) : Keeps r (r.checkCeilings rounds).2 := by
  have h₁ := keeps_checkCeiling r .round r.settings.maxRounds rounds rounds
    fun limit => "Round ceiling " ++ limit ++ " reached"
  unfold checkCeilings
  split
  · next h => rw [h] at h₁; exact h₁
  · next h => rw [h] at h₁; exact h₁.trans (keeps_checkCeiling _ _ _ _ _ _)

/-- If no ceiling is reached nothing changes. -/
theorem checkCeiling_ok {c : Ceiling} {limit? : Option Limit} {count rounds : Nat} {line : String → String}
    (h : r.checkCeiling c limit? count rounds line = (.ok (), s)) : s = r := by
  unfold checkCeiling at h
  split at h
  · exact (Prod.mk.inj h).2.symm
  · split at h
    · cases (Prod.mk.inj h).1
    · exact (Prod.mk.inj h).2.symm
    · cases (Prod.mk.inj h).1

theorem checkCeilings_ok {rounds : Nat} (h : r.checkCeilings rounds = (.ok (), s)) : s = r := by
  unfold checkCeilings at h
  split at h
  · cases (Prod.mk.inj h).1
  · next h₁ => rw [checkCeiling_ok h, checkCeiling_ok h₁]

theorem advance_eq (h : r.contradiction = none) :
    r.advance.2 = { r.stepped with tally := r.advance.2.tally, journal := r.advance.2.journal } := by
  simp only [advance, commit_eq _ _ h, stepped, write, fresh, List.length_eq_zero_iff]
  congr 1

theorem keeps_advance (h : r.contradiction = none) : Keeps r.stepped r.advance.2 := by
  rw [advance_eq h]
  exact ⟨rfl, rfl, rfl, rfl, rfl, rfl, rfl, .refl _, id⟩

theorem Keeps.fresh (h : Keeps r s) : s.fresh = r.fresh := by
  simp only [Reasoner.fresh, applications, attempts, selections, h.atoms, h.settings, h.rules, h.bottom]

/-- A round that succeeds was begun without a contradiction, and ends without one. -/
theorem round_eq_ok {n : Nat} (h : r.round = (.ok n, s)) :
    r.contradiction = none ∧ n = r.fresh.length ∧ Keeps r.stepped s ∧ s.contradiction = none := by
  cases hc : r.checkConsistent with
  | error e =>
    rw [round_of_inconsistent hc] at h
    cases h
  | ok _ =>
    have hcon := checkConsistent_eq_ok.1 hc
    rw [round_of_consistent hcon, advance_fst hcon] at h
    cases hafter : r.advance.2.checkConsistent with
    | error e =>
      rw [hafter] at h
      cases h
    | ok _ =>
      rw [hafter] at h
      obtain ⟨hn, rfl⟩ := Prod.mk.inj h
      exact ⟨hcon, (Except.ok.inj hn).symm, keeps_advance hcon, checkConsistent_eq_ok.1 hafter⟩

/-! ## Searching -/

/-- Rounds begun without a contradiction. -/
inductive Search : Reasoner → Reasoner → Prop
  | rest {r s : Reasoner} (h : Keeps r s) : Search r s
  | round {r s t : Reasoner} (h : Search r s) (hs : s.contradiction = none) (ht : Keeps s.stepped t) : Search r t

theorem Search.refl (r : Reasoner) : Search r r := .rest (.refl r)

theorem Search.keeps (h : Search r s) (hk : Keeps s t) : Search r t := by
  cases h with
  | rest h => exact .rest (h.trans hk)
  | round h hs ht => exact .round h hs (ht.trans hk)

theorem Search.trans (h₁ : Search r s) (h₂ : Search s t) : Search r t := by
  induction h₂ with
  | rest h => exact h₁.keeps h
  | round _ hs ht ih => exact .round ih hs ht

theorem Search.settings (h : Search r s) : s.settings = r.settings := by
  induction h with
  | rest hk => exact hk.settings
  | round _ _ ht ih => exact ht.settings.trans ((stepped_frame _).settings.trans ih)

theorem Search.rules (h : Search r s) : s.rules = r.rules := by
  induction h with
  | rest hk => exact hk.rules
  | round _ _ ht ih => exact ht.rules.trans ((stepped_frame _).rules.trans ih)

/-- A search keeps all names. -/
theorem Search.table (h : Search r s) : r.symbols.Extends s.symbols := by
  induction h with
  | rest hk => exact hk.table
  | @round s t _ _ ht ih => exact ih.trans (s.stepped_frame.symbols ▸ ht.table)

theorem search_round (r : Reasoner) : Search r r.round.2 := by
  cases h : r.contradiction with
  | none =>
    rw [round_of_consistent h]
    exact .round (.refl r) h (keeps_advance h)
  | some a =>
    cases hc : r.checkConsistent with
    | error e => rw [round_of_inconsistent hc]; exact .refl r
    | ok _ => rw [checkConsistent_eq_ok.1 hc] at h; cases h

theorem search_saturateFrom (fuel rounds : Nat) (r : Reasoner) : Search r (saturateFrom fuel rounds r).2 := by
  induction fuel generalizing rounds r with
  | zero => exact .refl r
  | succ fuel ih =>
    have hc := keeps_checkCeilings r rounds
    rw [saturateFrom]
    split
    · next h => rw [h] at hc; exact .rest hc
    · next s h =>
      rw [h] at hc
      have hr := search_round s
      split
      · next h' => rw [h'] at hr; exact (Search.rest hc).trans hr
      · next h' => rw [h'] at hr; exact (Search.rest hc).trans hr
      · next h' => rw [h'] at hr; exact ((Search.rest hc).trans hr).trans (ih _ _)

theorem search_saturate (r : Reasoner) : Search r r.saturate.2 := by
  have h := search_saturateFrom (r.roundBudget + 1) 0 r
  unfold saturate
  split
  · next h' => rw [h'] at h; exact h.keeps (keeps_write _ _ _)
  · next h' => rw [h'] at h; exact h

theorem keeps_writeAborted (r : Reasoner) (target : Atom) (e : Failure) : Keeps r (r.writeAborted target e) := by
  unfold writeAborted
  split
  · exact keeps_write _ _ _
  · exact .refl r

theorem search_searchFrom (target : Atom) (goal : Coded.Atom) (fuel rounds : Nat) (r : Reasoner) :
    Search r (searchFrom target goal fuel rounds r).2 := by
  induction fuel generalizing rounds r with
  | zero => exact .refl r
  | succ fuel ih =>
    have hc := keeps_checkCeilings r rounds
    rw [searchFrom]
    split
    · exact .refl r
    · split
      · next h => rw [h] at hc; exact .rest hc
      · next s h =>
        rw [h] at hc
        have hr := search_round s
        split
        · next h' => rw [h'] at hr; exact ((Search.rest hc).trans hr).keeps (keeps_writeAborted _ _ _)
        · next h' => rw [h'] at hr; exact ((Search.rest hc).trans hr).keeps (keeps_write _ _ _)
        · next h' => rw [h'] at hr; exact ((Search.rest hc).trans hr).trans (ih _ _)

/-! ## Queries -/

def counted (r : Reasoner) : Reasoner := { r with tally := { r.tally with queries := r.tally.queries + 1 } }

/-- The reasoner that a query begins its rounds with, its target's names interned. -/
def asked (r : Reasoner) (u : SymbolTable) : Reasoner := { r.counted with symbols := u }

section
variable {target : Atom} {goal : Coded.Atom} {u : SymbolTable} {e : Failure}

theorem query_eq (r : Reasoner) (target : Atom) :
    r.query target =
      match r.checkConsistent with
      | .error e => (.error e, r.counted)
      | .ok () =>
        match target.encode r.symbols with
        | .error a => (.error (.notGround a), r.counted)
        | .ok (goal, u) =>
          match searchFrom target goal (r.roundBudget + 1) 0 (r.asked u) with
          | (.error e, s) => (.error e, s)
          | (.ok n, s) =>
            (s.derive goal, s.write .info ("Query " ++ target.text ++ " proved after " ++ toString n ++ " rounds")) :=
  rfl

theorem query_of_inconsistent (h : r.checkConsistent = .error e) : r.query target = (.error e, r.counted) := by
  rw [query_eq, h]

theorem query_of_not_ground (h : r.checkConsistent = .ok ()) (hg : target.isGround = false) :
    r.query target = (.error (.notGround target), r.counted) := by
  rw [query_eq, h, Atom.encode_of_not_ground hg]

theorem query_of_failed (h : r.checkConsistent = .ok ()) (he : target.encode r.symbols = .ok (goal, u))
    (hs : searchFrom target goal (r.roundBudget + 1) 0 (r.asked u) = (.error e, s)) :
    r.query target = (.error e, s) := by
  simp only [query_eq, h, he, hs]

theorem query_of_found {n : Nat} (h : r.checkConsistent = .ok ()) (he : target.encode r.symbols = .ok (goal, u))
    (hs : searchFrom target goal (r.roundBudget + 1) 0 (r.asked u) = (.ok n, s)) :
    ∃ text, r.query target = (s.derive goal, s.write .info text) := by
  simp only [query_eq, h, he, hs]
  exact ⟨_, rfl⟩

theorem keeps_counted (r : Reasoner) : Keeps r r.counted := keeps_tally r _

theorem keeps_asked (he : target.encode r.symbols = .ok (goal, u)) : Keeps r (r.asked u) := by
  obtain ⟨hext, hdist, -⟩ := Atom.encode_reads he
  exact (keeps_counted r).trans (keeps_symbols r.counted hext hdist)

inductive Queried (r : Reasoner) (target : Atom) : Except Failure (Option Derivation) × Reasoner → Prop
  | inconsistent {e : Failure} (h : r.checkConsistent = .error e) : Queried r target (.error e, r.counted)
  | notGround (h : r.checkConsistent = .ok ()) (hg : target.isGround = false) :
      Queried r target (.error (.notGround target), r.counted)
  | failed {goal : Coded.Atom} {u : SymbolTable} {e : Failure} {s : Reasoner} (h : r.checkConsistent = .ok ())
      (he : target.encode r.symbols = .ok (goal, u))
      (hrun : searchFrom target goal (r.roundBudget + 1) 0 (r.asked u) = (.error e, s)) : Queried r target (.error e, s)
  | found {goal : Coded.Atom} {u : SymbolTable} {n : Nat} {s : Reasoner} {out : Except Failure (Option Derivation)}
      {text : String} (h : r.checkConsistent = .ok ()) (he : target.encode r.symbols = .ok (goal, u))
      (hrun : searchFrom target goal (r.roundBudget + 1) 0 (r.asked u) = (.ok n, s)) (hd : s.derive goal = out) :
      Queried r target (out, s.write .info text)

theorem queried (r : Reasoner) (target : Atom) : Queried r target (r.query target) := by
  cases hc : r.checkConsistent with
  | error e =>
    rw [query_of_inconsistent hc]
    exact .inconsistent hc
  | ok _ =>
    cases hg : target.isGround with
    | false =>
      rw [query_of_not_ground hc hg]
      exact .notGround hc hg
    | true =>
      obtain ⟨goal, u, he⟩ := Atom.exists_encode hg r.symbols
      cases hrun : searchFrom target goal (r.roundBudget + 1) 0 (r.asked u) with
      | mk out s =>
        cases out with
        | error e =>
          rw [query_of_failed hc he hrun]
          exact .failed hc he hrun
        | ok n =>
          obtain ⟨text, hq⟩ := query_of_found hc he hrun
          rw [hq]
          exact .found hc he hrun rfl

theorem search_query (r : Reasoner) (target : Atom) : Search r (r.query target).2 := by
  have hsearch : ∀ {goal u out s}, target.encode r.symbols = .ok (goal, u) →
      searchFrom target goal (r.roundBudget + 1) 0 (r.asked u) = (out, s) → Search r s := by
    intro goal u out s he hrun
    have hs := search_searchFrom target goal (r.roundBudget + 1) 0 (r.asked u)
    rw [hrun] at hs
    exact (Search.rest (keeps_asked he)).trans hs
  have hq := r.queried target
  generalize r.query target = q at hq
  cases hq with
  | inconsistent _ => exact .rest (keeps_counted r)
  | notGround _ _ => exact .rest (keeps_counted r)
  | failed _ he hrun => exact hsearch he hrun
  | found _ he hrun _ => exact (hsearch he hrun).keeps (keeps_write _ _ _)

end

/-! ## Stating facts and rules -/

theorem addFact_of_encode {a : Atom} {c : Coded.Atom} {u : SymbolTable} (h : a.encode r.symbols = .ok (c, u)) :
    Keeps (insert { r with symbols := u } c .seed).2 (r.addFact a).2 := by
  rw [addFact, h]
  simp only
  split
  · exact keeps_write _ _ _
  · exact .refl _

theorem addFact_of_not_ground {a : Atom} (h : a.isGround = false) : (r.addFact a).2 = r := by
  rw [addFact, Atom.encode_of_not_ground h]

theorem addRule_of_stated {rule : Rule} (h : rule.isAxiom) (hg : rule.conclusion.isGround) :
    r.addRule rule = r.addFact rule.conclusion := by
  rw [addRule, if_pos h, if_pos hg]

theorem addRule_eq_of_refused {rule : Rule} (h : rule.isAxiom) (hg : rule.conclusion.isGround = false) :
    r.addRule rule = (.error (.factNotGround rule.conclusion), r) := by
  rw [addRule, if_pos h, hg]
  rfl

theorem addRule_of_refused {rule : Rule} (h : rule.isAxiom) (hg : rule.conclusion.isGround = false) :
    (r.addRule rule).2 = r :=
  congrArg Prod.snd (addRule_eq_of_refused h hg)

theorem addRule_of_variant {rule : Rule} (h : rule.isAxiom = false)
    (hv : ∃ old ∈ r.rules, old.toClause = (rule.encode r.symbols).1.toClause) :
    (r.addRule rule).2 = { r with symbols := (rule.encode r.symbols).2 } := by
  have hany : (r.rules.any fun old => old.toClause = (rule.encode r.symbols).1.toClause) = true := by simpa using hv
  simp only [addRule, h, hany, Bool.false_eq_true, if_false, if_true]

theorem addRule_of_new {rule : Rule} (h : rule.isAxiom = false)
    (hv : ∀ old ∈ r.rules, old.toClause ≠ (rule.encode r.symbols).1.toClause) :
    (r.addRule rule).2 =
      { r with symbols := (rule.encode r.symbols).2, rules := r.rules ++ [(rule.encode r.symbols).1] } := by
  have hany : (r.rules.any fun old => old.toClause = (rule.encode r.symbols).1.toClause) = false := by simpa using hv
  simp only [addRule, h, hany, Bool.false_eq_true, if_false]

/-- A rule with premises is never refused; it is new if no rule has its clause. -/
theorem addRule_isNew {rule : Rule} (h : rule.isAxiom = false) : ∃ isNew, (r.addRule rule).1 = .ok isNew ∧
    (isNew = true ↔ ¬ ∃ old ∈ r.rules, old.toClause = (rule.encode r.symbols).1.toClause) := by
  refine ⟨!r.rules.any fun old => old.toClause = (rule.encode r.symbols).1.toClause, ?_, by simp⟩
  simp only [addRule, h, Bool.false_eq_true, if_false]
  cases r.rules.any fun old => old.toClause = (rule.encode r.symbols).1.toClause <;> rfl

/-! ## Creation -/

/-- Rules are added up to the first that is refused. -/
theorem addRules_eq_performAll (r : Reasoner) (rules : List Rule) :
    ∃ n, (r.addRules rules).2 = r.performAll ((rules.take n).map .addRule) ∧
      ((r.addRules rules).1 = .ok () → rules.take n = rules) := by
  induction rules generalizing r with
  | nil => exact ⟨0, rfl, fun _ => rfl⟩
  | cons rule rules ih =>
    rw [addRules]
    split
    · next s h =>
      obtain ⟨n, hn, hok⟩ := ih s
      refine ⟨n + 1, ?_, fun h => by rw [List.take_succ_cons, hok h]⟩
      rw [hn, List.take_succ_cons, List.map_cons, performAll, performAll, List.foldl_cons]
      congr 1
      simp only [perform, answer, h]
    · next e s h =>
      refine ⟨1, ?_, fun h => by cases h⟩
      simp only [List.take_succ_cons, List.take_zero, List.map_cons, List.map_nil, performAll, List.foldl_cons,
        List.foldl_nil, perform, answer, h]

theorem create_eq_performAll (settings : Settings) (journal : Journal) (rules : List Rule) :
    ∃ n, Keeps ((empty settings journal).performAll ((rules.take n).map .addRule)) (create settings journal rules).2 ∧
      ((create settings journal rules).1 = .ok () → rules.take n = rules) := by
  obtain ⟨n, hn, hok⟩ := addRules_eq_performAll (empty settings journal) rules
  refine ⟨n, ?_, ?_⟩
  · rw [← hn, create]
    split
    · next h => rw [h]; exact keeps_write _ _ _
    · next h => rw [h]; exact .refl _
  · intro h
    rw [create] at h
    split at h
    · next h' => exact hok (by rw [h'])
    · cases h

/-- What is so of the empty reasoner, and remains so when one of the rules is added, is so once they all are. -/
theorem create_induction {P : Reasoner → Prop} (settings : Settings) (journal : Journal) (rules : List Rule)
    (hempty : P (empty settings journal)) (hkeeps : ∀ r s, Keeps r s → P r → P s)
    (hadd : ∀ r, P r → ∀ rule ∈ rules, P (r.addRule rule).2) : P (create settings journal rules).2 := by
  obtain ⟨n, hk, -⟩ := create_eq_performAll settings journal rules
  refine hkeeps _ _ hk (List.foldlRecOn _ _ hempty fun r hr q hq => ?_)
  obtain ⟨rule, hrule, rfl⟩ := List.mem_map.1 hq
  exact hadd r hr rule (List.mem_of_mem_take hrule)

/-- What is so of the empty reasoner without a history, and remains so with every request, is so of a reasoner with
its history: the rules that it is created with are added first. -/
theorem after_induction {P : List Request → Reasoner → Prop} {settings : Settings} {journal : Journal}
    {rules : List Rule} (qs : List Request) (hok : (create settings journal rules).1 = .ok ())
    (hempty : P [] (empty settings journal)) (hkeeps : ∀ history r s, Keeps r s → P history r → P history s)
    (hperform : ∀ history r q, P history r → P (history ++ [q]) (r.perform q)) :
    P (rules.map .addRule ++ qs) (after settings journal rules qs) := by
  have hall : ∀ qs history r, P history r → P (history ++ qs) (performAll r qs) := by
    intro qs
    induction qs with
    | nil => exact fun history r h => by rwa [List.append_nil]
    | cons q qs ih =>
      intro history r h
      rw [← List.singleton_append, ← List.append_assoc]
      exact ih _ _ (hperform history r q h)
  obtain ⟨n, hk, htake⟩ := create_eq_performAll settings journal rules
  rw [htake hok] at hk
  exact hall qs _ _ (hkeeps _ _ _ hk (hall _ _ _ hempty))

/-! ## What requests leave alone -/

/-- Stating a fact changes neither the settings nor the rules, and no round passes. -/
theorem addFact_same (r : Reasoner) (a : Atom) :
    (r.addFact a).2.settings = r.settings ∧ (r.addFact a).2.rules = r.rules ∧
      (r.addFact a).2.generation = r.generation := by
  cases hg : a.isGround with
  | false =>
    rw [addFact_of_not_ground hg]
    exact ⟨rfl, rfl, rfl⟩
  | true =>
    obtain ⟨c, u, he⟩ := Atom.exists_encode hg r.symbols
    have hk := addFact_of_encode he
    have hf := insert_frame { r with symbols := u } c .seed
    exact ⟨hk.settings.trans hf.settings, hk.rules.trans hf.rules, hk.generation.trans (generation_insert _ _ _)⟩

/-- Stating a conclusion changes no rule. -/
theorem rules_addRule_of_isAxiom {rule : Rule} (hax : rule.isAxiom) : (r.addRule rule).2.rules = r.rules := by
  cases hg : rule.conclusion.isGround with
  | false => rw [addRule_of_refused hax hg]
  | true =>
    rw [addRule_of_stated hax hg]
    exact (addFact_same r _).2.1

theorem settings_perform (r : Reasoner) (q : Request) : (r.perform q).settings = r.settings := by
  cases q with
  | addRule rule =>
    change (r.addRule rule).2.settings = r.settings
    unfold addRule
    split_ifs
    · exact (addFact_same r _).1
    · rfl
    · simp only
      split_ifs <;> rfl
  | addFact a => exact (addFact_same r a).1
  | query target => exact (search_query r target).settings
  | saturate => exact (search_saturate r).settings
  | round => exact (search_round r).settings

theorem settings_performAll (r : Reasoner) (qs : List Request) : (r.performAll qs).settings = r.settings := by
  induction qs generalizing r with
  | nil => rfl
  | cons q qs ih => exact (ih (r.perform q)).trans (settings_perform r q)

/-- A reasoner keeps the settings it is created with. -/
theorem settings_after (settings : Settings) (journal : Journal) (rules : List Rule) (qs : List Request) :
    (after settings journal rules qs).settings = settings := by
  rw [after, settings_performAll]
  exact create_induction (P := fun r => r.settings = settings) settings journal rules rfl
    (fun _ _ hk h => hk.settings.trans h) fun r h rule _ => (settings_perform r (.addRule rule)).trans h

end Reasoner

end Entail
