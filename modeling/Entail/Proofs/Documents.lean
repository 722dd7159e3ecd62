import Entail.Proofs.Coding
import Entail.Record
import Mathlib.Data.Set.List

/-!
# Rules written and read back

* `term_document`, `atom_document`, `rule_document` : reading what was written gives back terms, atoms and rules, names
  of variables included;
* `rules_document` : the document of a list of rules is read as that list;
* `Normal` : the values in which everything is written out, which are those of the documents of rules (`normal_iff`);
* `normalForm_of_rulesIn` : the document of what is read from a value is the value's normal form.
-/

namespace Entail

theorem Document.itemValues_eq_map (ds : List Document) : itemValues ds = ds.map toValue := by
  induction ds with
  | nil => rfl
  | cons d ds ih => rw [itemValues, ih, List.map_cons]

theorem Value.orEmptyList_list (items : List Value) : (Value.list items).orEmptyList = .list items := by
  cases items <;> rfl

namespace Record

variable (ks : Value.Knots) (position : Nat)

/-- A text is a name as it stands. -/
theorem nameOf_str (s : String) : nameOf ks (.str s) = .ok s := by
  rw [nameOf]
  · simp [Value.exceedsDigitLimit, Value.holdsLongInteger, Value.plainIn]
  all_goals simp

theorem term_document (t : Term) : term ks position (termDocument t).toValue = .ok t := by
  cases t with
  | var n => rfl
  | const n => exact congrArg (Except.map Term.const) (nameOf_str ks n)

theorem atom_document (a : Atom) : atom ks position (atomDocument a).toValue = .ok a := by
  have hargs : (Document.itemValues (a.args.map termDocument)).mapM (term ks position) = .ok a.args := by
    refine mapM_eq_ok ?_
    rw [Document.itemValues_eq_map, List.map_map, List.forall₂_map_left_iff, List.forall₂_same]
    exact fun t _ => term_document ks position t
  have hentry : listEntry ks (Document.entryValues [("predicate", .text a.predicate),
      ("args", .list (a.args.map termDocument))]) "args" = .list (Document.itemValues (a.args.map termDocument)) :=
    congrArg ks.opened (Value.orEmptyList_list _)
  have hopened : ks.opened (atomDocument a).toValue = .map (Document.entryValues [("predicate", .text a.predicate),
      ("args", .list (a.args.map termDocument))]) := rfl
  have hpredicate : Value.lookup (Document.entryValues [("predicate", .text a.predicate),
      ("args", .list (a.args.map termDocument))]) "predicate" = .str a.predicate := rfl
  simp only [atom, hopened, hpredicate, hentry, hargs]
  rfl

theorem rule_document (r : Rule) : rule ks position (ruleDocument r).toValue = .ok r := by
  obtain ⟨premises, conclusion⟩ := r
  have hconclusion := atom_document ks position conclusion
  cases premises with
  | nil => exact congrArg (Except.map Rule.fact) hconclusion
  | cons p ps =>
    have hpremises : (Document.itemValues ((p :: ps).map atomDocument)).mapM (atom ks position) = .ok (p :: ps) := by
      refine mapM_eq_ok ?_
      rw [Document.itemValues_eq_map, List.map_map, List.forall₂_map_left_iff, List.forall₂_same]
      exact fun q _ => atom_document ks position q
    change (do
      let premises ← (Document.itemValues ((p :: ps).map atomDocument)).mapM (atom ks position)
      let conclusion ← atom ks position (atomDocument conclusion).toValue
      return (⟨premises, conclusion⟩ : Rule)) = _
    rw [hpremises, hconclusion]
    rfl

theorem rulesFrom_document (rs : List Rule) :
    rulesFrom ks position (Document.itemValues (rs.map ruleDocument)) = .ok rs := by
  induction rs generalizing position with
  | nil => rfl
  | cons r rs ih =>
    rw [List.map_cons, Document.itemValues, rulesFrom, rule_document, ih]
    rfl

/-- What is written as a document is read back, whatever the knots are. -/
theorem rulesIn_document (rs : List Rule) : rulesIn ks (document rs).toValue = .ok rs := by
  change ruleList ks (Value.list (Document.itemValues (rs.map ruleDocument))).orEmptyList = .ok rs
  rw [Value.orEmptyList_list]
  exact rulesFrom_document ks 0 rs

theorem rules_document (rs : List Rule) : rules (document rs).toValue = .ok rs := rulesIn_document #[] rs

/-! ## Normal forms -/

/-- An argument that says what it is. -/
inductive NormalTerm : Value → Prop
  | var (n : String) : NormalTerm (.map [(.str "type", .str "var"), (.str "name", .str n)])
  | const (n : String) : NormalTerm (.map [(.str "type", .str "const"), (.str "value", .str n)])

/-- An atom with a list of arguments, be it empty. -/
inductive NormalAtom : Value → Prop
  | intro (p : String) (args : List Value) (hargs : ∀ v ∈ args, NormalTerm v) :
    NormalAtom (.map [(.str "predicate", .str p), (.str "args", .list args)])

/-- A fact, or a rule that has premises. -/
inductive NormalRecord : Value → Prop
  | fact (c : Value) (hc : NormalAtom c) : NormalRecord (.map [(.str "fact", c)])
  | rule (ps : List Value) (c : Value) (hne : ps ≠ []) (hps : ∀ v ∈ ps, NormalAtom v) (hc : NormalAtom c) :
    NormalRecord (.map [(.str "premises", .list ps), (.str "conclusion", c)])

/-- A mapping that has nothing but a list of records. -/
inductive Normal : Value → Prop
  | intro (records : List Value) (hrecords : ∀ v ∈ records, NormalRecord v) :
    Normal (.map [(.str "rules", .list records)])

/-- Lists of what is written are lists of items each of which is written. -/
theorem exists_itemValues_iff {α : Type} {f : α → Document} {P : Value → Prop}
    (h : ∀ v, P v ↔ ∃ a, (f a).toValue = v) (items : List Value) :
    (∀ v ∈ items, P v) ↔ ∃ as : List α, Document.itemValues (as.map f) = items := by
  have hrange := Set.ext_iff.1 (Set.range_list_map fun a => (f a).toValue) items
  simp only [Set.mem_range, Set.mem_ofPred_eq, ← h] at hrange
  rw [← hrange]
  simp only [Document.itemValues_eq_map, List.map_map, Function.comp_def]

theorem normalTerm_iff (v : Value) : NormalTerm v ↔ ∃ t, (termDocument t).toValue = v := by
  constructor
  · rintro (⟨n⟩ | ⟨n⟩)
    · exact ⟨.var n, rfl⟩
    · exact ⟨.const n, rfl⟩
  · rintro ⟨n | n, rfl⟩
    · exact .var n
    · exact .const n

theorem normalAtom_iff (v : Value) : NormalAtom v ↔ ∃ a, (atomDocument a).toValue = v := by
  constructor
  · rintro ⟨p, args, hargs⟩
    obtain ⟨ts, rfl⟩ := (exists_itemValues_iff normalTerm_iff args).1 hargs
    exact ⟨⟨p, ts⟩, rfl⟩
  · rintro ⟨⟨p, ts⟩, rfl⟩
    exact .intro p _ ((exists_itemValues_iff normalTerm_iff _).2 ⟨ts, rfl⟩)

theorem normalRecord_iff (v : Value) : NormalRecord v ↔ ∃ r, (ruleDocument r).toValue = v := by
  constructor
  · rintro (⟨c, hc⟩ | ⟨ps, c, hne, hps, hc⟩)
    · obtain ⟨a, rfl⟩ := (normalAtom_iff c).1 hc
      exact ⟨.fact a, rfl⟩
    · obtain ⟨a, rfl⟩ := (normalAtom_iff c).1 hc
      obtain ⟨_ | ⟨p, as⟩, rfl⟩ := (exists_itemValues_iff normalAtom_iff ps).1 hps
      · exact absurd rfl hne
      · exact ⟨⟨p :: as, a⟩, rfl⟩
  · -- A rule without premises is written as a fact.
    rintro ⟨⟨_ | ⟨p, as⟩, a⟩, rfl⟩
    · exact .fact _ ((normalAtom_iff _).2 ⟨a, rfl⟩)
    · exact .rule _ _ (List.cons_ne_nil _ _) ((exists_itemValues_iff normalAtom_iff _).2 ⟨p :: as, rfl⟩)
        ((normalAtom_iff _).2 ⟨a, rfl⟩)

theorem normal_iff (v : Value) : Normal v ↔ ∃ rs, (document rs).toValue = v := by
  constructor
  · rintro ⟨records, hrecords⟩
    obtain ⟨rs, rfl⟩ := (exists_itemValues_iff normalRecord_iff records).1 hrecords
    exact ⟨rs, rfl⟩
  · rintro ⟨rs, rfl⟩
    exact .intro _ ((exists_itemValues_iff normalRecord_iff _).2 ⟨rs, rfl⟩)

/-- A value in normal form is the document of what is read from it. -/
theorem normal_iff_of_rulesIn {ks : Value.Knots} {v : Value} {rs : List Rule} (h : rulesIn ks v = .ok rs) :
    Normal v ↔ (document rs).toValue = v := by
  refine ⟨fun hv => ?_, fun hv => (normal_iff v).2 ⟨rs, hv⟩⟩
  obtain ⟨rs', rfl⟩ := (normal_iff v).1 hv
  rw [Except.ok.inj ((rulesIn_document ks rs').symm.trans h)]

/-- Rules are read back from their document. What rules are read from any value, knots or not, their document is in
normal form, is read as these rules, comes back when those are written again, and is the value itself exactly if that
was in normal form already. -/
theorem normalForm_of_rulesIn :
    (∀ rs, rules (document rs).toValue = .ok rs) ∧
    ∀ ks v rs, rulesIn ks v = .ok rs →
      Normal (document rs).toValue ∧
      (∀ ks' rs', rulesIn ks' (document rs).toValue = .ok rs' ↔ rs' = rs) ∧
      (rules (document rs).toValue).map document = .ok (document rs) ∧
      (Normal v ↔ (document rs).toValue = v) := by
  refine ⟨rules_document, fun ks v rs h => ⟨(normal_iff _).2 ⟨rs, rfl⟩, fun ks' rs' => ?_, ?_, normal_iff_of_rulesIn h⟩⟩
  · rw [rulesIn_document, Except.ok.injEq, eq_comm]
  · rw [rules_document]
    rfl

def shorthand : Value :=
  .list [.map [(.str "fact", .map [(.str "predicate", .str "edge"), (.str "args", .list [.str "a", .int 7])])],
    .map [(.str "conclusion", .map [(.str "predicate", .str "path"), (.str "args", .list [.str "X", .bool true])]),
      (.str "premises", .list [.map [(.str "predicate", .str "edge"),
        (.str "args", .list [.str "X", .map [(.str "type", .str "const"), (.str "value", .str "_b")]])]])]]

def shorthandRules : List Rule :=
  [.fact ⟨"edge", [.const "a", .const "7"]⟩,
    ⟨[⟨"edge", [.var "X", .const "_b"]⟩], ⟨"path", [.var "X", .const "true"]⟩⟩]

theorem rules_shorthand : rules shorthand = .ok shorthandRules := by
  decide +kernel

/-- Short forms are read as rules and are not in normal form. -/
theorem normalForm_shorthand : rules shorthand = .ok shorthandRules ∧ Normal (document shorthandRules).toValue ∧
    (document shorthandRules).toValue ≠ shorthand := by
  obtain ⟨hnormal, -, -, hunchanged⟩ := normalForm_of_rulesIn.2 #[] shorthand shorthandRules rules_shorthand
  refine ⟨rules_shorthand, hnormal, fun h => ?_⟩
  cases hunchanged.2 h

end Record

end Entail
