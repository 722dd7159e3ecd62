import Entail.Record
import Entail.Text.Numeral
import Entail.Yaml.Cursor
import Entail.Yaml.Kind
import Mathlib.Data.List.Nodup

/-!
# The shape of documents of rules

* `Document.Regular` : the names of fields are words, which differ within a mapping, and the items of lists are
  mappings;
* `Document.texts`, `Document.mapTexts` : the texts of a document, and the document with other texts;
* `Record.regular_document`, `Record.mapTexts_document` : the document of rules is regular, and with other texts it is
  the document of the rules with other names.
-/

namespace Entail

/-! ## Names of rules -/

def Term.mapName (f : String → String) : Term → Term
  | .var n => .var (f n)
  | .const n => .const (f n)

namespace Atom

def mapNames (f : String → String) (a : Atom) : Atom := ⟨f a.predicate, a.args.map (Term.mapName f)⟩

def names (a : Atom) : List String := a.predicate :: a.args.map Term.name

end Atom

namespace Rule

def mapNames (f : String → String) (r : Rule) : Rule := ⟨r.premises.map (Atom.mapNames f), r.conclusion.mapNames f⟩

def names (r : Rule) : List String := r.premises.flatMap Atom.names ++ r.conclusion.names

end Rule

theorem map_eq_self_iff {α : Type} {f : α → α} {xs : List α} : xs.map f = xs ↔ ∀ x ∈ xs, f x = x := by
  conv_lhs => rhs; rw [← List.map_id xs]
  exact List.map_inj_left

theorem Term.mapName_eq_self_iff {f : String → String} {t : Term} : t.mapName f = t ↔ f t.name = t.name := by
  cases t <;> simp [mapName, name]

theorem Atom.mapNames_eq_self_iff {f : String → String} {a : Atom} : a.mapNames f = a ↔ ∀ s ∈ a.names, f s = s := by
  obtain ⟨p, args⟩ := a
  simp [mapNames, names, map_eq_self_iff, Term.mapName_eq_self_iff]

theorem Rule.mapNames_eq_self_iff {f : String → String} {r : Rule} : r.mapNames f = r ↔ ∀ s ∈ r.names, f s = s := by
  obtain ⟨premises, conclusion⟩ := r
  simp only [mapNames, names, Rule.mk.injEq, map_eq_self_iff, Atom.mapNames_eq_self_iff, List.mem_append,
    List.mem_flatMap]
  constructor
  · rintro ⟨hpremises, hconclusion⟩ s (⟨a, ha, hs⟩ | hs)
    · exact hpremises a ha s hs
    · exact hconclusion s hs
  · intro h
    exact ⟨fun a ha s hs => h s (.inl ⟨a, ha, hs⟩), fun s hs => h s (.inr hs)⟩

namespace Document

/-! ## Regular documents -/

/-- A short word of letters that no other kind of scalar is written as. -/
structure IsName (k : String) : Prop where
  ne : k.toList ≠ []
  letters : ∀ c ∈ k.toList, 'a' ≤ c ∧ c ≤ 'z'
  short : k.toList.length < 1000
  kind : Yaml.Kind.ofPlain k = .str

theorem ne_of_letter {c x : Char} (h : 'a' ≤ c ∧ c ≤ 'z') (hx : ¬ ('a' ≤ x ∧ x ≤ 'z')) : c ≠ x := by
  rintro rfl
  exact hx h

theorem isGap_of_letter {c : Char} (h : 'a' ≤ c ∧ c ≤ 'z') : Yaml.isGap c = false := by
  have hne : ∀ x, ¬ ('a' ≤ x ∧ x ≤ 'z') → c ≠ x := fun x => ne_of_letter h
  simp [Yaml.isGap, Yaml.isSpaceOrEnd, Yaml.isBreakOrEnd, Yaml.isBreak, Yaml.endMark, hne '\n' (by decide),
    hne '\r' (by decide), hne '\t' (by decide), hne '\u0085' (by decide), hne '\u2028' (by decide),
    hne '\u2029' (by decide), hne '\x00' (by decide), hne ' ' (by decide)]

/-- A class of characters that line feeds and the characters of ASCII that can be seen belong to. -/
def HasMarks (P : Char → Prop) : Prop := ∀ c, c = '\n' ∨ ' ' ≤ c ∧ c ≤ '~' → P c

theorem forall_hexadecimal {P : Char → Prop} (hP : HasMarks P) (upper : Bool) (width n : Nat) :
    ∀ c ∈ Text.hexadecimal upper width n, P c := by
  induction width generalizing n with
  | zero => exact nofun
  | succ width ih =>
    have hdigit : ∀ upper, ∀ k < 16, ' ' ≤ Text.hexDigit upper k ∧ Text.hexDigit upper k ≤ '~' := by decide
    rw [Text.hexadecimal, List.forall_mem_append]
    exact ⟨ih _, List.forall_mem_singleton.2 (hP _ (.inr (hdigit _ _ (Nat.mod_lt _ (by decide)))))⟩

theorem IsName.forall_mem {P : Char → Prop} (hP : HasMarks P) {k : String} (hk : IsName k) : ∀ c ∈ k.toList, P c := by
  intro c hc
  obtain ⟨hlow, hhigh⟩ := hk.letters c hc
  exact hP c (.inr ⟨Char.le_trans (by decide) hlow, Char.le_trans hhigh (by decide)⟩)

def IsMapping : Document → Prop
  | .fields _ => True
  | _ => False

mutual

/-- Fields have names, which differ, and items of lists are mappings with fields. -/
def Regular : Document → Prop
  | .text _ => True
  | .list items => RegularItems items
  | .fields entries => entries ≠ [] ∧ (entries.map Prod.fst).Nodup ∧ RegularFields entries

def RegularItems : List Document → Prop
  | [] => True
  | d :: rest => d.IsMapping ∧ d.Regular ∧ RegularItems rest

def RegularFields : List (String × Document) → Prop
  | [] => True
  | (k, d) :: rest => IsName k ∧ d.Regular ∧ RegularFields rest

end

mutual

def texts : Document → List String
  | .text s => [s]
  | .list items => itemTexts items
  | .fields entries => fieldTexts entries

def itemTexts : List Document → List String
  | [] => []
  | d :: rest => d.texts ++ itemTexts rest

def fieldTexts : List (String × Document) → List String
  | [] => []
  | (_, d) :: rest => d.texts ++ fieldTexts rest

end

mutual

def mapTexts (f : String → String) : Document → Document
  | .text s => .text (f s)
  | .list items => .list (mapItems f items)
  | .fields entries => .fields (mapFields f entries)

def mapItems (f : String → String) : List Document → List Document
  | [] => []
  | d :: rest => d.mapTexts f :: mapItems f rest

def mapFields (f : String → String) : List (String × Document) → List (String × Document)
  | [] => []
  | (k, d) :: rest => (k, d.mapTexts f) :: mapFields f rest

end

variable {f : String → String}

theorem mapItems_eq_map (ds : List Document) : mapItems f ds = ds.map (mapTexts f) := by
  induction ds with
  | nil => rfl
  | cons d ds ih => rw [mapItems, ih, List.map_cons]

theorem map_fst_mapFields (es : List (String × Document)) : (mapFields f es).map Prod.fst = es.map Prod.fst := by
  induction es with
  | nil => rfl
  | cons e es ih => simp [mapFields, ih]

theorem itemTexts_eq_flatMap (ds : List Document) : itemTexts ds = ds.flatMap texts := by
  induction ds with
  | nil => rfl
  | cons d ds ih => rw [itemTexts, ih, List.flatMap_cons]

theorem regularItems_of_forall {ds : List Document} (h : ∀ d ∈ ds, d.IsMapping ∧ d.Regular) : RegularItems ds := by
  induction ds with
  | nil => trivial
  | cons d ds ih => exact ⟨(h d (by simp)).1, (h d (by simp)).2, ih fun e he => h e (by simp [he])⟩

mutual

/-- Other texts do not change the shape. -/
theorem regular_mapTexts : ∀ d : Document, d.Regular → (d.mapTexts f).Regular
  | .text _, _ => trivial
  | .list items, h => regularItems_mapItems items h
  | .fields entries, h => by
    obtain ⟨hne, hnames, hentries⟩ := h
    refine ⟨?_, by rwa [map_fst_mapFields], regularFields_mapFields entries hentries⟩
    intro hnil
    have hlength := congrArg List.length (map_fst_mapFields (f := f) entries)
    rw [hnil] at hlength
    exact hne (by simpa using hlength.symm)

theorem regularItems_mapItems : ∀ ds : List Document, RegularItems ds → RegularItems (mapItems f ds)
  | [], _ => trivial
  | d :: rest, h => by
    refine ⟨?_, regular_mapTexts d h.2.1, regularItems_mapItems rest h.2.2⟩
    cases d with
    | fields entries => trivial
    | text s => exact h.1
    | list items => exact h.1

theorem regularFields_mapFields : ∀ es : List (String × Document), RegularFields es → RegularFields (mapFields f es)
  | [], _ => trivial
  | (_, d) :: rest, h => ⟨h.1, regular_mapTexts d h.2.1, regularFields_mapFields rest h.2.2⟩

end

end Document

/-! ## Documents of rules -/

namespace Record

open Document

variable {f : String → String}

def fieldNames : List String :=
  ["rules", "fact", "premises", "conclusion", "predicate", "args", "type", "name", "value"]

theorem isName {k : String} (h : k ∈ fieldNames) : IsName k := by
  have hall : ∀ k ∈ fieldNames, k.toList ≠ [] ∧ (k.toList.all fun c => 'a' ≤ c ∧ c ≤ 'z') ∧ k.toList.length < 1000 ∧
      Yaml.Kind.ofPlain k = .str := by decide
  obtain ⟨hne, hletters, hshort, hkind⟩ := hall k h
  exact ⟨hne, fun c hc => of_decide_eq_true (List.all_eq_true.1 hletters c hc), hshort, hkind⟩

theorem regular_termDocument (t : Term) : (termDocument t).IsMapping ∧ (termDocument t).Regular := by
  cases t with
  | var n => exact ⟨trivial, by simp, by simp, isName (by decide), trivial, isName (by decide), trivial, trivial⟩
  | const n => exact ⟨trivial, by simp, by simp, isName (by decide), trivial, isName (by decide), trivial, trivial⟩

theorem regular_atomDocument (a : Atom) : (atomDocument a).IsMapping ∧ (atomDocument a).Regular := by
  have hargs : RegularItems (a.args.map termDocument) :=
    regularItems_of_forall (List.forall_mem_map.2 fun t _ => regular_termDocument t)
  exact ⟨trivial, by simp, by simp, isName (by decide), trivial, isName (by decide), hargs, trivial⟩

theorem regular_ruleDocument (r : Rule) : (ruleDocument r).IsMapping ∧ (ruleDocument r).Regular := by
  have hconclusion := (regular_atomDocument r.conclusion).2
  have hpremises : RegularItems (r.premises.map atomDocument) :=
    regularItems_of_forall (List.forall_mem_map.2 fun a _ => regular_atomDocument a)
  unfold ruleDocument
  split
  · exact ⟨trivial, by simp, by simp, isName (by decide), hconclusion, trivial⟩
  · exact ⟨trivial, by simp, by simp, isName (by decide), hpremises, isName (by decide), hconclusion, trivial⟩

theorem regular_document (rs : List Rule) : (document rs).Regular :=
  ⟨by simp [documentFields], by simp [documentFields], isName (by decide),
    regularItems_of_forall (List.forall_mem_map.2 fun r _ => regular_ruleDocument r), trivial⟩

/-! ## Their texts -/

theorem forall_texts_termDocument {P : String → Prop} (hvar : P "var") (hconst : P "const") (t : Term) :
    (∀ s ∈ (termDocument t).texts, P s) ↔ P t.name := by
  cases t <;> simp [termDocument, texts, fieldTexts, Term.name, hvar, hconst]

theorem forall_texts_atomDocument {P : String → Prop} (hvar : P "var") (hconst : P "const") (a : Atom) :
    (∀ s ∈ (atomDocument a).texts, P s) ↔ ∀ s ∈ a.names, P s := by
  have hterm := forall_texts_termDocument hvar hconst
  simp only [atomDocument, texts, fieldTexts, itemTexts_eq_flatMap, List.flatMap_map, Atom.names, List.mem_cons,
    List.mem_append, List.mem_flatMap, List.mem_map, List.not_mem_nil, or_false]
  constructor
  · rintro h s (rfl | ⟨t, ht, rfl⟩)
    · exact h _ (.inl rfl)
    · exact (hterm t).1 fun s hs => h s (.inr ⟨t, ht, hs⟩)
  · rintro h s (rfl | ⟨t, ht, hs⟩)
    · exact h _ (.inl rfl)
    · exact (hterm t).2 (h _ (.inr ⟨t, ht, rfl⟩)) s hs

theorem forall_texts_ruleDocument {P : String → Prop} (hvar : P "var") (hconst : P "const") (r : Rule) :
    (∀ s ∈ (ruleDocument r).texts, P s) ↔ ∀ s ∈ r.names, P s := by
  have hatom := forall_texts_atomDocument hvar hconst
  obtain ⟨premises, conclusion⟩ := r
  cases premises with
  | nil =>
    refine Iff.trans ?_ (hatom conclusion)
    simp [ruleDocument, Rule.isAxiom, texts, fieldTexts]
  | cons a as =>
    simp only [ruleDocument, Rule.isAxiom, List.isEmpty_cons, Bool.false_eq_true, if_false, texts, fieldTexts,
      itemTexts_eq_flatMap, List.flatMap_map, Rule.names, List.append_nil, List.forall_mem_append, hatom]
    refine and_congr_left fun _ => ?_
    simp only [List.forall_mem_flatMap, hatom]

theorem forall_texts_document {P : String → Prop} (hvar : P "var") (hconst : P "const") (rs : List Rule) :
    (∀ s ∈ (document rs).texts, P s) ↔ ∀ r ∈ rs, ∀ s ∈ r.names, P s := by
  simp only [document, documentFields, texts, fieldTexts, itemTexts_eq_flatMap, List.flatMap_map, List.append_nil,
    List.forall_mem_flatMap, forall_texts_ruleDocument hvar hconst]

theorem mapTexts_termDocument (hvar : f "var" = "var") (hconst : f "const" = "const") (t : Term) :
    (termDocument t).mapTexts f = termDocument (t.mapName f) := by
  cases t <;> simp [termDocument, mapTexts, mapFields, Term.mapName, hvar, hconst]

theorem mapTexts_atomDocument (hvar : f "var" = "var") (hconst : f "const" = "const") (a : Atom) :
    (atomDocument a).mapTexts f = atomDocument (a.mapNames f) := by
  simp [atomDocument, mapTexts, mapFields, mapItems_eq_map, Atom.mapNames, Function.comp_def,
    mapTexts_termDocument hvar hconst]

theorem mapTexts_ruleDocument (hvar : f "var" = "var") (hconst : f "const" = "const") (r : Rule) :
    (ruleDocument r).mapTexts f = ruleDocument (r.mapNames f) := by
  obtain ⟨premises, conclusion⟩ := r
  cases premises <;>
    simp [ruleDocument, Rule.isAxiom, Rule.mapNames, mapTexts, mapFields, mapItems_eq_map, Function.comp_def,
      mapTexts_atomDocument hvar hconst]

theorem mapTexts_document (hvar : f "var" = "var") (hconst : f "const" = "const") (rs : List Rule) :
    (document rs).mapTexts f = document (rs.map (Rule.mapNames f)) := by
  simp [document, documentFields, mapTexts, mapFields, mapItems_eq_map, Function.comp_def,
    mapTexts_ruleDocument hvar hconst]

end Record

end Entail
