import Entail.Proofs.Documents
import Entail.Proofs.Yaml.Characters
import Entail.Proofs.Yaml.Unread
import Entail.Proofs.Yaml.Values
import Entail.Source
import Mathlib.Data.String.Basic

/-!
# Rules written to files and read back

* `Files.entry_write` : a file that was written has the text that was written;
* `Record.parse_yaml`, `Record.parse_json` : the rules that are read of what was written, in block style and as JSON;
* `Source.IsKept path s` : whether a name is kept by files of that name;
* `Source.loadRecords_write_iff` : rules are read back as they were written exactly if all their names are kept.
-/

namespace Entail

/-! ## Line breaks -/

/-- A text without carriage returns stays as it is. -/
theorem Text.unifyBreaks_eq_self {s : List Char} (h : ∀ c ∈ s, c ≠ '\r') : unifyBreaks s = s := by
  induction s with
  | nil => rfl
  | cons c s ih =>
    obtain ⟨hc, hs⟩ := List.forall_mem_cons.1 h
    rw [unifyBreaks.eq_3 c s (fun _ hc' _ => hc hc') fun hc' => hc hc', ih hs]

/-! ## Files -/

namespace Files

variable {f f' : Files} {path text : String}

/-- Entries of other names stay. -/
theorem lookup_filter {names key : List String} (h : key ≠ names) (es : List (List String × Entry)) :
    (es.filter fun x => x.1 ≠ names).lookup key = es.lookup key := by
  induction es with
  | nil => rfl
  | cons e es ih =>
    by_cases he : e.1 = names
    · have hne : (key == e.1) = false := by simpa [he] using h
      rw [List.filter_cons_of_neg (by simpa using he), List.lookup_cons, hne, ih]
    · rw [List.filter_cons_of_pos (by simpa using he), List.lookup_cons, List.lookup_cons, ih]

/-- Only what stands at the place itself is another entry. -/
theorem entryAt?_put {names : List String} (hnames : names ≠ []) (e : Entry) (place : Place) :
    (f.put names e).entryAt? place = if place = some names then some e else f.entryAt? place := by
  match place with
  | none => rfl
  | some [] => simp [entryAt?, Ne.symm hnames]
  | some (n :: ns) =>
    change ((names, e) :: f.entries.filter fun x => x.1 ≠ names).lookup (n :: ns) = _
    rw [List.lookup_cons]
    by_cases h : n :: ns = names
    · simp [h]
    · simp only [beq_eq_false_iff_ne.2 h, lookup_filter h, Option.some.injEq, h, if_false]
      rfl

/-- What lies on the way to a place stays, so that the way stays the same. -/
theorem foldlM_enter {f' : Files} (h : ∀ p, f.entryAt? p = some .directory → f'.entryAt? p = some .directory)
    (ns : List String) {p q : Place} (hq : ns.foldlM f.enter p = .ok q) : ns.foldlM f'.enter p = .ok q := by
  induction ns generalizing p with
  | nil => exact hq
  | cons n ns ih =>
    rw [List.foldlM_cons] at hq ⊢
    have henter : ∀ p', f.enter p n = .ok p' → f'.enter p n = .ok p' := by
      intro p' hp'
      unfold enter at hp' ⊢
      split at hp'
      · cases hp'
      · cases hp'
      next hdirectory =>
        rw [h p hdirectory]
        exact hp'
    cases hp : f.enter p n with
    | error e =>
      rw [hp] at hq
      cases hq
    | ok p' =>
      rw [hp] at hq
      rw [henter p' hp]
      exact ih hq

/-- A file that was written has the text that was written. -/
theorem entry_write (h : f.write path text = .ok f') : f'.entry path = .ok (.file (some text)) := by
  rw [write] at h
  split at h
  · cases h
  split at h
  · cases h
  next hempty hlong =>
  cases hplace : (pathNames path).foldlM f.enter (origin path) with
  | error e =>
    rw [hplace] at h
    cases h
  | ok place =>
    rw [hplace] at h
    simp only [bind, Except.bind] at h
    split at h
    · cases h
    · cases h
    next names hentry =>
      split_ifs at h with hdirectory
      obtain rfl := Except.ok.inj h
      have hnames : names ≠ [] := by
        rintro rfl
        exact hentry rfl
      have hkept : ∀ p, f.entryAt? p = some .directory →
          (f.put names (.file (some text))).entryAt? p = some .directory := by
        intro p hp
        rw [entryAt?_put hnames, if_neg ?_, hp]
        rintro rfl
        exact hentry hp
      rw [entry, if_neg hempty, if_neg hlong, foldlM_enter hkept _ hplace]
      simp [bind, Except.bind, entryAt?_put hnames, hdirectory]

end Files

/-! ## Rules of what is written -/

namespace Record

open Document Yaml

variable {rs : List Rule} {text : String}

/-- Nodes that hold the document of rules are read as these rules. -/
theorem parse_of_shows {g : Graph} (hg : Graph.ofText text = .ok (0, g)) (h : g.Shows 0 (document rs)) :
    parse text = .ok rs := by
  obtain ⟨ks, hread⟩ := Graph.read_shows (regular_document rs) h
  rw [parse, Yaml.read, hg]
  simp only [hread, rulesIn_document]

/-! ## In block style -/

theorem shallowItems_map {α : Type} {f : α → Document} {n : Nat} (h : ∀ a, (f a).Shallow n) (as : List α) :
    ShallowItems n (as.map f) := by
  induction as with
  | nil => trivial
  | cons a as ih => exact ⟨h a, ih⟩

theorem shallow_termDocument (t : Term) : (termDocument t).Shallow 4 := by
  cases t <;> simp [termDocument, Shallow, ShallowFields, step, foldColumn]

theorem shallow_atomDocument (a : Atom) : (atomDocument a).Shallow 2 := by
  refine ⟨?_, shallowItems_map shallow_termDocument a.args, trivial⟩
  simp [Shallow, step, foldColumn]

/-- No text of the document of rules stands deep. -/
theorem shallow_documentFields (rs : List Rule) : ShallowFields 0 (documentFields rs) := by
  refine ⟨shallowItems_map (fun r => ?_) rs, trivial⟩
  unfold ruleDocument
  split_ifs
  · exact ⟨shallow_atomDocument r.conclusion, trivial⟩
  · exact ⟨shallowItems_map shallow_atomDocument r.premises, shallow_atomDocument r.conclusion, trivial⟩

def IsKeptInBlock (s : String) : Prop := ¬ ('\u0085' ∈ s.toList ∧ allowsSingle s.toList = true)

/-- What is written in block style is read as rules with other names, which are the same where names are kept. -/
theorem parse_yaml (rs : List Rule) : ∃ f : String → String, (∀ s, f s = s ↔ IsKeptInBlock s) ∧
    parse (yaml (documentFields rs)) = .ok (rs.map (Rule.mapNames f)) := by
  choose r hread hsame using exists_readsAs
  let f : String → String := fun s => String.ofList (r s.toList)
  have hf : ∀ s, f s = s ↔ IsKeptInBlock s := by
    intro s
    rw [IsKeptInBlock, ← hsame, String.ofList_eq]
  have hstyled : ReadsStyled fun s => .scalar (f s) (allowsPlain s.toList) := fun s => ⟨_, hread s.toList, rfl⟩
  have htokens : Reader.TokensOf (fun s => .scalar (f s) (allowsPlain s.toList)) f := by
    intro s
    refine ⟨_, rfl, fun hplain => ?_⟩
    have hstyle : Style.ofText s.toList ≠ .single := by simp [Style.ofText, hplain]
    change Kind.ofPlain (String.ofList (r s.toList)) = .str
    rw [(hread s.toList).same hstyle]
    exact (allowsPlain_cases hplain).1
  have hregular : (document rs).Regular := regular_document rs
  obtain ⟨g, hg, hshows⟩ := Reader.onlyDocument_block htokens hregular trivial
  have hnames : (document rs).mapTexts f = document (rs.map (Rule.mapNames f)) :=
    mapTexts_document ((hf "var").2 (by simp [IsKeptInBlock])) ((hf "const").2 (by simp [IsKeptInBlock])) rs
  refine ⟨f, hf, parse_of_shows (g := g) ?_ (hnames ▸ hshows)⟩
  rw [Graph.ofText, yaml, String.toList_ofList, tokens_fields hstyled hregular (shallow_documentFields rs)
    fun c hc => (admissible_fields hregular.2.2 c hc).1]
  exact hg

/-! ## As JSON -/

structure IsKeptInFlow (s : String) : Prop where
  readable : IsReadable s
  smooth : Json.Smooth s.toList

/-- A text is read as it is exactly if it is smooth. -/
theorem exists_readsWhole : ∃ f : String → String, ReadsWhole f ∧
    ∀ s, Json.isWhole s.toList = true → (f s = s ↔ Json.Smooth s.toList) := by
  have hread : ∀ s : String, ∃ r : String, Json.isWhole s.toList = true →
      Quotes '"' (s.toList.flatMap Json.textChar) (some r.toList) ∧ (r = s ↔ Json.Smooth s.toList) := by
    intro s
    rcases Json.quotes_text s.toList with ⟨-, r, hr, hshrinks⟩ | ⟨hwhole, -⟩
    · refine ⟨String.ofList r, fun _ => ⟨by rwa [String.toList_ofList], ?_⟩⟩
      rw [String.ofList_eq, hshrinks.same]
    · exact ⟨s, fun h => absurd h (by rw [hwhole]; decide)⟩
  choose f hf using hread
  exact ⟨f, fun s hs => (hf s hs).1, fun s hs => (hf s hs).2⟩

/-- The words that say what a term is are kept. -/
theorem isKeptInFlow_word {s : String} (hs : s ∈ ["var", "const"]) : IsKeptInFlow s := by
  have hwords : ∀ s ∈ ["var", "const"], Json.isWhole s.toList = true ∧ (shown s).all isAdmissible = true ∧
      '\u0085' ∉ s.toList ∧ s.toList.IsChain fun a b =>
        ¬ (a = ' ' ∧ Json.isRawBreak b = true) ∧ ¬ (Json.isRawBreak a = true ∧ b = ' ') := by decide
  obtain ⟨hwhole, hadmissible, hnel, hchain⟩ := hwords s hs
  exact ⟨⟨hwhole, List.all_eq_true.1 hadmissible⟩, hnel, hchain⟩

/-- What is written as JSON is read as the rules that were written exactly if all names are kept. -/
theorem parse_json (rs : List Rule) :
    parse (document rs).json = .ok rs ↔ ∀ r ∈ rs, ∀ s ∈ r.names, IsKeptInFlow s := by
  obtain ⟨f, hf, hsame⟩ := exists_readsWhole
  have hregular := regular_document rs
  have hvar : IsKeptInFlow "var" := isKeptInFlow_word (by decide)
  have hconst : IsKeptInFlow "const" := isKeptInFlow_word (by decide)
  have hreadable := forall_texts_document hvar.readable hconst.readable rs
  rcases tokens_json hf hregular with ⟨hall, htokens⟩ | ⟨hnot, hfault⟩
  · rw [hreadable] at hall
    have hnames : (document rs).mapTexts f = document (rs.map (Rule.mapNames f)) :=
      mapTexts_document ((hsame _ hvar.readable.whole).2 hvar.smooth)
        ((hsame _ hconst.readable.whole).2 hconst.smooth) rs
    obtain ⟨g, hg, hshows⟩ := Reader.onlyDocument_flow (regular_mapTexts (f := f) _ hregular)
    have hparse : parse (document rs).json = .ok (rs.map (Rule.mapNames f)) := by
      refine parse_of_shows (g := g) ?_ (hnames ▸ hshows)
      rw [Graph.ofText, json, String.toList_ofList, htokens]
      exact hg
    rw [hparse, Except.ok.injEq, map_eq_self_iff]
    refine forall₂_congr fun r hr => Rule.mapNames_eq_self_iff.trans (forall₂_congr fun s hs => ?_)
    rw [hsame s (hall r hr s hs).whole]
    exact ⟨fun hsmooth => ⟨hall r hr s hs, hsmooth⟩, IsKeptInFlow.smooth⟩
  · refine iff_of_false (fun h => ?_) fun h => hnot (hreadable.2 fun r hr s hs => (h r hr s hs).readable)
    have hgraph : ∀ x, Graph.ofText (document rs).json ≠ .ok x := by
      intro x hx
      rw [Graph.ofText, json, String.toList_ofList] at hx
      have hnone : (tokens (jsonChars 0 (document rs))).fault = none := Reader.fault_of_onlyDocument hx
      rw [hnone] at hfault
      cases hfault
    rw [parse, Yaml.read] at h
    split at h
    · cases h
    next v hv =>
      split at hv
      next x hx => exact hgraph _ hx
      · cases hv

end Record

/-! ## Files of rules -/

namespace Source

open Document
open Record (IsKeptInBlock IsKeptInFlow)

variable {f f' : Files} {path : String} {rules : List Rule}

/-- Whether a name is kept by files of some name. -/
def IsKept (path s : String) : Prop := if path.endsWith ".json" then IsKeptInFlow s else IsKeptInBlock s

/-- No carriage return is written. -/
theorem written_ne_return (path : String) (rules : List Rule) : ∀ c ∈ (written path rules).toList, c ≠ '\r' := by
  have hregular := Record.regular_document rules
  unfold written
  split_ifs
  · rw [json, String.toList_ofList]
    have hmarks : HasMarks (· ≠ '\r') := by
      rintro c (rfl | ⟨hlow, -⟩)
      · decide
      · rintro rfl
        exact absurd hlow (by decide)
    refine (forall_jsonChars hmarks _ hregular 0).2 fun s _ c hc => ?_
    rintro rfl
    exact absurd (List.mem_filter.1 hc).2 (by decide)
  · rw [yaml, String.toList_ofList]
    exact fun c hc => (admissible_fields hregular.2.2 c hc).2

/-- What is written to a file is read. -/
theorem loadRecords_of_write (h : write f path rules = .ok f') :
    loadRecords f' path = (Record.parse (written path rules)).mapError .document := by
  unfold write at h
  split_ifs at h with hnul
  cases hwrite : f.write path (written path rules) with
  | error e =>
    rw [hwrite] at h
    cases h
  | ok files =>
    rw [hwrite] at h
    obtain rfl := Except.ok.inj h
    have hraw : rawText files path = .ok (written path rules) := by
      rw [rawText, if_neg hnul, Files.entry_write hwrite]
    rw [loadRecords, readText, hraw]
    simp only [Except.map, Text.unifyBreaks_eq_self (written_ne_return path rules), String.ofList_toList]

theorem parse_written (path : String) (rules : List Rule) :
    Record.parse (written path rules) = .ok rules ↔ ∀ r ∈ rules, ∀ s ∈ r.names, IsKept path s := by
  unfold written IsKept
  split_ifs
  · exact Record.parse_json rules
  · obtain ⟨g, hg, hparse⟩ := Record.parse_yaml rules
    rw [hparse, Except.ok.injEq, map_eq_self_iff]
    exact forall₂_congr fun r _ => Rule.mapNames_eq_self_iff.trans (forall₂_congr fun s _ => hg s)

/-- Rules are read back as they were written exactly if their text is read as these rules. -/
theorem loadRecords_eq_ok_iff (h : write f path rules = .ok f') :
    loadRecords f' path = .ok rules ↔ Record.parse (written path rules) = .ok rules := by
  rw [loadRecords_of_write h]
  cases Record.parse (written path rules) <;> simp [Except.mapError]

/-- Rules are read back from a file as they were written exactly if all their names are kept. -/
theorem loadRecords_write_iff (h : write f path rules = .ok f') :
    loadRecords f' path = .ok rules ↔ ∀ r ∈ rules, ∀ s ∈ r.names, IsKept path s :=
  (loadRecords_eq_ok_iff h).trans (parse_written path rules)

def lone (name : String) : List Rule := [⟨[], ⟨name, []⟩⟩]

theorem endsWith_json : "x.json".endsWith ".json" = true ∧ "x.yaml".endsWith ".json" = false := by decide +kernel

theorem write_empty (rules : List Rule) :
    (∃ f', write .empty "x.yaml" rules = .ok f') ∧ ∃ f', write .empty "x.json" rules = .ok f' := by
  have hnul : "x.yaml".contains '\x00' = false ∧ "x.json".contains '\x00' = false := by simp
  have horigin : Files.origin "x.yaml" = some [] ∧ Files.origin "x.json" = some [] := by simp [Files.origin]
  refine ⟨⟨Files.empty.put ["x.yaml"] (.file (some (written "x.yaml" rules))), ?_⟩,
    ⟨Files.empty.put ["x.json"] (.file (some (written "x.json" rules))), ?_⟩⟩
  · rw [write, hnul.1, Files.write, horigin.1]
    rfl
  · rw [write, hnul.2, Files.write, horigin.2]
    rfl

theorem forall_names_lone {P : String → Prop} (name : String) : (∀ r ∈ lone name, ∀ s ∈ r.names, P s) ↔ P name := by
  simp [lone, Rule.names, Atom.names]

/-- A word for a truth value is a name like any other. -/
theorem loadRecords_write_word : ∃ f', write .empty "x.yaml" (lone "yes") = .ok f' ∧
    loadRecords f' "x.yaml" = .ok (lone "yes") := by
  obtain ⟨f', h⟩ := (write_empty (lone "yes")).1
  refine ⟨f', h, (loadRecords_write_iff h).2 ((forall_names_lone "yes").2 ?_)⟩
  rw [IsKept, endsWith_json.2, if_neg Bool.false_ne_true, IsKeptInBlock]
  decide

/-- Not all rules are read back: NEL is folded between apostrophes, and DEL must not stand in a document. -/
theorem loadRecords_write_loses :
    (¬ ∀ f f' rules, write f "x.yaml" rules = .ok f' → loadRecords f' "x.yaml" = .ok rules) ∧
      ¬ ∀ f f' rules, write f "x.json" rules = .ok f' → loadRecords f' "x.json" = .ok rules := by
  refine ⟨fun hall => ?_, fun hall => ?_⟩
  · obtain ⟨f', h⟩ := (write_empty (lone "a\u0085b")).1
    have hload := hall _ f' _ h
    rw [loadRecords_eq_ok_iff h, parse_written, forall_names_lone, IsKept, endsWith_json.2, if_neg Bool.false_ne_true,
      IsKeptInBlock] at hload
    exact hload (by decide)
  · obtain ⟨f', h⟩ := (write_empty (lone "\x7f")).2
    have hload := hall _ f' _ h
    rw [loadRecords_eq_ok_iff h, parse_written, forall_names_lone, IsKept, if_pos endsWith_json.1] at hload
    exact absurd (hload.readable.admissible '\x7f' (by decide)) (by decide)

end Source

end Entail
