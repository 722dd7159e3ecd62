import Entail.Proofs.Yaml.Nodes
import Entail.Yaml.Reading

/-!
# Values of nodes that hold documents

* `Graph.Form g n` : what stands at a node that holds a document, and at the nodes that it refers to;
* `Reading.Fits g left r` : of every node that was met either all is made already, and then the nodes that it refers to
  are met too, or it is noted or left over, and nothing is made of it yet;
* `Reading.meet_fits`, `Reading.complete_fits`, `Reading.completeAll_fits` : a node, a collection and all collections;
* `Part.tie_shows`, `Graph.read_shows` : the value of a node that holds a document is the value of the document.
-/

namespace Entail.Yaml

/-! ## Nodes that hold documents -/

namespace Graph

variable {g : Graph} {n m : Nat} {d : Document}

def Holds (g : Graph) (n : Nat) : Prop := ∃ d : Document, d.Regular ∧ g.Shows n d

/-- What is made of a node in the end. -/
def partOf (g : Graph) (n : Nat) : Part :=
  match g.contentOf n with
  | .scalar s => .value (.str s) false
  | .list ns => .list ns
  | .map es => .map es

/-- The nodes that a node refers to. -/
def children (g : Graph) (n : Nat) : List Nat :=
  match g.contentOf n with
  | .scalar _ => []
  | .list ns => ns
  | .map es => es.flatMap fun e => [e.1, e.2]

structure HoldsEntry (g : Graph) (n : Nat) (k : String) (e : Nat × Nat) : Prop where
  key_gt : n < e.1
  value_gt : n < e.2
  key : g[e.1]? = some ⟨.str, .scalar k⟩
  value : g.Holds e.2

inductive Form (g : Graph) (n : Nat) : Prop
  | text (s : String) (h : g[n]? = some ⟨.str, .scalar s⟩)
  | list (ns : List Nat) (h : g[n]? = some ⟨.seq, .list ns⟩) (hns : ∀ m ∈ ns, n < m ∧ g.Holds m)
  | fields (ks : List String) (es : List (Nat × Nat)) (h : g[n]? = some ⟨.map, .map es⟩) (hks : ks.Nodup)
      (hes : List.Forall₂ (g.HoldsEntry n) ks es)

theorem kindOf_of_getElem? {node : Node} (h : g[n]? = some node) : g.kindOf n = node.kind := by
  rw [kindOf, h]
  rfl

theorem contentOf_of_getElem? {node : Node} (h : g[n]? = some node) : g.contentOf n = node.content := by
  rw [contentOf, h]
  rfl

theorem holds_of_showsItems {ds : List Document} (hds : Document.RegularItems ds) {ns : List Nat}
    (h : g.ShowsItems n ns ds) : ∀ m ∈ ns, n < m ∧ g.Holds m := by
  induction ds generalizing ns with
  | nil =>
    obtain rfl := h
    exact nofun
  | cons d ds ih =>
    obtain ⟨-, hd, hrest⟩ := hds
    obtain ⟨m, ms, rfl, hm, hshows, hms⟩ := h
    rw [List.forall_mem_cons]
    exact ⟨⟨hm, d, hd, hshows⟩, ih hrest hms⟩

theorem holds_of_showsFields {es : List (String × Document)} (hes : Document.RegularFields es) {ps : List (Nat × Nat)}
    (h : g.ShowsFields n ps es) : List.Forall₂ (g.HoldsEntry n) (es.map Prod.fst) ps := by
  induction es generalizing ps with
  | nil =>
    obtain rfl := h
    exact .nil
  | cons e es ih =>
    obtain ⟨-, hd, hrest⟩ := hes
    obtain ⟨p, ps, rfl, hkey_gt, hvalue_gt, hkey, hshows, hps⟩ := h
    exact .cons ⟨hkey_gt, hvalue_gt, hkey, e.2, hd, hshows⟩ (ih hrest hps)

theorem Holds.form (h : g.Holds n) : g.Form n := by
  obtain ⟨d, hd, h⟩ := h
  cases d with
  | text s => exact .text s h
  | list items =>
    obtain ⟨ns, hn, hns⟩ := h
    exact .list ns hn (holds_of_showsItems hd hns)
  | fields entries =>
    obtain ⟨ps, hn, hps⟩ := h
    exact .fields _ ps hn hd.2.1 (holds_of_showsFields hd.2.2 hps)

theorem Holds.lt_size (h : g.Holds n) : n < g.size := by
  cases h.form with
  | text s h => exact lt_size_of_getElem? h
  | list ns h _ => exact lt_size_of_getElem? h
  | fields ks es h _ _ => exact lt_size_of_getElem? h

theorem holds_text {s : String} (h : g[n]? = some ⟨.str, .scalar s⟩) : g.Holds n := ⟨.text s, trivial, h⟩

/-- A mapping without merged ones stays as it is. -/
theorem flatten_eq_self {es : List (Nat × Nat)} (h : g[n]? = some ⟨.map, .map es⟩)
    (hes : ∀ e ∈ es, g.kindOf e.1 = .str) : g.flatten n = .ok g := by
  have hentries : g.entriesOf n = es := by rw [entriesOf, contentOf_of_getElem? h]
  have hfill : g.fill n (.map es) = g := by
    refine Array.ext_getElem? fun m => ?_
    by_cases hm : m = n
    · rw [hm, getElem?_fill h, h]
    · exact getElem?_fill_of_ne hm _
  have hmerge : (es.any fun e => decide (g.kindOf e.1 = .merge)) = false := by
    refine List.any_eq_false.2 fun e he => ?_
    rw [hes e he]
    decide
  have hkeys : ∀ es' ⊆ es, es'.foldl (fun g e => if kindOf g e.1 = .value then
      g.modify e.1 fun node => { node with kind := .str } else g) g = g := by
    intro es' hes'
    induction es' with
    | nil => rfl
    | cons e es' ih =>
      obtain ⟨he, hrest⟩ := List.cons_subset.1 hes'
      rw [List.foldl_cons, if_neg (by rw [hes e he]; decide)]
      exact ih hrest
  rw [flatten, hentries, hmerge]
  simp only [Bool.false_eq_true, if_false, prepend, hentries, List.nil_append, hfill]
  rw [hkeys es (List.Subset.refl _)]

end Graph

/-! ## Nodes that are met -/

namespace Reading

open Entail.Yaml.Graph

variable {g : Graph} {r r' r'' : Reading} {n m : Nat} {left : List Nat} {p : Part}

theorem part?_setPart (hn : n < r.parts.size) (p : Part) (m : Nat) :
    (r.setPart n p).part? m = if m = n then some p else r.part? m := by
  rw [part?, setPart, Array.getElem?_setIfInBounds]
  by_cases hm : m = n
  · simp [hm, hn]
  · simp [hm, Ne.symm hm, part?]

/-- Nothing is made yet of a node that is noted or left over, and all is made of any other node that was met. -/
structure Fits (g : Graph) (left : List Nat) (r : Reading) : Prop where
  graph : r.graph = g
  size : r.parts.size = g.size
  holds : ∀ m p, r.part? m = some p → g.Holds m
  begun : ∀ m p, r.part? m = some p → emptyPart? (g.kindOf m) = some p ∨ p = g.partOf m
  noted : ∀ m ∈ r.noted, (r.part? m).isSome
  done : ∀ m p, r.part? m = some p → m ∉ r.noted → m ∉ left →
    p = g.partOf m ∧ ∀ c ∈ g.children m, (r.part? c).isSome

/-- What was made of nodes is kept, and only nodes of a class are noted. -/
structure Extends (P : Nat → Prop) (r r' : Reading) : Prop where
  parts : ∀ m p, r.part? m = some p → r'.part? m = some p
  noted : ∀ m ∈ r'.noted, m ∈ r.noted ∨ P m

theorem Extends.refl (P : Nat → Prop) (r : Reading) : Extends P r r := ⟨fun _ _ h => h, fun _ h => .inl h⟩

theorem Extends.trans {P : Nat → Prop} (h : Extends P r r') (h' : Extends P r' r'') : Extends P r r'' where
  parts m p hp := h'.parts m p (h.parts m p hp)
  noted m hm := (h'.noted m hm).elim (h.noted m) .inr

theorem Extends.mono {P Q : Nat → Prop} (h : Extends P r r') (hPQ : ∀ m, P m → Q m) : Extends Q r r' :=
  ⟨h.parts, fun m hm => (h.noted m hm).imp_right (hPQ m)⟩

theorem Extends.isSome {P : Nat → Prop} (h : Extends P r r') (hm : (r.part? m).isSome) : (r'.part? m).isSome := by
  obtain ⟨p, hp⟩ := Option.isSome_iff_exists.1 hm
  rw [h.parts m p hp]
  rfl

/-- A node that is made new. -/
theorem extends_setPart (hn : n < r.parts.size) (hnew : r.part? n = none) (p : Part) (ns : List Nat)
    (hns : ∀ m ∈ ns, m ∈ r.noted ∨ m = n) : Extends (· = n) r { r.setPart n p with noted := ns } where
  parts m q hq := by
    have hm : m ≠ n := by
      rintro rfl
      rw [hnew] at hq
      cases hq
    exact (part?_setPart hn p m).trans ((if_neg hm).trans hq)
  noted := hns

/-- A node is noted with nothing made of it, or all is made of it. -/
theorem Fits.setPart {left' ns : List Nat} (h : Fits g left r) (hn : g.Holds n)
    (hp : emptyPart? (g.kindOf n) = some p ∧ n ∈ ns ∨ p = g.partOf n ∧ ∀ c ∈ g.children n, (r.part? c).isSome)
    (hns : ∀ m ∈ ns, m = n ∨ m ∈ r.noted) (hleft : ∀ m, m ≠ n → m ∉ ns → m ∉ left' → m ∉ r.noted ∧ m ∉ left) :
    Fits g left' { r.setPart n p with noted := ns } := by
  have hpart : ∀ m, part? { r.setPart n p with noted := ns } m = if m = n then some p else r.part? m :=
    part?_setPart (h.size ▸ hn.lt_size) p
  have hsome : ∀ m, m = n ∨ (r.part? m).isSome → (part? { r.setPart n p with noted := ns } m).isSome := by
    intro m hm
    rw [hpart]
    split_ifs with heq
    · rfl
    · exact hm.resolve_left heq
  refine ⟨h.graph, (Array.size_setIfInBounds ..).trans h.size, ?_, ?_, ?_, ?_⟩
  · intro m q hq
    rw [hpart] at hq
    split_ifs at hq with heq
    · exact heq ▸ hn
    · exact h.holds m q hq
  · intro m q hq
    rw [hpart] at hq
    split_ifs at hq with heq
    · obtain rfl := Option.some.inj hq
      exact heq ▸ hp.imp And.left And.left
    · exact h.begun m q hq
  · exact fun m hm => hsome m ((hns m hm).imp_right (h.noted m))
  · intro m q hq hnoted hleft'
    rw [hpart] at hq
    split_ifs at hq with heq
    · obtain rfl := Option.some.inj hq
      subst heq
      obtain ⟨hpart, hchildren⟩ := hp.resolve_left fun hmem => hnoted hmem.2
      exact ⟨hpart, fun c hc => hsome c (.inr (hchildren c hc))⟩
    · obtain ⟨hfirst, hsecond⟩ := hleft m heq hnoted hleft'
      obtain ⟨hpart, hchildren⟩ := h.done m q hq hfirst hsecond
      exact ⟨hpart, fun c hc => hsome c (.inr (hchildren c hc))⟩

theorem scalar_text {s : String} (hn : g[n]? = some ⟨.str, .scalar s⟩) :
    scalar g n .str = .ok (.value (.str s) false) := by
  have hcontent := contentOf_of_getElem? hn
  rw [scalar, textOf, hcontent]
  rfl

/-- A node is met: what was made is kept, and only the node may be noted. -/
structure Meets (g : Graph) (left : List Nat) (n : Nat) (r r' : Reading) : Prop where
  fits : Fits g left r'
  kept : Extends (· = n) r r'
  met : (r'.part? n).isSome

/-- A node that is made new is met. -/
theorem Fits.meets {ns : List Nat} (h : Fits g left r) (hn : g.Holds n) (hnew : r.part? n = none)
    (hns : ∀ m ∈ ns, m = n ∨ m ∈ r.noted) (h' : Fits g left { r.setPart n p with noted := ns }) :
    Meets g left n r { r.setPart n p with noted := ns } where
  fits := h'
  kept := extends_setPart (h.size ▸ hn.lt_size) hnew p ns fun m hm => (hns m hm).symm
  met := by
    change ((r.setPart n p).part? n).isSome
    rw [part?_setPart (h.size ▸ hn.lt_size), if_pos rfl]
    rfl

/-- A text gets its value. -/
theorem meet_text {s : String} (h : Fits g left r) (hn : g[n]? = some ⟨.str, .scalar s⟩) (hnew : r.part? n = none) :
    ∃ r', r.meet n = .ok r' ∧ Meets g left n r r' := by
  have hpart : Part.value (.str s) false = g.partOf n := by rw [partOf, contentOf_of_getElem? hn]
  have hchildren : ∀ c ∈ g.children n, (r.part? c).isSome := by
    rw [children, contentOf_of_getElem? hn]
    exact nofun
  have hfits := h.setPart (holds_text hn) (.inr ⟨hpart, hchildren⟩) (fun _ hm => .inr hm)
    fun _ _ hm hleft => ⟨hm, hleft⟩
  refine ⟨_, ?_, h.meets (holds_text hn) hnew (fun _ hm => .inr hm) hfits⟩
  rw [meet, hnew, h.graph, kindOf_of_getElem? hn]
  simp [emptyPart?, scalar_text hn, Except.map, setPart]

/-- A collection is noted. -/
theorem meet_collection (h : Fits g left r) (hn : g.Holds n) (hp : emptyPart? (g.kindOf n) = some p)
    (hnew : r.part? n = none) : ∃ r', r.meet n = .ok r' ∧ Meets g left n r r' := by
  have hnoted : ∀ m ∈ n :: r.noted, m = n ∨ m ∈ r.noted := fun _ hm => List.mem_cons.1 hm
  have hfits := h.setPart hn (.inl ⟨hp, List.mem_cons_self ..⟩) hnoted fun _ _ hm hleft =>
    ⟨fun hmem => hm (List.mem_cons_of_mem n hmem), hleft⟩
  refine ⟨_, ?_, h.meets hn hnew hnoted hfits⟩
  rw [meet, hnew, h.graph]
  simp only [Option.isSome_none, Bool.false_eq_true, if_false, hp]

/-- A node that holds a document is met. -/
theorem meet_fits (h : Fits g left r) (hn : g.Holds n) : ∃ r', r.meet n = .ok r' ∧ Meets g left n r r' := by
  cases hp : r.part? n with
  | some p => exact ⟨r, by rw [meet, hp]; rfl, h, .refl _ r, by rw [hp]; rfl⟩
  | none =>
    cases hn.form with
    | text s hs => exact meet_text h hs hp
    | list ns hs _ => exact meet_collection h hn (by rw [kindOf_of_getElem? hs]; rfl) hp
    | fields ks es hs _ _ => exact meet_collection h hn (by rw [kindOf_of_getElem? hs]; rfl) hp

/-- Nodes are met one after the other. -/
theorem meetAll_fits {P : Nat → Prop} (ns : List Nat) (h : Fits g left r) (hns : ∀ m ∈ ns, P m ∧ g.Holds m) :
    ∃ r', ns.foldlM meet r = .ok r' ∧ Fits g left r' ∧ Extends P r r' ∧ ∀ m ∈ ns, (r'.part? m).isSome := by
  induction ns generalizing r with
  | nil => exact ⟨r, rfl, h, .refl P r, nofun⟩
  | cons m ns ih =>
    obtain ⟨⟨hm, hholds⟩, hrest⟩ := List.forall_mem_cons.1 hns
    obtain ⟨r₁, hmeet, h₁, hext₁, hsome⟩ := meet_fits h hholds
    obtain ⟨r₂, hfold, h₂, hext₂, hall⟩ := ih h₁ hrest
    refine ⟨r₂, ?_, h₂, (hext₁.mono fun k hk => hk ▸ hm).trans hext₂, List.forall_mem_cons.2 ⟨hext₂.isSome hsome, hall⟩⟩
    rw [List.foldlM_cons, hmeet]
    exact hfold

/-! ## Collections -/

/-- A key that differs from those before comes behind them. -/
theorem putEntry_new {k v : Nat} (acc : List (Nat × Nat)) (hacc : ∀ e ∈ acc, r.sameKey e.1 k = false) :
    r.putEntry acc k v = acc ++ [(k, v)] := by
  induction acc with
  | nil => rfl
  | cons e acc ih =>
    obtain ⟨he, hrest⟩ := List.forall_mem_cons.1 hacc
    rw [putEntry, he, ih hrest]
    rfl

/-- Different texts are different keys. -/
theorem sameKey_texts {s t : String} (hm : r.part? m = some (.value (.str s) false))
    (hn : r.part? n = some (.value (.str t) false)) (hst : s ≠ t) : r.sameKey m n = false := by
  have hne : m ≠ n := by
    rintro rfl
    rw [hm] at hn
    exact hst (by simpa using hn)
  rw [sameKey, hm, hn]
  simp [hne, Value.sameKey, hst]

/-- A key that was met is its text. -/
theorem Fits.part?_text (h : Fits g left r) {s : String} (hn : g[n]? = some ⟨.str, .scalar s⟩)
    (hsome : (r.part? n).isSome) : r.part? n = some (.value (.str s) false) := by
  obtain ⟨p, hp⟩ := Option.isSome_iff_exists.1 hsome
  have hbegun := h.begun n p hp
  rw [kindOf_of_getElem? hn] at hbegun
  rw [hp, hbegun.resolve_left nofun, partOf, contentOf_of_getElem? hn]

def meetEntry (acc : List (Nat × Nat) × Reading) (e : Nat × Nat) : Except ReadFault (List (Nat × Nat) × Reading) := do
  let r ← acc.2.meet e.1
  if r.isCollection e.1 then throw (.form .unhashableKey)
  let r ← r.meet e.2
  return (r.putEntry acc.1 e.1 e.2, r)

/-- The texts of the keys of some entries, none of which is among the names that follow. -/
def KeysApart (r : Reading) (ks : List String) (es : List (Nat × Nat)) : Prop :=
  ∀ e ∈ es, ∃ s ∉ ks, r.part? e.1 = some (.value (.str s) false)

/-- One entry whose name differs from those before. -/
theorem meetEntry_fits (h : Fits g left r) {k : String} {ks : List String} {e : Nat × Nat} (hk : k ∉ ks)
    (he : g.HoldsEntry n k e) {acc : List (Nat × Nat)} (hacc : r.KeysApart (k :: ks) acc) :
    ∃ r', meetEntry (acc, r) e = .ok (acc ++ [e], r') ∧ Fits g left r' ∧ Extends (n < ·) r r' ∧
      r'.KeysApart ks (acc ++ [e]) ∧ (r'.part? e.1).isSome ∧ (r'.part? e.2).isSome := by
  obtain ⟨r₁, hkey, h₁, hext₁, hsome₁⟩ := meet_fits h (holds_text he.key)
  obtain ⟨r₂, hvalue, h₂, hext₂, hsome₂⟩ := meet_fits h₁ he.value
  have htext := h₁.part?_text he.key hsome₁
  have htext₂ := hext₂.parts _ _ htext
  have hext : Extends (n < ·) r r₂ :=
    (hext₁.mono fun m hm => hm ▸ he.key_gt).trans (hext₂.mono fun m hm => hm ▸ he.value_gt)
  have hput : r₂.putEntry acc e.1 e.2 = acc ++ [e] := by
    refine putEntry_new acc fun e' he' => ?_
    obtain ⟨s, hs, hpart⟩ := hacc e' he'
    exact sameKey_texts (hext.parts _ _ hpart) htext₂ fun heq => hs (heq ▸ List.mem_cons_self ..)
  have hfull : r₁.isCollection e.1 = false := by rw [isCollection, htext]
  refine ⟨r₂, ?_, h₂, hext, ?_, hext₂.isSome hsome₁, hsome₂⟩
  · simp [meetEntry, hkey, hfull, hvalue, hput, bind, Except.bind, pure, Except.pure]
  · intro e' he'
    rcases List.mem_append.1 he' with he' | he'
    · obtain ⟨s, hs, hpart⟩ := hacc e' he'
      exact ⟨s, fun hmem => hs (List.mem_cons_of_mem k hmem), hext.parts _ _ hpart⟩
    · obtain rfl := List.mem_singleton.1 he'
      exact ⟨k, hk, htext₂⟩

/-- Entries with different names are met one after the other. -/
theorem meetEntries_fits (h : Fits g left r) {ks : List String} {es : List (Nat × Nat)} (hks : ks.Nodup)
    (hes : List.Forall₂ (g.HoldsEntry n) ks es) (acc : List (Nat × Nat)) (hacc : r.KeysApart ks acc) :
    ∃ r', es.foldlM meetEntry (acc, r) = .ok (acc ++ es, r') ∧ Fits g left r' ∧ Extends (n < ·) r r' ∧
      ∀ e ∈ es, (r'.part? e.1).isSome ∧ (r'.part? e.2).isSome := by
  induction hes generalizing r acc with
  | nil => exact ⟨r, by rw [List.append_nil]; rfl, h, .refl _ r, nofun⟩
  | @cons k e ks es he hes ih =>
    obtain ⟨hk, hks⟩ := List.nodup_cons.1 hks
    obtain ⟨r₁, hmeet, h₁, hext₁, hacc₁, hsome⟩ := meetEntry_fits h hk he hacc
    obtain ⟨r₂, hfold, h₂, hext₂, hall⟩ := ih h₁ hks (acc ++ [e]) hacc₁
    refine ⟨r₂, ?_, h₂, hext₁.trans hext₂,
      List.forall_mem_cons.2 ⟨hsome.imp hext₂.isSome hext₂.isSome, hall⟩⟩
    rw [List.foldlM_cons, hmeet, List.append_cons acc e es]
    exact hfold

theorem kindOf_keys {ks : List String} {es : List (Nat × Nat)} (hes : List.Forall₂ (g.HoldsEntry n) ks es) :
    ∀ e ∈ es, g.kindOf e.1 = .str := by
  induction hes with
  | nil => exact nofun
  | cons he _ ih => exact List.forall_mem_cons.2 ⟨kindOf_of_getElem? he.key, ih⟩

/-- The entries of a mapping are met. -/
theorem entries_fits (h : Fits g left r) {ks : List String} {es : List (Nat × Nat)} (hks : ks.Nodup)
    (hn : g[n]? = some ⟨.map, .map es⟩) (hes : List.Forall₂ (g.HoldsEntry n) ks es) :
    ∃ r', r.entries n = .ok (es, r') ∧ Fits g left r' ∧ Extends (n < ·) r r' ∧
      ∀ e ∈ es, (r'.part? e.1).isSome ∧ (r'.part? e.2).isSome := by
  obtain ⟨r', hfold, h', hext, hall⟩ := meetEntries_fits h hks hes [] nofun
  refine ⟨r', ?_, h', hext, hall⟩
  have hgraph : ({ r with graph := g } : Reading) = r := by rw [← h.graph]
  have hentries : r.graph.entriesOf n = es := by rw [h.graph, entriesOf, contentOf_of_getElem? hn]
  rw [entries, h.graph, contentOf_of_getElem? hn]
  simp only [flatten_eq_self hn (kindOf_keys hes), hgraph]
  change (r.graph.entriesOf n).foldlM meetEntry ([], r) = _
  rw [hentries]
  exact hfold

/-- A node is completed: no node is lost, and only nodes beyond it are noted. -/
structure Completes (g : Graph) (left : List Nat) (n : Nat) (r r' : Reading) : Prop where
  fits : Fits g left r'
  met : ∀ m, (r.part? m).isSome → (r'.part? m).isSome
  noted : ∀ m ∈ r'.noted, m ∈ r.noted ∨ n < m

/-- A collection whose nodes were met is completed. -/
theorem Extends.completes (hext : Extends (n < ·) r r') (h : Fits g (n :: left) r') (hn : g.Holds n)
    (hchildren : ∀ c ∈ g.children n, (r'.part? c).isSome) : Completes g left n r (r'.setPart n (g.partOf n)) where
  fits := h.setPart hn (.inr ⟨rfl, hchildren⟩) (fun _ hm => .inr hm) fun _ hne hm hleft =>
    ⟨hm, List.not_mem_cons_of_ne_of_not_mem hne hleft⟩
  met m hm := by
    rw [part?_setPart (h.size ▸ hn.lt_size)]
    split_ifs
    · rfl
    · exact hext.isSome hm
  noted := hext.noted

/-- A text is complete from the start. -/
theorem complete_text {s : String} (h : Fits g (n :: left) r) (hn : g[n]? = some ⟨.str, .scalar s⟩)
    (hmet : (r.part? n).isSome) : r.complete n = .ok r ∧ Completes g left n r r := by
  have hpart := h.part?_text hn hmet
  refine ⟨by rw [complete, hpart], { h with done := fun m q hq hnoted hleft => ?_ }, fun _ hm => hm,
    fun _ hm => .inl hm⟩
  by_cases hm : m = n
  · subst hm
    rw [hpart] at hq
    refine ⟨(Option.some.inj hq).symm.trans (by rw [partOf, contentOf_of_getElem? hn]), ?_⟩
    rw [children, contentOf_of_getElem? hn]
    exact nofun
  · exact h.done m q hq hnoted (List.not_mem_cons_of_ne_of_not_mem hm hleft)

/-- A list gets its items. -/
theorem complete_list {ns : List Nat} (h : Fits g (n :: left) r) (hn : g[n]? = some ⟨.seq, .list ns⟩)
    (hns : ∀ m ∈ ns, n < m ∧ g.Holds m) (hp : r.part? n = some p) :
    ∃ r', r.complete n = .ok r' ∧ Completes g left n r r' := by
  have hpart : g.partOf n = .list ns := by rw [partOf, contentOf_of_getElem? hn]
  have hlist : ∃ items, p = .list items := by
    rcases h.begun n p hp with hempty | hfull
    · rw [kindOf_of_getElem? hn] at hempty
      exact ⟨[], (Option.some.inj hempty).symm⟩
    · exact ⟨ns, hfull.trans hpart⟩
  obtain ⟨items, rfl⟩ := hlist
  obtain ⟨r', hfold, h', hext, hall⟩ := meetAll_fits ns h hns
  refine ⟨r'.setPart n (g.partOf n), ?_, hext.completes h' (h.holds n _ hp) ?_⟩
  · rw [complete, hp, hpart]
    simp only [h.graph, contentOf_of_getElem? hn, hfold, bind, Except.bind]
    rfl
  · rwa [children, contentOf_of_getElem? hn]

/-- A mapping gets its entries. -/
theorem complete_fields {ks : List String} {es : List (Nat × Nat)} (h : Fits g (n :: left) r)
    (hn : g[n]? = some ⟨.map, .map es⟩) (hks : ks.Nodup) (hes : List.Forall₂ (g.HoldsEntry n) ks es)
    (hp : r.part? n = some p) : ∃ r', r.complete n = .ok r' ∧ Completes g left n r r' := by
  have hpart : g.partOf n = .map es := by rw [partOf, contentOf_of_getElem? hn]
  have hmap : ∃ entries, p = .map entries := by
    rcases h.begun n p hp with hempty | hfull
    · rw [kindOf_of_getElem? hn] at hempty
      exact ⟨[], (Option.some.inj hempty).symm⟩
    · exact ⟨es, hfull.trans hpart⟩
  obtain ⟨entries, rfl⟩ := hmap
  obtain ⟨r', hentries, h', hext, hall⟩ := entries_fits h hks hn hes
  refine ⟨r'.setPart n (g.partOf n), ?_, hext.completes h' (h.holds n _ hp) ?_⟩
  · rw [complete, hp, hpart]
    simp only [hentries, bind, Except.bind]
    rfl
  · rw [children, contentOf_of_getElem? hn]
    simpa [List.mem_flatMap] using fun c a b hab hc => hc.elim (· ▸ (hall _ hab).1) (· ▸ (hall _ hab).2)

/-- What was noted is completed. -/
theorem complete_fits (h : Fits g (n :: left) r) (hmet : (r.part? n).isSome) :
    ∃ r', r.complete n = .ok r' ∧ Completes g left n r r' := by
  obtain ⟨p, hp⟩ := Option.isSome_iff_exists.1 hmet
  cases (h.holds n p hp).form with
  | text s hn => exact ⟨r, complete_text h hn hmet⟩
  | list ns hn hns => exact complete_list h hn hns hp
  | fields ks es hn hks hes => exact complete_fields h hn hks hes hp

/-- A round of collections is completed. -/
theorem completeRound_fits (ns : List Nat) (h : Fits g ns r) (hmet : ∀ n ∈ ns, (r.part? n).isSome) :
    ∃ r', ns.foldlM complete r = .ok r' ∧ Fits g [] r' ∧ (∀ m, (r.part? m).isSome → (r'.part? m).isSome) ∧
      ∀ m ∈ r'.noted, m ∈ r.noted ∨ ∃ n ∈ ns, n < m := by
  induction ns generalizing r with
  | nil => exact ⟨r, rfl, h, fun _ hm => hm, fun _ hm => .inl hm⟩
  | cons n ns ih =>
    obtain ⟨hn, hns⟩ := List.forall_mem_cons.1 hmet
    obtain ⟨r₁, hcomplete, h₁⟩ := complete_fits h hn
    obtain ⟨r₂, hfold, h₂, hsome₂, hnoted₂⟩ := ih h₁.fits fun m hm => h₁.met m (hns m hm)
    refine ⟨r₂, ?_, h₂, fun m hm => hsome₂ m (h₁.met m hm), fun m hm => ?_⟩
    · rw [List.foldlM_cons, hcomplete]
      exact hfold
    · rcases hnoted₂ m hm with hm | ⟨k, hk, hlt⟩
      · exact (h₁.noted m hm).imp_right fun hlt => ⟨n, List.mem_cons_self .., hlt⟩
      · exact .inr ⟨k, List.mem_cons_of_mem n hk, hlt⟩

/-- All collections are completed: in each round those that are noted have greater numbers. -/
theorem completeAll_fits (fuel : Nat) (h : Fits g [] r) (hfuel : ∀ m ∈ r.noted, g.size < m + fuel) :
    ∃ r', r.completeAll fuel = .ok r' ∧ Fits g [] r' ∧ r'.noted = [] ∧
      ∀ m, (r.part? m).isSome → (r'.part? m).isSome := by
  induction fuel generalizing r with
  | zero =>
    refine ⟨r, rfl, h, List.eq_nil_iff_forall_not_mem.2 fun m hm => ?_, fun m hm => hm⟩
    obtain ⟨p, hp⟩ := Option.isSome_iff_exists.1 (h.noted m hm)
    exact Nat.lt_asymm (h.holds m p hp).lt_size (hfuel m hm)
  | succ fuel ih =>
    rw [completeAll]
    by_cases hempty : r.noted.isEmpty
    · exact ⟨r, if_pos hempty, h, List.isEmpty_iff.1 hempty, fun m hm => hm⟩
    · have hround : Fits g r.noted.reverse { r with noted := [] } :=
        { h with
          noted := nofun
          done := fun m p hp _ hm => h.done m p hp (fun hmem => hm (List.mem_reverse.2 hmem)) (List.not_mem_nil) }
      obtain ⟨r₁, hfold, h₁, hsome₁, hnoted₁⟩ := completeRound_fits r.noted.reverse hround
        fun n hn => h.noted n (List.mem_reverse.1 hn)
      obtain ⟨r₂, hall, h₂, hnoted₂, hsome₂⟩ := ih h₁ fun m hm => by
        obtain ⟨n, hn, hlt⟩ := (hnoted₁ m hm).resolve_left List.not_mem_nil
        have hbound := hfuel n (List.mem_reverse.1 hn)
        omega
      refine ⟨r₂, ?_, h₂, hnoted₂, fun m hm => hsome₂ m (hsome₁ m hm)⟩
      rw [if_neg hempty, hfold]
      exact hall

theorem part?_ofGraph (g : Graph) (m : Nat) : (ofGraph g).part? m = none := by
  rw [part?, ofGraph, Array.getElem?_replicate]
  split_ifs <;> rfl

theorem fits_ofGraph (g : Graph) : Fits g [] (ofGraph g) where
  graph := rfl
  size := Array.size_replicate
  holds m p hp := by rw [part?_ofGraph] at hp; cases hp
  begun m p hp := by rw [part?_ofGraph] at hp; cases hp
  noted := nofun
  done m p hp := by rw [part?_ofGraph] at hp; cases hp

end Reading

/-! ## Values -/

namespace Part

open Entail.Yaml.Graph

variable {g : Graph} {parts : Array (Option Part)} {vs : Values} {n m k : Nat} {d : Document} {v : Value}

structure Made (g : Graph) (parts : Array (Option Part)) : Prop where
  part : ∀ m p, (parts[m]?).join = some p → p = g.partOf m
  children : ∀ m, ((parts[m]?).join).isSome → ∀ c ∈ g.children m, ((parts[c]?).join).isSome

def Valued (g : Graph) (parts : Array (Option Part)) (vs : Values) (k : Nat) : Prop :=
  ∀ m, k ≤ m → ((parts[m]?).join).isSome → ∀ d, g.Shows m d → vs.at? m = some d.toValue

theorem mapM_items (h : Valued g parts vs (n + 1)) {ds : List Document} {ns : List Nat} (hns : g.ShowsItems n ns ds)
    (hmet : ∀ m ∈ ns, ((parts[m]?).join).isSome) : ns.mapM vs.at? = some (Document.itemValues ds) := by
  induction ds generalizing ns with
  | nil =>
    obtain rfl := hns
    rfl
  | cons d ds ih =>
    obtain ⟨m, ms, rfl, hm, hd, hms⟩ := hns
    obtain ⟨hfirst, hrest⟩ := List.forall_mem_cons.1 hmet
    rw [List.mapM_cons, h m hm hfirst d hd, ih hms hrest]
    rfl

theorem mapM_entries (h : Valued g parts vs (n + 1)) {es : List (String × Document)} {ps : List (Nat × Nat)}
    (hps : g.ShowsFields n ps es)
    (hmet : ∀ e ∈ ps, ((parts[e.1]?).join).isSome ∧ ((parts[e.2]?).join).isSome) :
    ps.mapM (both? vs.at?) = some (Document.entryValues es) := by
  induction es generalizing ps with
  | nil =>
    obtain rfl := hps
    rfl
  | cons e es ih =>
    obtain ⟨p, ps, rfl, hk, hm, hkey, hd, hps⟩ := hps
    obtain ⟨⟨hfirst, hsecond⟩, hrest⟩ := List.forall_mem_cons.1 hmet
    have hboth : both? vs.at? p = some (.str e.1, e.2.toValue) := by
      rw [both?, h p.1 hk hfirst (.text e.1) hkey, h p.2 hm hsecond e.2 hd]
      rfl
    rw [List.mapM_cons, hboth, ih hps hrest]
    rfl

/-- The value of a node, given those of the nodes beyond it. -/
theorem value?_shows (h : Valued g parts vs (n + 1)) (hd : g.Shows n d)
    (hmet : ∀ c ∈ g.children n, ((parts[c]?).join).isSome) : (g.partOf n).value? vs.at? = some d.toValue := by
  cases d with
  | text s =>
    rw [partOf, contentOf_of_getElem? hd]
    rfl
  | list items =>
    obtain ⟨ns, hn, hns⟩ := hd
    rw [children, contentOf_of_getElem? hn] at hmet
    rw [partOf, contentOf_of_getElem? hn, value?, mapM_items h hns hmet]
    rfl
  | fields entries =>
    obtain ⟨ps, hn, hps⟩ := hd
    rw [children, contentOf_of_getElem? hn] at hmet
    have hboth : ∀ e ∈ ps, ((parts[e.1]?).join).isSome ∧ ((parts[e.2]?).join).isSome := fun e he =>
      ⟨hmet _ (List.mem_flatMap.2 ⟨e, he, by simp⟩), hmet _ (List.mem_flatMap.2 ⟨e, he, by simp⟩)⟩
    rw [partOf, contentOf_of_getElem? hn, value?, mapM_entries h hps hboth]
    rfl

theorem at?_setIfInBounds (vs : Values) (n : Nat) (v : Option Value) (m : Nat) :
    Values.at? (vs.setIfInBounds n v) m = if m = n ∧ n < vs.size then v else vs.at? m := by
  rw [Values.at?, Array.getElem?_setIfInBounds]
  by_cases hm : m = n
  · subst hm
    by_cases hlt : m < vs.size
    · simp [hlt]
    · simp [hlt, Values.at?]
  · simp [hm, Ne.symm hm, Values.at?]

theorem size_settle : (settle parts vs n).size = vs.size := by
  unfold settle
  split
  · exact Array.size_setIfInBounds ..
  · rfl

/-- Only the node itself gets a value. -/
theorem at?_settle_of_ne (h : m ≠ n) : (settle parts vs n).at? m = vs.at? m := by
  unfold settle
  split
  · rw [at?_setIfInBounds, if_neg fun hm => h hm.1]
  · rfl

/-- Values are kept. -/
theorem at?_settle_of_some (h : vs.at? m = some v) : (settle parts vs n).at? m = some v := by
  by_cases hm : m = n
  · subst hm
    rw [settle, h]
    exact h
  · rw [at?_settle_of_ne hm, h]

theorem at?_settles_of_some (parts : Array (Option Part)) (ns : List Nat) (h : vs.at? m = some v) :
    (ns.foldl (settle parts) vs).at? m = some v := by
  induction ns generalizing vs with
  | nil => exact h
  | cons n ns ih => exact ih (at?_settle_of_some h)

theorem at?_settleAll_of_some (fuel : Nat) (h : vs.at? m = some v) : (settleAll parts fuel vs).at? m = some v := by
  induction fuel generalizing vs with
  | zero => exact h
  | succ fuel ih =>
    have hpass := at?_settles_of_some parts (List.range parts.size).reverse h
    rw [settleAll]
    split_ifs
    · exact hpass
    · exact ih hpass

/-- One more node gets its value. -/
theorem valued_settle (hmade : Made g parts) (h : Valued g parts vs (k + 1)) (hsize : k < vs.size)
    (hnone : vs.at? k = none) : Valued g parts (settle parts vs k) k := by
  intro m hm hmet d hd
  by_cases heq : m = k
  · subst heq
    obtain ⟨p, hp⟩ := Option.isSome_iff_exists.1 hmet
    rw [settle, hnone, hp]
    change Values.at? (vs.setIfInBounds m _) m = _
    rw [at?_setIfInBounds, if_pos ⟨rfl, hsize⟩, hmade.part m p hp]
    exact value?_shows h hd (hmade.children m hmet)
  · rw [at?_settle_of_ne heq]
    exact h m (by omega) hmet d hd

/-- All nodes get their values in one pass, the last first. -/
theorem valued_pass (hmade : Made g parts) (k : Nat) (h : Valued g parts vs k) (hsize : k ≤ vs.size)
    (hnone : ∀ m < k, vs.at? m = none) : Valued g parts ((List.range k).reverse.foldl (settle parts) vs) 0 := by
  induction k generalizing vs with
  | zero => exact h
  | succ k ih =>
    rw [List.range_succ, List.reverse_append, List.reverse_singleton, List.singleton_append, List.foldl_cons]
    refine ih (valued_settle hmade h hsize (hnone k (Nat.lt_succ_self k))) (by rw [size_settle]; omega) fun m hm => ?_
    rw [at?_settle_of_ne (Nat.ne_of_lt hm)]
    exact hnone m (by omega)

/-- A node that holds a document has the value of the document. -/
theorem tie_shows (hmade : Made g parts) (hmet : ((parts[n]?).join).isSome) (hd : g.Shows n d) :
    ∃ ks, tie parts n = (d.toValue, ks) := by
  have hnone : ∀ m, Values.at? (Array.replicate parts.size none) m = none := by
    intro m
    rw [Values.at?, Array.getElem?_replicate]
    split_ifs <;> rfl
  have hlt : n < parts.size := by
    obtain ⟨p, hp⟩ := Option.isSome_iff_exists.1 hmet
    rw [Option.join_eq_some_iff] at hp
    exact (Array.getElem?_eq_some_iff.1 hp).1
  have hstart : Valued g parts (Array.replicate parts.size none) parts.size := by
    intro m hm hmet
    rw [Array.getElem?_eq_none hm] at hmet
    cases hmet
  have hpass : Values.at? _ n = _ := valued_pass hmade parts.size hstart (Nat.le_of_eq Array.size_replicate.symm)
    (fun m _ => hnone m) n (Nat.zero_le n) hmet d hd
  have hvalue : Values.at? (settleAll parts parts.size (Array.replicate parts.size none)) n = some d.toValue := by
    obtain ⟨fuel, hfuel⟩ : ∃ fuel, parts.size = fuel + 1 := ⟨parts.size - 1, by omega⟩
    rw [show settleAll parts parts.size = settleAll parts (fuel + 1) by rw [hfuel], settleAll]
    split_ifs
    · exact hpass
    · exact at?_settleAll_of_some fuel hpass
  refine ⟨(tie parts n).2, Prod.ext ?_ rfl⟩
  simp only [tie, hvalue]

end Part

/-- A node that holds a document is read as the value of the document. -/
theorem Graph.read_shows {g : Graph} {root : Nat} {d : Document} (hd : d.Regular) (h : g.Shows root d) :
    ∃ ks, g.read root = .ok (d.toValue, ks) := by
  obtain ⟨r, hmeet, hr, -, hsome⟩ := Reading.meet_fits (Reading.fits_ofGraph g) ⟨d, hd, h⟩
  obtain ⟨r', hall, hr', hnoted, hsome'⟩ := Reading.completeAll_fits (g.size + 1) hr fun m _ => by omega
  have hdone : ∀ m p, r'.part? m = some p → p = g.partOf m ∧ ∀ c ∈ g.children m, (r'.part? c).isSome :=
    fun m p hp => hr'.done m p hp (by rw [hnoted]; exact List.not_mem_nil) List.not_mem_nil
  have hmade : Part.Made g r'.parts := by
    refine ⟨fun m p hp => (hdone m p hp).1, fun m hm => ?_⟩
    obtain ⟨p, hp⟩ := Option.isSome_iff_exists.1 hm
    exact (hdone m p hp).2
  obtain ⟨ks, hks⟩ := Part.tie_shows hmade (hsome' root hsome) h
  refine ⟨ks, ?_⟩
  rw [Graph.read, hmeet]
  simp only [bind, Except.bind, hall, hks]
  rfl

end Entail.Yaml
