import Entail.Proofs.Json.Tokens
import Entail.Proofs.Yaml.Tokens
import Entail.Yaml.Reader

/-!
# Nodes of documents

* `Graph.Shows g n d` : a node holds a document, those that it refers to having greater numbers;
* `Reader.reads_flow`, `Reader.reads_block` : the tokens of a document in flows and in blocks are read as a node that
  holds it;
* `Reader.onlyDocument_flow`, `Reader.onlyDocument_block` : so the document is read of tokens that hold nothing else.
-/

namespace Entail.Yaml

namespace Graph

variable {g g' : Graph}

/-! ## Documents in a graph -/

mutual

def Shows (g : Graph) (n : Nat) : Document → Prop
  | .text s => g[n]? = some ⟨.str, .scalar s⟩
  | .list items => ∃ ns, g[n]? = some ⟨.seq, .list ns⟩ ∧ ShowsItems g n ns items
  | .fields entries => ∃ es, g[n]? = some ⟨.map, .map es⟩ ∧ ShowsFields g n es entries

def ShowsItems (g : Graph) (n : Nat) (ns : List Nat) : List Document → Prop
  | [] => ns = []
  | d :: rest => ∃ m ms, ns = m :: ms ∧ n < m ∧ Shows g m d ∧ ShowsItems g n ms rest

def ShowsFields (g : Graph) (n : Nat) (es : List (Nat × Nat)) : List (String × Document) → Prop
  | [] => es = []
  | (k, d) :: rest => ∃ e es', es = e :: es' ∧ n < e.1 ∧ n < e.2 ∧ g[e.1]? = some ⟨.str, .scalar k⟩ ∧ Shows g e.2 d ∧
      ShowsFields g n es' rest

end

theorem lt_size_of_getElem? {n : Nat} {node : Node} (h : g[n]? = some node) : n < g.size :=
  (Array.getElem?_eq_some_iff.1 h).1

mutual

/-- What a node holds depends on it and on the nodes beyond it. -/
theorem Shows.congr : ∀ {d : Document} {n : Nat}, Shows g n d → (∀ m, n ≤ m → m < g.size → g'[m]? = g[m]?) →
    Shows g' n d
  | .text s, n, h, hg => (hg n (Nat.le_refl n) (lt_size_of_getElem? h)).trans h
  | .list items, n, h, hg => by
    obtain ⟨ns, hn, hns⟩ := h
    exact ⟨ns, (hg n (Nat.le_refl n) (lt_size_of_getElem? hn)).trans hn, hns.congr fun m hm => hg m (Nat.le_of_lt hm)⟩
  | .fields entries, n, h, hg => by
    obtain ⟨es, hn, hes⟩ := h
    exact ⟨es, (hg n (Nat.le_refl n) (lt_size_of_getElem? hn)).trans hn, hes.congr fun m hm => hg m (Nat.le_of_lt hm)⟩

theorem ShowsItems.congr : ∀ {ds : List Document} {n : Nat} {ns : List Nat}, ShowsItems g n ns ds →
    (∀ m, n < m → m < g.size → g'[m]? = g[m]?) → ShowsItems g' n ns ds
  | [], _, _, h, _ => h
  | d :: rest, n, ns, h, hg => by
    obtain ⟨m, ms, rfl, hm, hd, hrest⟩ := h
    exact ⟨m, ms, rfl, hm, hd.congr fun k hk => hg k (Nat.lt_of_lt_of_le hm hk), hrest.congr hg⟩

theorem ShowsFields.congr : ∀ {es : List (String × Document)} {n : Nat} {ps : List (Nat × Nat)}, ShowsFields g n ps es →
    (∀ m, n < m → m < g.size → g'[m]? = g[m]?) → ShowsFields g' n ps es
  | [], _, _, h, _ => h
  | (k, d) :: rest, n, ps, h, hg => by
    obtain ⟨e, es, rfl, hk, hm, hkey, hd, hrest⟩ := h
    exact ⟨e, es, rfl, hk, hm, (hg e.1 hk (lt_size_of_getElem? hkey)).trans hkey,
      hd.congr fun j hj => hg j (Nat.lt_of_lt_of_le hm hj), hrest.congr hg⟩

end

/-! ## Adding and filling -/

theorem getElem?_fill_of_ne {n m : Nat} (h : m ≠ n) (c : Content) : (g.fill n c)[m]? = g[m]? := by
  rw [fill, Array.getElem?_modify, if_neg (Ne.symm h)]

theorem getElem?_fill {n : Nat} {kind : Kind} {c : Content} (h : g[n]? = some ⟨kind, c⟩) (c' : Content) :
    (g.fill n c')[n]? = some ⟨kind, c'⟩ := by
  rw [fill, Array.getElem?_modify, if_pos rfl, h]
  rfl

theorem size_fill (g : Graph) (n : Nat) (c : Content) : (g.fill n c).size = g.size := Array.size_modify

end Graph

namespace Reader

open Entail.Yaml.Graph Document

variable {r r' r'' : Reader} {t : Token} {ts rest : List Token} {fuel : Nat} {d : Document} {tag : Option String}

/-! ## Tokens ahead -/

theorem peek_of_cons (h : r.tokens = t :: ts) : r.peek = .ok (some t) := by rw [peek, h]

theorem isAt_of_cons (h : r.tokens = t :: ts) (ends : List Token) : r.isAt ends = .ok (ends.contains t) := by
  rw [isAt, sees, peek_of_cons h]
  rfl

theorem expect_of_cons (h : r.tokens = t :: ts) : r.expect t = .ok r.next := by
  rw [expect, isAt_of_cons h]
  simp [bind, Except.bind, pure, Except.pure]

theorem tokens_next (h : r.tokens = t :: ts) : r.next.tokens = ts := by rw [next, h, List.tail_cons]

/-- Whether a token starts a document of its own. -/
def opens : Token → Bool
  | .scalar _ _ | .flowSequenceStart | .flowMappingStart | .blockMappingStart | .blockEntry => true
  | _ => false

/-- A node without properties. -/
theorem node_of_opens (h : r.tokens = t :: ts) (ht : opens t = true) (inBlock bare : Bool) :
    node (fuel + 1) inBlock bare r = content fuel inBlock bare false none (some t) r := by
  obtain ⟨tokens, fault, handles, anchors, graph⟩ := r
  obtain rfl : tokens = t :: ts := h
  rw [node]
  cases t <;> first | rfl | cases ht

theorem nodeUnless_of_cons (h : r.tokens = t :: ts) {ends : List Token} (ht : t ∉ ends) (inBlock bare : Bool) :
    nodeUnless (fuel + 1) inBlock bare ends r = node fuel inBlock bare r := by
  rw [nodeUnless, isAt_of_cons h]
  simp [bind, Except.bind, ht]

/-! ## What is kept -/

/-- Tokens are taken up to a rest, and the nodes that were there stay. -/
structure Keeps (r r' : Reader) (rest : List Token) : Prop where
  tokens : r'.tokens = rest
  fault : r'.fault = r.fault
  size : r.graph.size ≤ r'.graph.size
  nodes : ∀ m < r.graph.size, r'.graph[m]? = r.graph[m]?

structure Reads (r r' : Reader) (d : Document) (rest : List Token) : Prop extends Keeps r r' rest where
  shows : Shows r'.graph r.graph.size d

theorem Keeps.trans (h : Keeps r r' ts) (h' : Keeps r' r'' rest) : Keeps r r'' rest where
  tokens := h'.tokens
  fault := h'.fault.trans h.fault
  size := Nat.le_trans h.size h'.size
  nodes m hm := (h'.nodes m (Nat.lt_of_lt_of_le hm h.size)).trans (h.nodes m hm)

theorem Keeps.next (h : r.tokens = t :: ts) : Keeps r r.next ts := ⟨tokens_next h, rfl, Nat.le_refl _, fun _ _ => rfl⟩

theorem Keeps.shows (h : Keeps r r' ts) {n : Nat} (hd : Shows r.graph n d) : Shows r'.graph n d :=
  hd.congr fun m _ hm => h.nodes m hm

theorem Keeps.add (h : r.tokens = ts) (kind : Kind) (c : Content) : Keeps r (r.add kind c).2 ts where
  tokens := h
  fault := rfl
  size := by
    change r.graph.size ≤ (r.graph.push _).size
    rw [Array.size_push]
    omega
  nodes m hm := by
    change (r.graph.push _)[m]? = _
    rw [Array.getElem?_push, if_neg (Nat.ne_of_lt hm)]

theorem getElem?_add (r : Reader) (kind : Kind) (c : Content) :
    (r.add kind c).2.graph[r.graph.size]? = some ⟨kind, c⟩ := by
  change (r.graph.push _)[r.graph.size]? = _
  rw [Array.getElem?_push_size]

theorem Keeps.fill (h : Keeps r r' ts) {n : Nat} (hn : r.graph.size ≤ n) (c : Content) : Keeps r (r'.fill n c) ts where
  tokens := h.tokens
  fault := h.fault
  size := Nat.le_trans h.size (Nat.le_of_eq (size_fill ..).symm)
  nodes m hm := (getElem?_fill_of_ne (by omega) c).trans (h.nodes m hm)

/-! ## Scalars and collections -/

/-- A scalar that is a text. -/
theorem node_scalar {s : String} {isPlain : Bool} (fuel : Nat) (h : r.tokens = .scalar s isPlain :: rest)
    (hkind : isPlain = true → Kind.ofPlain s = .str) (hfuel : 2 ≤ fuel) (inBlock bare : Bool) :
    ∃ r', node fuel inBlock bare r = .ok (r.graph.size, r') ∧ Reads r r' (.text s) rest := by
  obtain ⟨fuel, rfl⟩ : ∃ k, fuel = k + 2 := ⟨fuel - 2, by omega⟩
  have hscalar : scalarKind none s isPlain = .str := by
    rw [scalarKind]
    split_ifs with hplain
    · exact hkind hplain
    · rfl
  refine ⟨(r.next.add .str (.scalar s)).2, ?_, (Keeps.next h).trans (.add (tokens_next h) _ _), getElem?_add ..⟩
  rw [node_of_opens h rfl, content, hscalar]
  rfl

/-- A list is read if its items are. -/
theorem listNode_ok {items : Reader → Except Fault (List Nat × Reader)} {ds : List Document}
    (h : ∃ ns r', items (r.add .seq (.list [])).2 = .ok (ns, r') ∧ Keeps (r.add .seq (.list [])).2 r' rest ∧
      ShowsItems r'.graph r.graph.size ns ds) :
    ∃ r', listNode none items r = .ok (r.graph.size, r') ∧ Reads r r' (.list ds) rest := by
  obtain ⟨ns, r', hitems, hkeeps, hshows⟩ := h
  refine ⟨r'.fill r.graph.size (.list ns), ?_, ((Keeps.add rfl _ _).trans hkeeps).fill (Nat.le_refl _) _, ns, ?_, ?_⟩
  · change (do
      let x ← items (r.add .seq (.list [])).2
      return (r.graph.size, x.2.fill r.graph.size (.list x.1))) = _
    rw [hitems]
    rfl
  · refine getElem?_fill ((hkeeps.nodes _ ?_).trans (getElem?_add ..)) _
    exact lt_size_of_getElem? (getElem?_add ..)
  · exact hshows.congr fun m hm _ => getElem?_fill_of_ne (Nat.ne_of_gt hm) _

/-- A mapping is read if its entries are. -/
theorem mapNode_ok {entries : Reader → Except Fault (List (Nat × Nat) × Reader)} {es : List (String × Document)}
    (h : ∃ ps r', entries (r.add .map (.map [])).2 = .ok (ps, r') ∧ Keeps (r.add .map (.map [])).2 r' rest ∧
      ShowsFields r'.graph r.graph.size ps es) :
    ∃ r', mapNode none entries r = .ok (r.graph.size, r') ∧ Reads r r' (.fields es) rest := by
  obtain ⟨ps, r', hentries, hkeeps, hshows⟩ := h
  refine ⟨r'.fill r.graph.size (.map ps), ?_, ((Keeps.add rfl _ _).trans hkeeps).fill (Nat.le_refl _) _, ps, ?_, ?_⟩
  · change (do
      let x ← entries (r.add .map (.map [])).2
      return (r.graph.size, x.2.fill r.graph.size (.map x.1))) = _
    rw [hentries]
    rfl
  · refine getElem?_fill ((hkeeps.nodes _ ?_).trans (getElem?_add ..)) _
    exact lt_size_of_getElem? (getElem?_add ..)
  · exact hshows.congr fun m hm _ => getElem?_fill_of_ne (Nat.ne_of_gt hm) _

/-! ## Flows -/

theorem flowTokens_eq_cons (d : Document) : ∃ t ts, d.flowTokens = t :: ts ∧ opens t = true ∧
    t ≠ .blockEntry := by
  cases d with
  | text s => exact ⟨_, _, rfl, rfl, nofun⟩
  | list items => exact ⟨_, _, rfl, rfl, nofun⟩
  | fields entries => exact ⟨_, _, rfl, rfl, nofun⟩

theorem flowItems_end (fuel : Nat) (h : r.tokens = .flowSequenceEnd :: rest) (isFirst : Bool) :
    flowItems (fuel + 1) isFirst r = .ok ([], r.next) := by
  rw [flowItems, isAt_of_cons h]
  rfl

theorem flowEntries_end (fuel : Nat) (h : r.tokens = .flowMappingEnd :: rest) (isFirst : Bool) :
    flowEntries (fuel + 1) isFirst r = .ok ([], r.next) := by
  rw [flowEntries, isAt_of_cons h]
  rfl

theorem not_mem_of_opens {ends : List Token} (ht : opens t = true) (hends : ∀ e ∈ ends, opens e = false) : t ∉ ends := by
  intro hmem
  rw [hends t hmem] at ht
  cases ht

/-- An item in front. -/
theorem flowItems_first (h : r.tokens = t :: ts) (ht : opens t = true) : flowItems (fuel + 1) true r = (do
      let (n, r) ← node fuel false false r
      let (ns, r) ← flowItems fuel false r
      return (n :: ns, r)) := by
  have hend : t ∉ [Token.flowSequenceEnd] := not_mem_of_opens ht (by decide)
  have hkey : t ∉ [Token.key] := not_mem_of_opens ht (by decide)
  rw [flowItems, isAt_of_cons h]
  simp [bind, Except.bind, pure, Except.pure, isAt_of_cons h, hend, hkey]

/-- An item behind its comma. -/
theorem flowItems_next (h : r.tokens = .flowEntry :: t :: ts) (ht : opens t = true) : flowItems (fuel + 1) false r = (do
      let (n, r) ← node fuel false false r.next
      let (ns, r) ← flowItems fuel false r
      return (n :: ns, r)) := by
  have hend : t ∉ [Token.flowSequenceEnd] := not_mem_of_opens ht (by decide)
  have hkey : t ∉ [Token.key] := not_mem_of_opens ht (by decide)
  rw [flowItems, isAt_of_cons h]
  simp [bind, Except.bind, pure, Except.pure, isAt_of_cons (tokens_next h), expect_of_cons h, hend, hkey]

theorem flowEntries_first (h : r.tokens = .key :: ts) : flowEntries (fuel + 1) true r = (do
      let (e, r) ← flowPair fuel .flowMappingEnd r
      let (es, r) ← flowEntries fuel false r
      return (e :: es, r)) := by
  rw [flowEntries, isAt_of_cons h]
  simp [bind, Except.bind, pure, Except.pure, isAt_of_cons h]

theorem flowEntries_next (h : r.tokens = .flowEntry :: .key :: ts) : flowEntries (fuel + 1) false r = (do
      let (e, r) ← flowPair fuel .flowMappingEnd r.next
      let (es, r) ← flowEntries fuel false r
      return (e :: es, r)) := by
  rw [flowEntries, isAt_of_cons h]
  simp [bind, Except.bind, pure, Except.pure, isAt_of_cons (tokens_next h), expect_of_cons h]

def IsReadInFlow (d : Document) : Prop :=
  ∀ ⦃r : Reader⦄ ⦃rest : List Token⦄ (fuel : Nat) (inBlock bare : Bool), r.tokens = d.flowTokens ++ rest →
    4 * d.flowTokens.length ≤ fuel → ∃ r', node fuel inBlock bare r = .ok (r.graph.size, r') ∧ Reads r r' d rest

structure ShowsPair (g : Graph) (n : Nat) (e : Nat × Nat) (k : String) (d : Document) : Prop where
  key_gt : n < e.1
  value_gt : n < e.2
  key : g[e.1]? = some ⟨.str, .scalar k⟩
  value : Shows g e.2 d

theorem flowPair_ok {k : String} {n : Nat} (fuel : Nat) (hd : IsReadInFlow d)
    (h : r.tokens = .key :: .scalar k false :: .value :: (d.flowTokens ++ rest))
    (hfuel : 4 * d.flowTokens.length + 4 ≤ fuel) (hn : n < r.graph.size) :
    ∃ e r', flowPair fuel .flowMappingEnd r = .ok (e, r') ∧ Keeps r r' rest ∧ ShowsPair r'.graph n e k d := by
  obtain ⟨t, ts, hcons, ht, -⟩ := flowTokens_eq_cons d
  have hpos : 0 < d.flowTokens.length := by rw [hcons]; exact Nat.succ_pos _
  obtain ⟨fuel, rfl⟩ : ∃ m, fuel = m + 3 := ⟨fuel - 3, by omega⟩
  have hkeys := tokens_next h
  obtain ⟨r₁, hkey, h₁⟩ := node_scalar (fuel + 1) hkeys nofun (by omega) false false
  have hvalues := tokens_next h₁.tokens
  obtain ⟨r₂, hvalue, h₂⟩ := hd fuel false false hvalues (by omega)
  rw [hcons] at hvalues
  refine ⟨(r.graph.size, r₁.graph.size), r₂, ?_, ((Keeps.next h).trans h₁.toKeeps).trans ((Keeps.next h₁.tokens).trans
    h₂.toKeeps), ?_⟩
  · have hends : t ∉ [Token.flowEntry, Token.flowMappingEnd] := not_mem_of_opens ht (by decide)
    rw [flowPair, nodeUnless_of_cons hkeys (by simp), hkey]
    simp only [bind, Except.bind, flowValue, isAt_of_cons h₁.tokens, nodeUnless_of_cons hvalues hends, hvalue]
    rfl
  · have hsize : r.graph.size < r₁.graph.size := lt_size_of_getElem? h₁.shows
    refine ⟨hn, Nat.lt_trans hn hsize, ?_, h₂.shows⟩
    exact ((Keeps.next h₁.tokens).trans h₂.toKeeps).shows (d := .text k) h₁.shows

theorem showsItems_cons {g : Graph} {n m : Nat} {ns : List Nat} {ds : List Document} (hm : n < m) (h : Shows g m d)
    (h' : ShowsItems g n ns ds) : ShowsItems g n (m :: ns) (d :: ds) := ⟨m, ns, rfl, hm, h, h'⟩

theorem ShowsPair.cons {g : Graph} {n : Nat} {e : Nat × Nat} {k : String} {ps : List (Nat × Nat)}
    {es : List (String × Document)} (h : ShowsPair g n e k d) (h' : ShowsFields g n ps es) :
    ShowsFields g n (e :: ps) ((k, d) :: es) := ⟨e, ps, rfl, h.key_gt, h.value_gt, h.key, h.value, h'⟩

theorem Keeps.showsPair (h : Keeps r r' ts) {n : Nat} {e : Nat × Nat} {k : String} (hpair : ShowsPair r.graph n e k d) :
    ShowsPair r'.graph n e k d :=
  ⟨hpair.key_gt, hpair.value_gt, h.shows (d := .text k) hpair.key, h.shows hpair.value⟩

/-- Items with their commas are read up to the end of the list. -/
def AreReadInFlow (ds : List Document) : Prop :=
  ∀ ⦃r : Reader⦄ ⦃rest : List Token⦄ ⦃n : Nat⦄ (fuel : Nat), r.tokens = flowItemTokens ds ++ .flowSequenceEnd :: rest →
    4 * (flowItemTokens ds).length + 4 ≤ fuel → n < r.graph.size →
    ∃ ns r', flowItems fuel false r = .ok (ns, r') ∧ Keeps r r' rest ∧ ShowsItems r'.graph n ns ds

def FieldsAreReadInFlow (es : List (String × Document)) : Prop :=
  ∀ ⦃r : Reader⦄ ⦃rest : List Token⦄ ⦃n : Nat⦄ (fuel : Nat), r.tokens = flowFieldTokens es ++ .flowMappingEnd :: rest →
    4 * (flowFieldTokens es).length + 4 ≤ fuel → n < r.graph.size →
    ∃ ps r', flowEntries fuel false r = .ok (ps, r') ∧ Keeps r r' rest ∧ ShowsFields r'.graph n ps es

/-- An item and those behind it. -/
theorem items_cons {ds : List Document} {n : Nat} (fuel : Nat) (hd : IsReadInFlow d) (hds : AreReadInFlow ds)
    (h : r.tokens = d.flowTokens ++ (flowItemTokens ds ++ .flowSequenceEnd :: rest))
    (hfuel : 4 * d.flowTokens.length + 4 * (flowItemTokens ds).length + 4 ≤ fuel) (hn : n < r.graph.size) :
    ∃ ns r', (do
      let (n, r) ← node fuel false false r
      let (ns, r) ← flowItems fuel false r
      return (n :: ns, r) : Except Fault (List Nat × Reader)) = .ok (ns, r') ∧ Keeps r r' rest ∧
        ShowsItems r'.graph n ns (d :: ds) := by
  obtain ⟨r₁, hnode, h₁⟩ := hd fuel false false h (by omega)
  obtain ⟨ns, r₂, hrest, h₂, hshows⟩ := hds fuel h₁.tokens (by omega) (Nat.lt_of_lt_of_le hn h₁.size)
  refine ⟨r.graph.size :: ns, r₂, ?_, h₁.toKeeps.trans h₂, showsItems_cons hn (h₂.shows h₁.shows) hshows⟩
  rw [hnode]
  simp only [bind, Except.bind, hrest]
  rfl

/-- A field and those behind it. -/
theorem fields_cons {k : String} {es : List (String × Document)} {n : Nat} (fuel : Nat) (hd : IsReadInFlow d)
    (hes : FieldsAreReadInFlow es)
    (h : r.tokens =
      .key :: .scalar k false :: .value :: (d.flowTokens ++ (flowFieldTokens es ++ .flowMappingEnd :: rest)))
    (hfuel : 4 * d.flowTokens.length + 4 * (flowFieldTokens es).length + 4 ≤ fuel) (hn : n < r.graph.size) :
    ∃ ps r', (do
      let (e, r) ← flowPair fuel .flowMappingEnd r
      let (es, r) ← flowEntries fuel false r
      return (e :: es, r) : Except Fault (List (Nat × Nat) × Reader)) = .ok (ps, r') ∧ Keeps r r' rest ∧
        ShowsFields r'.graph n ps ((k, d) :: es) := by
  obtain ⟨e, r₁, hpair, h₁, hshows₁⟩ := flowPair_ok fuel hd h (by omega) hn
  obtain ⟨ps, r₂, hrest, h₂, hshows⟩ := hes fuel h₁.tokens (by omega) (Nat.lt_of_lt_of_le hn h₁.size)
  refine ⟨e :: ps, r₂, ?_, h₁.trans h₂, (h₂.showsPair hshows₁).cons hshows⟩
  rw [hpair]
  simp only [bind, Except.bind, hrest]
  rfl

mutual

/-- Every document is read of its tokens in flows. -/
theorem reads_flow : ∀ d : Document, d.Regular → IsReadInFlow d
  | .text s, _ => by
    intro r rest fuel inBlock bare h hfuel
    refine node_scalar fuel h nofun ?_ inBlock bare
    simp only [flowTokens, List.length_singleton] at hfuel
    omega
  | .list [], _ => by
    intro r rest fuel inBlock bare h hfuel
    obtain ⟨fuel, rfl⟩ : ∃ m, fuel = m + 3 := ⟨fuel - 3, by simp [flowTokens] at hfuel; omega⟩
    have hend : (r.next.add .seq (.list [])).2.tokens = .flowSequenceEnd :: rest := tokens_next h
    have hshows : ShowsItems (r.next.add .seq (.list [])).2.next.graph r.next.graph.size [] [] := rfl
    obtain ⟨r', hnode, hreads⟩ := listNode_ok ⟨[], _, flowItems_end fuel hend true, Keeps.next hend, hshows⟩
    refine ⟨r', ?_, (Keeps.next h).trans hreads.toKeeps, hreads.shows⟩
    rw [node_of_opens h rfl, content]
    exact hnode
  | .list (d :: items), hd => by
    intro r rest fuel inBlock bare h hfuel
    obtain ⟨-, hfirst, hitems⟩ := hd
    obtain ⟨t, ts, hcons, ht, -⟩ := flowTokens_eq_cons d
    simp only [flowTokens, flowItemTokens, List.cons_append, List.tail_cons, List.append_assoc, List.nil_append,
      List.length_cons, List.length_append, List.length_nil] at h hfuel
    obtain ⟨fuel, rfl⟩ : ∃ m, fuel = m + 3 := ⟨fuel - 3, by omega⟩
    have hnext : (r.next.add .seq (.list [])).2.tokens = _ := tokens_next h
    have hsize := lt_size_of_getElem? (getElem?_add r.next .seq (.list []))
    obtain ⟨ns, r₁, hitems, h₁, hshows⟩ := items_cons fuel (reads_flow d hfirst) (reads_flowItems items hitems)
      hnext (by omega) hsize
    rw [hcons] at hnext
    rw [← flowItems_first hnext ht] at hitems
    obtain ⟨r', hnode, hreads⟩ := listNode_ok ⟨ns, r₁, hitems, h₁, hshows⟩
    refine ⟨r', ?_, (Keeps.next h).trans hreads.toKeeps, hreads.shows⟩
    rw [node_of_opens h rfl, content]
    exact hnode
  | .fields [], hd => absurd rfl hd.1
  | .fields ((k, d) :: entries), hd => by
    intro r rest fuel inBlock bare h hfuel
    obtain ⟨-, -, -, hfirst, hentries⟩ := hd
    simp only [flowTokens, flowFieldTokens, List.cons_append, List.tail_cons, List.append_assoc, List.nil_append,
      List.length_cons, List.length_append, List.length_nil] at h hfuel
    obtain ⟨fuel, rfl⟩ : ∃ m, fuel = m + 3 := ⟨fuel - 3, by omega⟩
    have hnext : (r.next.add .map (.map [])).2.tokens = _ := tokens_next h
    have hsize := lt_size_of_getElem? (getElem?_add r.next .map (.map []))
    obtain ⟨ps, r₁, hfields, h₁, hshows⟩ := fields_cons fuel (reads_flow d hfirst)
      (reads_flowFields entries hentries) hnext (by omega) hsize
    rw [← flowEntries_first hnext] at hfields
    obtain ⟨r', hnode, hreads⟩ := mapNode_ok ⟨ps, r₁, hfields, h₁, hshows⟩
    refine ⟨r', ?_, (Keeps.next h).trans hreads.toKeeps, hreads.shows⟩
    rw [node_of_opens h rfl, content]
    exact hnode

theorem reads_flowItems : ∀ ds : List Document, RegularItems ds → AreReadInFlow ds
  | [], _ => by
    intro r rest n fuel h hfuel _
    obtain ⟨fuel, rfl⟩ : ∃ m, fuel = m + 1 := ⟨fuel - 1, by omega⟩
    exact ⟨[], r.next, flowItems_end fuel h false, Keeps.next h, rfl⟩
  | d :: items, hds => by
    intro r rest n fuel h hfuel hn
    obtain ⟨-, hd, hitems⟩ := hds
    obtain ⟨t, ts, hcons, ht, -⟩ := flowTokens_eq_cons d
    simp only [flowItemTokens, List.cons_append, List.append_assoc, List.length_cons, List.length_append] at h hfuel
    obtain ⟨fuel, rfl⟩ : ∃ m, fuel = m + 1 := ⟨fuel - 1, by omega⟩
    obtain ⟨ns, r', hread, hkeeps, hshows⟩ := items_cons fuel (reads_flow d hd) (reads_flowItems items hitems)
      (tokens_next h) (by omega) hn
    rw [hcons] at h
    exact ⟨ns, r', (flowItems_next h ht).trans hread, (Keeps.next h).trans hkeeps, hshows⟩

theorem reads_flowFields : ∀ es : List (String × Document), RegularFields es → FieldsAreReadInFlow es
  | [], _ => by
    intro r rest n fuel h hfuel _
    obtain ⟨fuel, rfl⟩ : ∃ m, fuel = m + 1 := ⟨fuel - 1, by omega⟩
    exact ⟨[], r.next, flowEntries_end fuel h false, Keeps.next h, rfl⟩
  | (k, d) :: entries, hes => by
    intro r rest n fuel h hfuel hn
    obtain ⟨-, hd, hentries⟩ := hes
    simp only [flowFieldTokens, List.cons_append, List.append_assoc, List.length_cons, List.length_append] at h hfuel
    obtain ⟨fuel, rfl⟩ : ∃ m, fuel = m + 1 := ⟨fuel - 1, by omega⟩
    obtain ⟨ps, r', hread, hkeeps, hshows⟩ := fields_cons fuel (reads_flow d hd)
      (reads_flowFields entries hentries) (tokens_next h) (by omega) hn
    exact ⟨ps, r', (flowEntries_next h).trans hread, (Keeps.next h).trans hkeeps, hshows⟩

end

/-! ## Blocks -/

section
variable {tok : String → Token} {f : String → String}

/-- The tokens of texts are scalars of kind text. -/
def TokensOf (tok : String → Token) (f : String → String) : Prop :=
  ∀ s, ∃ isPlain, tok s = .scalar (f s) isPlain ∧ (isPlain = true → Kind.ofPlain (f s) = .str)

theorem blockTokens_eq_cons (htok : TokensOf tok f) (d : Document) :
    ∃ t ts, d.blockTokens tok = t :: ts ∧ opens t = true ∧ (d.IsMapping → t = .blockMappingStart) := by
  cases d with
  | text s =>
    obtain ⟨isPlain, hs, -⟩ := htok s
    exact ⟨_, _, rfl, by rw [hs]; rfl, nofun⟩
  | list items =>
    cases items with
    | nil => exact ⟨_, _, rfl, rfl, nofun⟩
    | cons d items => exact ⟨_, _, rfl, rfl, nofun⟩
  | fields entries => exact ⟨_, _, rfl, rfl, fun _ => rfl⟩

/-- What may follow the entries of a list. -/
def EndsEntries (rest : List Token) : Prop := ∃ t ts, rest = t :: ts ∧ t ≠ .blockEntry

theorem endsEntries_pairs (tok : String → Token) (es : List (String × Document)) (rest : List Token) :
    EndsEntries (pairTokens tok es ++ .blockEnd :: rest) := by
  cases es with
  | nil => exact ⟨_, _, rfl, nofun⟩
  | cons e es => exact ⟨_, _, rfl, nofun⟩

/-- The value of a field, or a mapping, is read of its tokens in blocks. -/
def IsReadInBlock (tok : String → Token) (f : String → String) (d : Document) : Prop :=
  ∀ ⦃r : Reader⦄ ⦃rest : List Token⦄ (fuel : Nat) (bare : Bool), r.tokens = d.blockTokens tok ++ rest →
    4 * (d.blockTokens tok).length ≤ fuel → (bare = true ∧ EndsEntries rest) ∨ d.IsMapping →
    ∃ r', node fuel true bare r = .ok (r.graph.size, r') ∧ Reads r r' (d.mapTexts f) rest

def AreReadInBlock (tok : String → Token) (f : String → String) (ds : List Document) : Prop :=
  ∀ ⦃r : Reader⦄ ⦃rest : List Token⦄ ⦃n : Nat⦄ (fuel : Nat), r.tokens = entryTokens tok ds ++ rest →
    EndsEntries rest → 4 * (entryTokens tok ds).length + 1 ≤ fuel → n < r.graph.size →
    ∃ ns r', bareEntries fuel r = .ok (ns, r') ∧ Keeps r r' rest ∧ ShowsItems r'.graph n ns (mapItems f ds)

def FieldsAreReadInBlock (tok : String → Token) (f : String → String) (es : List (String × Document)) : Prop :=
  ∀ ⦃r : Reader⦄ ⦃rest : List Token⦄ ⦃n : Nat⦄ (fuel : Nat), r.tokens = pairTokens tok es ++ .blockEnd :: rest →
    4 * (pairTokens tok es).length + 4 ≤ fuel → n < r.graph.size →
    ∃ ps r', blockPairs fuel r = .ok (ps, r') ∧ Keeps r r' rest ∧ ShowsFields r'.graph n ps (mapFields f es)

/-- An entry and those behind it. -/
theorem entries_cons {ds : List Document} {n : Nat} (htok : TokensOf tok f) (fuel : Nat) (hmap : d.IsMapping)
    (hd : IsReadInBlock tok f d) (hds : AreReadInBlock tok f ds) (h : r.tokens = entryTokens tok (d :: ds) ++ rest)
    (hrest : EndsEntries rest) (hfuel : 4 * (entryTokens tok (d :: ds)).length ≤ fuel + 2) (hn : n < r.graph.size) :
    ∃ ns r', bareEntries fuel r = .ok (ns, r') ∧ Keeps r r' rest ∧ ShowsItems r'.graph n ns (mapItems f (d :: ds)) := by
  obtain ⟨t, ts, hcons, ht, hmark⟩ := blockTokens_eq_cons htok d
  obtain rfl := hmark hmap
  simp only [entryTokens, List.cons_append, List.append_assoc, List.length_cons, List.length_append] at h hfuel
  obtain ⟨fuel, rfl⟩ : ∃ m, fuel = m + 2 := ⟨fuel - 2, by omega⟩
  have hnext := tokens_next h
  obtain ⟨r₁, hnode, h₁⟩ := hd fuel false hnext (by omega) (.inr hmap)
  obtain ⟨ns, r₂, hrest, h₂, hshows⟩ := hds (fuel + 1) h₁.tokens hrest (by omega) (Nat.lt_of_lt_of_le hn h₁.size)
  refine ⟨r.graph.size :: ns, r₂, ?_, (Keeps.next h).trans (h₁.toKeeps.trans h₂),
    showsItems_cons hn (h₂.shows h₁.shows) hshows⟩
  rw [hcons] at hnext
  have hends : Token.blockMappingStart ∉ [Token.blockEntry, .key, .value, .blockEnd] := by decide
  rw [bareEntries, isAt_of_cons h]
  simp only [bind, Except.bind, nodeUnless_of_cons hnext hends, hnode, hrest]
  rfl

/-- A field and those behind it. -/
theorem pairs_cons {k : String} {es : List (String × Document)} {n : Nat} (htok : TokensOf tok f) (fuel : Nat)
    (hk : IsName k) (hd : IsReadInBlock tok f d) (hes : FieldsAreReadInBlock tok f es)
    (h : r.tokens = pairTokens tok ((k, d) :: es) ++ .blockEnd :: rest)
    (hfuel : 4 * (pairTokens tok ((k, d) :: es)).length + 4 ≤ fuel) (hn : n < r.graph.size) :
    ∃ ps r', blockPairs fuel r = .ok (ps, r') ∧ Keeps r r' rest ∧
      ShowsFields r'.graph n ps (mapFields f ((k, d) :: es)) := by
  obtain ⟨t, ts, hcons, ht, -⟩ := blockTokens_eq_cons htok d
  simp only [pairTokens, List.cons_append, List.append_assoc, List.length_cons, List.length_append] at h hfuel
  obtain ⟨fuel, rfl⟩ : ∃ m, fuel = m + 4 := ⟨fuel - 4, by omega⟩
  have hkeys := tokens_next h
  obtain ⟨r₁, hkey, h₁⟩ := node_scalar (fuel + 2) hkeys (fun _ => hk.kind) (by omega) true true
  have hvalues := tokens_next h₁.tokens
  obtain ⟨r₂, hvalue, h₂⟩ := hd (fuel + 1) true hvalues (by omega) (.inl ⟨rfl, endsEntries_pairs tok es rest⟩)
  have hkeeps : Keeps r r₂ _ := ((Keeps.next h).trans h₁.toKeeps).trans ((Keeps.next h₁.tokens).trans h₂.toKeeps)
  obtain ⟨ps, r₃, hpairs, h₃, hshows⟩ := hes (fuel + 3) h₂.tokens (by omega) (Nat.lt_of_lt_of_le hn hkeeps.size)
  rw [hcons] at hvalues
  refine ⟨(r.graph.size, r₁.graph.size) :: ps, r₃, ?_, hkeeps.trans h₃, ShowsPair.cons (h₃.showsPair ?_) hshows⟩
  · have hends : ∀ t, opens t = true → t ∉ [Token.key, .value, .blockEnd] := fun t ht => not_mem_of_opens ht (by decide)
    rw [blockPairs, isAt_of_cons h]
    simp only [bind, Except.bind, nodeUnless_of_cons hkeys (hends _ rfl), hkey, blockValue, isAt_of_cons h₁.tokens,
      nodeUnless_of_cons hvalues (hends t ht), hvalue, List.contains_cons, BEq.rfl, Bool.true_or, if_true, hpairs]
    rfl
  · have hsize : r.graph.size < r₁.graph.size := lt_size_of_getElem? h₁.shows
    refine ⟨hn, Nat.lt_trans hn hsize, ?_, h₂.shows⟩
    exact ((Keeps.next h₁.tokens).trans h₂.toKeeps).shows (d := .text k) h₁.shows

mutual

/-- Every document is read of its tokens in blocks. -/
theorem reads_block (htok : TokensOf tok f) : ∀ d : Document, d.Regular → IsReadInBlock tok f d
  | .text s, _ => by
    intro r rest fuel bare h hfuel _
    obtain ⟨isPlain, hs, hkind⟩ := htok s
    rw [blockTokens, hs] at h
    refine node_scalar fuel h hkind ?_ true bare
    simp only [blockTokens, List.length_singleton] at hfuel
    omega
  | .list [], _ => by
    intro r rest fuel bare h hfuel _
    exact reads_flow (.list []) trivial fuel true bare h hfuel
  | .list (d :: items), hd => by
    intro r rest fuel bare h hfuel hplace
    obtain ⟨hmap, hfirst, hitems⟩ := hd
    obtain ⟨rfl, hrest⟩ := hplace.resolve_right id
    have hopens : r.tokens = .blockEntry :: (d.blockTokens tok ++ entryTokens tok items ++ rest) := by
      simpa [blockTokens, entryTokens] using h
    obtain ⟨fuel, rfl⟩ : ∃ m, fuel = m + 3 := ⟨fuel - 3, by simp [blockTokens, entryTokens] at hfuel; omega⟩
    have hsize := lt_size_of_getElem? (getElem?_add r .seq (.list []))
    obtain ⟨ns, r₁, hread, h₁, hshows⟩ := entries_cons (r := (r.add .seq (.list [])).2) htok (fuel + 1) hmap
      (reads_block htok d hfirst) (reads_entries htok items hitems) h hrest (by rwa [blockTokens] at hfuel) hsize
    obtain ⟨r', hnode, hreads⟩ := listNode_ok ⟨ns, r₁, hread, h₁, hshows⟩
    refine ⟨r', ?_, hreads⟩
    rw [node_of_opens hopens rfl, content]
    exact hnode
  | .fields entries, hd => by
    intro r rest fuel bare h hfuel _
    obtain ⟨-, -, hentries⟩ := hd
    simp only [blockTokens, List.cons_append, List.append_assoc, List.nil_append, List.length_cons, List.length_append,
      List.length_nil] at h hfuel
    obtain ⟨fuel, rfl⟩ : ∃ m, fuel = m + 3 := ⟨fuel - 3, by omega⟩
    have hnext : (r.next.add .map (.map [])).2.tokens = _ := tokens_next h
    have hsize := lt_size_of_getElem? (getElem?_add r.next .map (.map []))
    obtain ⟨ps, r₁, hread, h₁, hshows⟩ := reads_pairs htok entries hentries (fuel + 1) hnext (by omega) hsize
    obtain ⟨r', hnode, hreads⟩ := mapNode_ok ⟨ps, r₁, hread, h₁, hshows⟩
    refine ⟨r', ?_, (Keeps.next h).trans hreads.toKeeps, hreads.shows⟩
    rw [node_of_opens h rfl, content]
    exact hnode

theorem reads_entries (htok : TokensOf tok f) : ∀ ds : List Document, RegularItems ds → AreReadInBlock tok f ds
  | [], _ => by
    intro r rest n fuel h hrest hfuel _
    obtain ⟨t, ts, rfl, ht⟩ := hrest
    obtain ⟨fuel, rfl⟩ : ∃ m, fuel = m + 1 := ⟨fuel - 1, by omega⟩
    refine ⟨[], r, ?_, ⟨h, rfl, Nat.le_refl _, fun _ _ => rfl⟩, rfl⟩
    rw [bareEntries, isAt_of_cons h]
    simp [bind, Except.bind, pure, Except.pure, ht]
  | d :: items, hds => by
    intro r rest n fuel h hrest hfuel hn
    obtain ⟨hmap, hd, hitems⟩ := hds
    exact entries_cons htok fuel hmap (reads_block htok d hd) (reads_entries htok items hitems) h hrest (by omega) hn

theorem reads_pairs (htok : TokensOf tok f) : ∀ es : List (String × Document), RegularFields es →
    FieldsAreReadInBlock tok f es
  | [], _ => by
    intro r rest n fuel h hfuel _
    obtain ⟨fuel, rfl⟩ : ∃ m, fuel = m + 1 := ⟨fuel - 1, by omega⟩
    have hend : r.tokens = .blockEnd :: rest := h
    refine ⟨[], r.next, ?_, Keeps.next h, rfl⟩
    rw [blockPairs, isAt_of_cons hend, expect_of_cons hend]
    rfl
  | (k, d) :: entries, hes => by
    intro r rest n fuel h hfuel hn
    obtain ⟨hk, hd, hentries⟩ := hes
    exact pairs_cons htok fuel hk (reads_block htok d hd) (reads_pairs htok entries hentries) h hfuel hn

end

end

/-! ## Whole documents -/

/-- A document that is read up to the end is the only one. -/
theorem onlyDocument_of_reads (h : r.tokens = t :: ts) (hfault : r.fault = none) (ht : opens t = true)
    (hsize : r.graph.size = 0)
    (hread : ∃ r', node r.budget true false { r with handles := usualHandles } = .ok (r.graph.size, r') ∧
      Reads { r with handles := usualHandles } r' d []) :
    ∃ g, r.onlyDocument = .ok (0, g) ∧ Shows g 0 d := by
  obtain ⟨r', hnode, hreads⟩ := hread
  have hstart : isDocumentStart t = false := by
    cases t <;> first | rfl | cases ht
  have hend : r'.peek = .ok none := by
    rw [peek, hreads.tokens, hreads.fault, show ({ r with handles := usualHandles } : Reader).fault = none from hfault]
  refine ⟨r'.graph, ?_, by simpa [hsize] using hreads.shows⟩
  have hends : documentEnds r'.budget r' = .ok r' := by
    rw [budget, documentEnds, isAt, sees, hend]
    rfl
  simp [onlyDocument, document, peek_of_cons h, sees, bind, Except.bind, pure, Except.pure, hstart, hnode, hends, hend,
    hsize]

/-- The tokens of a document in flows are read as the document. -/
theorem onlyDocument_flow (hd : d.Regular) : ∃ g, onlyDocument ⟨d.flowTokens, none, [], [], #[]⟩ = .ok (0, g) ∧
    Shows g 0 d := by
  obtain ⟨t, ts, hcons, ht, -⟩ := flowTokens_eq_cons d
  refine onlyDocument_of_reads (r := ⟨d.flowTokens, none, [], [], #[]⟩) hcons rfl ht rfl ?_
  exact reads_flow d hd _ true false (List.append_nil _).symm (Nat.le_add_right ..)

/-- The tokens of a mapping in blocks are read as the mapping with other texts. -/
theorem onlyDocument_block {tok : String → Token} {f : String → String} (htok : TokensOf tok f) (hd : d.Regular)
    (hmap : d.IsMapping) : ∃ g, onlyDocument ⟨d.blockTokens tok, none, [], [], #[]⟩ = .ok (0, g) ∧
      Shows g 0 (d.mapTexts f) := by
  obtain ⟨t, ts, hcons, ht, -⟩ := blockTokens_eq_cons htok d
  refine onlyDocument_of_reads (r := ⟨d.blockTokens tok, none, [], [], #[]⟩) hcons rfl ht rfl ?_
  exact reads_block htok d hd _ false (List.append_nil _).symm (Nat.le_add_right ..) (.inr hmap)

end Reader

end Entail.Yaml
