import Entail.Proofs.Yaml.Faults

/-!
# Texts with a fault are not read

* `Reader.KeepsFault fault fuel` : the fault behind the tokens stays while nodes are read, function by function of the
  grammar;
* `Reader.fault_of_onlyDocument` : no document is read of tokens with a fault behind them, since a document is the only
  one when the end of the tokens is met behind it.
-/

namespace Entail.Yaml.Reader

variable {fault : Option Fault} {r : Reader} {α : Type}

/-- The fault behind the tokens is the same after a step. -/
abbrev Stays (fault : Option Fault) (x : Except Fault (α × Reader)) : Prop :=
  Steps (fun y => y.2.fault = fault) (fun _ => True) x

abbrev StaysAt (fault : Option Fault) (x : Except Fault Reader) : Prop :=
  Steps (fun r => r.fault = fault) (fun _ => True) x

theorem steps_true {ε β : Type} (x : Except ε β) : Steps (fun _ => True) (fun _ => True) x :=
  ⟨fun _ _ => trivial, fun _ _ => trivial⟩

/-! ## Steps that take tokens -/

theorem stays_expect (h : r.fault = fault) (t : Token) : StaysAt fault (r.expect t) := by
  refine (steps_true (r.isAt [t])).bind fun isAt _ => ?_
  split_ifs
  · exact .pure h
  · exact .fail trivial

theorem stays_anchor (h : r.fault = fault) : Stays fault r.anchor := by
  refine (steps_true r.peek).bind fun t _ => ?_
  split
  · exact .pure h
  · exact .pure h

theorem stays_tag (h : r.fault = fault) : Stays fault r.tag := by
  refine (steps_true r.peek).bind fun t _ => ?_
  split
  · exact .pure h
  · exact .pure h

theorem stays_properties (h : r.fault = fault) : Stays fault r.properties := by
  refine (stays_anchor h).bind fun a ha => (stays_tag ha).bind fun t ht => ?_
  simp only
  split
  · exact (stays_anchor ht).bind fun b hb => .pure hb
  · exact .pure ht

theorem stays_declare (h : r.fault = fault) (a : Option String) : StaysAt fault (r.declare a) := by
  cases a with
  | none => exact .pure h
  | some a =>
    rw [declare]
    split_ifs
    · exact .fail trivial
    · exact .pure h

theorem stays_emptyContent (h : r.fault = fault) (hasProperties : Bool) (tag : Option String) :
    Stays fault (emptyContent hasProperties tag r) := by
  rw [emptyContent]
  split_ifs
  · exact .pure h
  · exact .fail trivial

theorem stays_listNode {items : Reader → Except Fault (List Nat × Reader)}
    (hitems : ∀ r, r.fault = fault → Stays fault (items r)) (h : r.fault = fault) (tag : Option String) :
    Stays fault (listNode tag items r) := by
  refine (hitems (r.add _ _).2 h).bind fun x hx => ?_
  exact .pure hx

theorem stays_mapNode {entries : Reader → Except Fault (List (Nat × Nat) × Reader)}
    (hentries : ∀ r, r.fault = fault → Stays fault (entries r)) (h : r.fault = fault) (tag : Option String) :
    Stays fault (mapNode tag entries r) := by
  refine (hentries (r.add _ _).2 h).bind fun x hx => ?_
  exact .pure hx

/-! ## Nodes -/

structure KeepsFault (fault : Option Fault) (fuel : Nat) : Prop where
  node : ∀ inBlock bare r, r.fault = fault → Stays fault (node fuel inBlock bare r)
  content : ∀ inBlock bare hasProperties tag following r, r.fault = fault →
    Stays fault (content fuel inBlock bare hasProperties tag following r)
  nodeUnless : ∀ inBlock bare ends r, r.fault = fault → Stays fault (nodeUnless fuel inBlock bare ends r)
  blockEntries : ∀ r, r.fault = fault → Stays fault (blockEntries fuel r)
  bareEntries : ∀ r, r.fault = fault → Stays fault (bareEntries fuel r)
  blockValue : ∀ r, r.fault = fault → Stays fault (blockValue fuel r)
  blockPairs : ∀ r, r.fault = fault → Stays fault (blockPairs fuel r)
  flowValue : ∀ ending r, r.fault = fault → Stays fault (flowValue fuel ending r)
  flowPair : ∀ ending r, r.fault = fault → Stays fault (flowPair fuel ending r)
  flowItems : ∀ isFirst r, r.fault = fault → Stays fault (flowItems fuel isFirst r)
  flowEntries : ∀ isFirst r, r.fault = fault → Stays fault (flowEntries fuel isFirst r)

namespace KeepsFault

variable {fuel : Nat}

theorem zero : KeepsFault fault 0 := by
  constructor <;> intros <;> exact .fail trivial

theorem node_succ (h : KeepsFault fault fuel) (inBlock bare : Bool) (hr : r.fault = fault) :
    Stays fault (Reader.node (fuel + 1) inBlock bare r) := by
  rw [Reader.node]
  refine (steps_true r.peek).bind fun t _ => ?_
  split
  · exact (steps_true _).bind fun n _ => .pure hr
  · refine (stays_properties hr).bind fun x hx => (steps_true _).bind fun tag _ => (steps_true _).bind fun t _ => ?_
    exact (stays_declare hx _).bind fun s hs => h.content _ _ _ _ _ s hs

theorem content_succ (h : KeepsFault fault fuel) (inBlock bare hasProperties : Bool) (tag : Option String)
    (following : Option Token) (hr : r.fault = fault) :
    Stays fault (Reader.content (fuel + 1) inBlock bare hasProperties tag following r) := by
  have hempty := stays_emptyContent hr hasProperties tag
  have hnext : r.next.fault = fault := hr
  rw [Reader.content.eq_def]
  simp only
  split
  · exact .pure hr
  · split_ifs
    · exact stays_listNode h.bareEntries hr tag
    · exact hempty
  · exact stays_listNode (h.flowItems true) hnext tag
  · exact stays_mapNode (h.flowEntries true) hnext tag
  · split_ifs
    · exact stays_listNode h.blockEntries hnext tag
    · exact hempty
  · split_ifs
    · exact stays_mapNode h.blockPairs hnext tag
    · exact hempty
  · exact hempty

theorem nodeUnless_succ (h : KeepsFault fault fuel) (inBlock bare : Bool) (ends : List Token) (hr : r.fault = fault) :
    Stays fault (Reader.nodeUnless (fuel + 1) inBlock bare ends r) := by
  rw [Reader.nodeUnless]
  refine (steps_true _).bind fun isEnd _ => ?_
  split_ifs
  · exact .pure hr
  · exact h.node _ _ r hr

theorem blockEntries_succ (h : KeepsFault fault fuel) (hr : r.fault = fault) :
    Stays fault (Reader.blockEntries (fuel + 1) r) := by
  rw [Reader.blockEntries]
  refine (steps_true _).bind fun isEntry _ => ?_
  split_ifs
  · refine (h.nodeUnless _ _ _ r.next hr).bind fun x hx => (h.blockEntries _ hx).bind fun y hy => ?_
    exact .pure hy
  · refine (stays_expect hr _).bind fun s hs => ?_
    exact .pure hs

theorem bareEntries_succ (h : KeepsFault fault fuel) (hr : r.fault = fault) :
    Stays fault (Reader.bareEntries (fuel + 1) r) := by
  rw [Reader.bareEntries]
  refine (steps_true _).bind fun isEntry _ => ?_
  split_ifs
  · refine (h.nodeUnless _ _ _ r.next hr).bind fun x hx => (h.bareEntries _ hx).bind fun y hy => ?_
    exact .pure hy
  · exact .pure hr

theorem blockValue_succ (h : KeepsFault fault fuel) (hr : r.fault = fault) :
    Stays fault (Reader.blockValue (fuel + 1) r) := by
  rw [Reader.blockValue]
  refine (steps_true _).bind fun isValue _ => ?_
  split_ifs
  · exact h.nodeUnless _ _ _ r.next hr
  · exact .pure hr

theorem blockPairs_succ (h : KeepsFault fault fuel) (hr : r.fault = fault) :
    Stays fault (Reader.blockPairs (fuel + 1) r) := by
  rw [Reader.blockPairs]
  refine (steps_true _).bind fun isKey _ => ?_
  split_ifs
  · refine (h.nodeUnless _ _ _ r.next hr).bind fun k hk => (h.blockValue _ hk).bind fun v hv => ?_
    refine (h.blockPairs _ hv).bind fun es hes => ?_
    exact .pure hes
  · refine (stays_expect hr _).bind fun s hs => ?_
    exact .pure hs

theorem flowValue_succ (h : KeepsFault fault fuel) (ending : Token) (hr : r.fault = fault) :
    Stays fault (Reader.flowValue (fuel + 1) ending r) := by
  rw [Reader.flowValue]
  refine (steps_true _).bind fun isValue _ => ?_
  split_ifs
  · exact h.nodeUnless _ _ _ r.next hr
  · exact .pure hr

theorem flowPair_succ (h : KeepsFault fault fuel) (ending : Token) (hr : r.fault = fault) :
    Stays fault (Reader.flowPair (fuel + 1) ending r) := by
  rw [Reader.flowPair]
  refine (h.nodeUnless _ _ _ r.next hr).bind fun k hk => (h.flowValue ending _ hk).bind fun v hv => ?_
  exact .pure hv

/-- What follows the comma in front of an item that is not the first. -/
theorem steps_comma {β : Type} {P : β → Prop} {f : Reader → Except Fault β} (isFirst : Bool) (hr : r.fault = fault)
    (hf : ∀ s : Reader, s.fault = fault → Steps P (fun _ => True) (f s)) :
    Steps P (fun _ => True) (if isFirst then pure r >>= f else r.expect .flowEntry >>= f) := by
  split_ifs
  · exact hf r hr
  · exact (stays_expect hr _).bind hf

theorem flowItems_succ (h : KeepsFault fault fuel) (isFirst : Bool) (hr : r.fault = fault) :
    Stays fault (Reader.flowItems (fuel + 1) isFirst r) := by
  rw [Reader.flowItems]
  refine (steps_true _).bind fun isEnd _ => ?_
  split
  · exact .pure hr
  · refine steps_comma isFirst hr fun s hs => (steps_true _).bind fun isEnd _ => ?_
    split
    · exact .pure hs
    · refine (steps_true _).bind fun isKey _ => ?_
      have hrest : ∀ x : Nat × Reader, x.2.fault = fault → Stays fault (do
          let y ← Reader.flowItems fuel false x.2
          return (x.1 :: y.1, y.2)) := fun x hx => (h.flowItems false x.2 hx).bind fun y hy => .pure hy
      cases isKey with
      | true => exact (h.flowPair _ (s.add .map (.map [])).2 hs).bind fun e he => hrest (_, e.2.fill _ _) he
      | false => exact (h.node _ _ s hs).bind hrest

theorem flowEntries_succ (h : KeepsFault fault fuel) (isFirst : Bool) (hr : r.fault = fault) :
    Stays fault (Reader.flowEntries (fuel + 1) isFirst r) := by
  rw [Reader.flowEntries]
  refine (steps_true _).bind fun isEnd _ => ?_
  split
  · exact .pure hr
  · refine steps_comma isFirst hr fun s hs => (steps_true _).bind fun isEnd _ => ?_
    split
    · exact .pure hs
    · refine (steps_true _).bind fun isKey _ => ?_
      have hrest : ∀ x : (Nat × Nat) × Reader, x.2.fault = fault → Stays fault (do
          let y ← Reader.flowEntries fuel false x.2
          return (x.1 :: y.1, y.2)) := fun x hx => (h.flowEntries false x.2 hx).bind fun y hy => .pure hy
      cases isKey with
      | true => exact (h.flowPair _ s hs).bind hrest
      | false => exact (h.node _ _ s hs).bind fun k hk => hrest ((k.1, _), k.2.addEmpty.2) hk

end KeepsFault

theorem keepsFault (fault : Option Fault) (fuel : Nat) : KeepsFault fault fuel := by
  induction fuel with
  | zero => exact .zero
  | succ fuel ih =>
    exact {
      node := fun inBlock bare r hr => ih.node_succ inBlock bare hr
      content := fun inBlock bare hasProperties tag following r hr =>
        ih.content_succ inBlock bare hasProperties tag following hr
      nodeUnless := fun inBlock bare ends r hr => ih.nodeUnless_succ inBlock bare ends hr
      blockEntries := fun r hr => ih.blockEntries_succ hr
      bareEntries := fun r hr => ih.bareEntries_succ hr
      blockValue := fun r hr => ih.blockValue_succ hr
      blockPairs := fun r hr => ih.blockPairs_succ hr
      flowValue := fun ending r hr => ih.flowValue_succ ending hr
      flowPair := fun ending r hr => ih.flowPair_succ ending hr
      flowItems := fun isFirst r hr => ih.flowItems_succ isFirst hr
      flowEntries := fun isFirst r hr => ih.flowEntries_succ isFirst hr }

/-! ## Documents -/

theorem stays_directives (fuel : Nat) (hasVersion : Bool) (h : r.fault = fault) :
    StaysAt fault (directives fuel hasVersion r) := by
  induction fuel generalizing hasVersion r with
  | zero => exact .pure h
  | succ fuel ih =>
    rw [directives]
    refine (steps_true _).bind fun t _ => ?_
    split
    · split
      · split_ifs
        · exact .fail trivial
        · exact ih true h
      · split_ifs
        · exact .fail trivial
        · exact ih hasVersion h
      · exact ih hasVersion h
    · exact .pure h

theorem stays_documentStart (h : r.fault = fault) : StaysAt fault r.documentStart := by
  have hstart : ({ r with handles := [] } : Reader).fault = fault := h
  refine (stays_directives r.budget false hstart).bind fun s hs => (stays_expect hs _).bind fun s' hs' => ?_
  exact .pure hs'

theorem stays_document (h : r.fault = fault) : Stays fault r.document := by
  refine (steps_true _).bind fun starts _ => ?_
  split_ifs
  · refine (stays_documentStart h).bind fun s hs => (steps_true _).bind fun t _ => ?_
    refine (steps_true _).bind fun isEdge _ => ?_
    split_ifs
    · exact .pure hs
    · exact (keepsFault fault _).node _ _ s hs
  · exact (keepsFault fault _).node _ _ _ h

theorem stays_documentEnds (fuel : Nat) (h : r.fault = fault) : StaysAt fault (documentEnds fuel r) := by
  induction fuel generalizing r with
  | zero => exact .pure h
  | succ fuel ih =>
    rw [documentEnds]
    refine (steps_true _).bind fun isEnd _ => ?_
    split_ifs
    · exact ih h
    · exact .pure h

/-- At the end of the tokens a fault behind them is met. -/
theorem steps_peek (r : Reader) : Steps (fun t => t = none → r.fault = none) (fun _ => True) r.peek := by
  unfold peek
  split
  · exact .pure nofun
  · exact .pure fun _ => ‹_›
  · exact .fail trivial

/-- No document is read of tokens with a fault behind them. -/
theorem fault_of_onlyDocument {x : Nat × Graph} (h : r.onlyDocument = .ok x) : r.fault = none := by
  have hsteps : Steps (fun _ : Nat × Graph => r.fault = none) (fun _ => True) r.onlyDocument := by
    refine (steps_peek r).bind fun t ht => ?_
    split
    · exact .pure (ht (Option.isNone_iff_eq_none.1 ‹_›))
    · refine (stays_document rfl).bind fun x hx => (stays_documentEnds _ hx).bind fun s hs => ?_
      refine (steps_peek s).bind fun t ht => ?_
      split
      · exact (steps_true _).bind fun _ _ => .fail trivial
      · exact .pure (hs ▸ ht (Option.not_isSome_iff_eq_none.1 ‹_›))
  exact hsteps.ok x h

end Entail.Yaml.Reader
