import Entail.Coded.Naming
import Entail.Proofs.Symbols

/-!
# What coded atoms and rules read as

* `Term.Reads`, `Atom.Reads`, `Clause.Reads`, `Rule.Reads` : a coded thing stands for a written one, under a table and
  the names of the slots; kept when table and names grow (`mono`), one to one when neither repeats a name (`inj`);
* `Reads.decode` : decoding gives the written form;
* `Atom.encode_reads`, `Rule.encode_reads` : encoding gives a coded form;
* `Atom.lookup?_eq_some_iff` : looking up a ground atom finds its coded form, if the table has its names;
* `instantiate` : slots replaced by symbols, variables by constants, and `Atom.Reads.instantiate` between the two.
-/

namespace Entail

/-! ## Lists side by side -/

section
variable {α β ε : Type} {R : α → β → Prop} {xs : List α} {ys : List β}

theorem exists_right_of_forall₂ (h : List.Forall₂ R xs ys) {x : α} (hx : x ∈ xs) : ∃ y ∈ ys, R x y := by
  induction h with
  | nil => cases hx
  | cons hr _ ih =>
    rcases List.mem_cons.1 hx with rfl | hx
    · exact ⟨_, List.mem_cons_self, hr⟩
    · obtain ⟨y, hy, hr⟩ := ih hx
      exact ⟨y, List.mem_cons_of_mem _ hy, hr⟩

theorem exists_left_of_forall₂ (h : List.Forall₂ R xs ys) {y : β} (hy : y ∈ ys) : ∃ x ∈ xs, R x y :=
  exists_right_of_forall₂ (R := flip R) h.flip hy

theorem exists_forall₂ (h : ∀ x ∈ xs, ∃ y, R x y) : ∃ ys, List.Forall₂ R xs ys := by
  induction xs with
  | nil => exact ⟨[], .nil⟩
  | cons x xs ih =>
    obtain ⟨y, hy⟩ := h x List.mem_cons_self
    obtain ⟨ys, hys⟩ := ih fun z hz => h z (List.mem_cons_of_mem _ hz)
    exact ⟨y :: ys, .cons hy hys⟩

/-- The first entry with the key of an entry is that entry, if no key stands twice. -/
theorem find?_key_of_mem [DecidableEq α] {es : List (α × β)} (hn : (es.map (·.1)).Nodup) {e : α × β} (he : e ∈ es) :
    es.find? (fun f => f.1 = e.1) = some e := by
  obtain ⟨earlier, later, rfl⟩ := List.append_of_mem he
  rw [List.find?_append, List.find?_eq_none.2, Option.none_or, List.find?_cons_of_pos (by simp)]
  intro f hf hfe
  simp only [decide_eq_true_eq] at hfe
  rw [List.map_append, List.nodup_append] at hn
  exact hn.2.2 f.1 (List.mem_map_of_mem hf) e.1 (by simp) hfe

/-- Two lists each beside a third one are side by side. -/
theorem forall₂_of_common {γ : Type} {S : α → γ → Prop} {zs : List γ} (h : List.Forall₂ R xs ys)
    (h' : List.Forall₂ S xs zs) : List.Forall₂ (fun y z => ∃ x ∈ xs, R x y ∧ S x z) ys zs := by
  induction h generalizing zs with
  | nil =>
    cases h'
    exact .nil
  | @cons x y xs ys hxy _ ih =>
    obtain _ | ⟨hxz, hrest⟩ := h'
    refine .cons ⟨x, List.mem_cons_self, hxy, hxz⟩ ((ih hrest).imp ?_)
    rintro y z ⟨w, hw, hwyz⟩
    exact ⟨w, List.mem_cons_of_mem _ hw, hwyz⟩

theorem mapM_eq_ok_iff {f : α → Except ε β} :
    xs.mapM f = .ok ys ↔ List.Forall₂ (fun x y => f x = .ok y) xs ys := by
  induction xs generalizing ys with
  | nil => simp [pure, Except.pure, eq_comm]
  | cons x xs ih =>
    rw [List.mapM_cons, List.forall₂_cons_left_iff]
    cases hx : f x with
    | error e => simp [bind, Except.bind]
    | ok y =>
      cases hxs : xs.mapM f with
      | error e =>
        have hnone : ∀ zs, ¬ List.Forall₂ (fun x y => f x = .ok y) xs zs := fun zs hzs => by
          rw [ih.2 hzs] at hxs
          cases hxs
        simp [bind, Except.bind, hnone]
      | ok zs =>
        have hzs := ih.1 hxs
        simp only [bind, Except.bind, pure, Except.pure, Except.ok.injEq]
        constructor
        · rintro rfl
          exact ⟨y, zs, rfl, hzs, rfl⟩
        · rintro ⟨y', zs', rfl, hzs', rfl⟩
          rw [Except.ok.inj (hxs.symm.trans (ih.2 hzs'))]

theorem mapM_eq_ok {f : α → Except ε β} (h : List.Forall₂ (fun x y => f x = .ok y) xs ys) : xs.mapM f = .ok ys :=
  mapM_eq_ok_iff.2 h

theorem map_eq_ok_iff {x : Except ε α} {f : α → β} {b : β} : x.map f = .ok b ↔ ∃ a, x = .ok a ∧ f a = b := by
  cases x <;> simp [Except.map]

theorem bind_eq_ok_iff {x : Except ε α} {f : α → Except ε β} {b : β} :
    x >>= f = .ok b ↔ ∃ a, x = .ok a ∧ f a = .ok b := by
  cases x <;> simp [bind, Except.bind]

theorem mapM_eq_some {f : α → Option β} :
    xs.mapM f = some ys ↔ List.Forall₂ (fun x y => f x = some y) xs ys := by
  induction xs generalizing ys with
  | nil => simp [eq_comm]
  | cons x xs ih =>
    simp only [List.mapM_cons, List.forall₂_cons_left_iff, Option.bind_eq_bind, Option.bind_eq_some_iff, ih,
      Option.pure_def, Option.some.injEq]
    constructor
    · rintro ⟨y, hy, zs, hzs, rfl⟩
      exact ⟨y, zs, hy, hzs, rfl⟩
    · rintro ⟨y, zs, hy, hzs, rfl⟩
      exact ⟨y, hy, zs, hzs, rfl⟩

theorem mapM_congr {f g : α → Option β} (h : ∀ x ∈ xs, f x = g x) : xs.mapM f = xs.mapM g := by
  induction xs with
  | nil => rfl
  | cons x xs ih =>
    rw [List.mapM_cons, List.mapM_cons, h x List.mem_cons_self, ih fun z hz => h z (List.mem_cons_of_mem _ hz)]

end

/-! ## Instances -/

namespace Term

def instantiate (σ : String → String) : Term → Term
  | .var v => .const (σ v)
  | .const n => .const n

end Term

namespace Atom

def instantiate (σ : String → String) (a : Atom) : Atom := ⟨a.predicate, a.args.map (Term.instantiate σ)⟩

theorem mem_variableNames {a : Atom} {v : String} : v ∈ a.variableNames ↔ Term.var v ∈ a.args := by
  simp only [variableNames, List.mem_eraseDups, List.mem_filterMap]
  constructor
  · rintro ⟨t, ht, hv⟩
    cases t with
    | var n => rw [Term.variableName?, Option.some.injEq] at hv; exact hv ▸ ht
    | const n => simp [Term.variableName?] at hv
  · exact fun h => ⟨_, h, rfl⟩

end Atom

namespace Coded

namespace Term

def instantiate (σ : Nat → Symbol) : Term → Term
  | .sym s => .sym s
  | .slot i => .sym (σ i)

end Term

def Atom.instantiate (σ : Nat → Symbol) (a : Atom) : Atom := ⟨a.predicate, a.args.map (Term.instantiate σ)⟩

theorem Atom.isGround_iff {a : Atom} : a.isGround ↔ ∀ i, .slot i ∉ a.args := by
  simp only [isGround, Bool.not_eq_true', List.any_eq_false]
  constructor
  · intro h i hi
    exact h _ hi rfl
  · intro h t ht hslot
    cases t with
    | sym s => simp [Term.isSlot] at hslot
    | slot i => exact h i ht

theorem Atom.isGround_instantiate (σ : Nat → Symbol) (a : Atom) : (a.instantiate σ).isGround := by
  rw [isGround_iff]
  intro i hi
  obtain ⟨t, -, ht⟩ := List.mem_map.1 hi
  cases t <;> simp [Term.instantiate] at ht

/-! ## Reading -/

def Term.Reads (t : SymbolTable) (names : List String) : Term → Entail.Term → Prop
  | .sym s, .const n => t.nameOf? s = some n
  | .slot i, .var v => names[i]? = some v
  | _, _ => False

structure Atom.Reads (t : SymbolTable) (names : List String) (c : Atom) (a : Entail.Atom) : Prop where
  predicate : t.nameOf? c.predicate = some a.predicate
  args : List.Forall₂ (Term.Reads t names) c.args a.args

/-- A coded rule stands for a rule, each slot for a variable of its own. -/
structure Rule.Reads (t : SymbolTable) (c : Rule) (r : Entail.Rule) : Prop where
  premises : List.Forall₂ (Atom.Reads t c.names) c.premises r.premises
  conclusion : c.conclusion.Reads t c.names r.conclusion
  distinct : c.names.Nodup
  slots : c.names.length = c.slots

structure Clause.Reads (t : SymbolTable) (names : List String) (c : Clause) (r : Entail.Rule) : Prop where
  premises : List.Forall₂ (Atom.Reads t names) c.premises r.premises
  conclusion : c.conclusion.Reads t names r.conclusion

theorem Rule.Reads.clause {t : SymbolTable} {c : Rule} {r : Entail.Rule} (h : c.Reads t r) :
    c.toClause.Reads t c.names r := ⟨h.premises, h.conclusion⟩

variable {t u : SymbolTable} {names names' : List String}

theorem Term.Reads.mono {x : Term} {y : Entail.Term} (h : x.Reads t names y) (ht : t.Extends u)
    (hn : names <+: names') : x.Reads u names' y := by
  cases x <;> cases y
  case sym.const => exact ht.nameOf? h
  case slot.var => exact getElem?_of_prefix hn h
  all_goals exact h.elim

theorem Atom.Reads.mono {c : Atom} {a : Entail.Atom} (h : c.Reads t names a) (ht : t.Extends u)
    (hn : names <+: names') : c.Reads u names' a :=
  ⟨ht.nameOf? h.predicate, h.args.imp fun _ _ hx => hx.mono ht hn⟩

theorem Rule.Reads.mono {c : Rule} {r : Entail.Rule} (h : c.Reads t r) (ht : t.Extends u) : c.Reads u r :=
  ⟨h.premises.imp fun _ _ hp => hp.mono ht List.prefix_rfl, h.conclusion.mono ht List.prefix_rfl, h.distinct,
    h.slots⟩

theorem Term.Reads.inj {x x' : Term} {y : Entail.Term} (ht : t.Distinct) (hn : names.Nodup)
    (h : x.Reads t names y) (h' : x'.Reads t names y) : x = x' := by
  cases x <;> cases x' <;> cases y
  case sym.sym.const => rw [SymbolTable.nameOf?_inj ht h h']
  case slot.slot.var i j v =>
    rw [(List.getElem?_inj (List.getElem?_eq_some_iff.1 h).1 hn).1 (h.trans h'.symm)]
  all_goals first | exact h.elim | exact h'.elim

theorem Atom.Reads.inj {c c' : Atom} {a : Entail.Atom} (ht : t.Distinct) (hn : names.Nodup)
    (h : c.Reads t names a) (h' : c'.Reads t names a) : c = c' := by
  obtain ⟨p, args⟩ := c
  obtain ⟨p', args'⟩ := c'
  have hp : p = p' := SymbolTable.nameOf?_inj ht h.predicate h'.predicate
  have hargs : args = args' := List.left_unique_forall₂' (fun _ _ _ hx hx' => hx.inj ht hn hx') h.args h'.args
  rw [hp, hargs]

/-- Two clauses that read as one rule differ in their number of slots only. -/
theorem Clause.Reads.inj {c c' : Clause} {r : Entail.Rule} (ht : t.Distinct) (hn : names.Nodup)
    (h : c.Reads t names r) (h' : c'.Reads t names r) : c.premises = c'.premises ∧ c.conclusion = c'.conclusion :=
  ⟨List.left_unique_forall₂' (fun _ _ _ hp hp' => hp.inj ht hn hp') h.premises h'.premises,
    h.conclusion.inj ht hn h'.conclusion⟩

/-- Without names only symbols can be read, so what reads is ground. -/
theorem Atom.Reads.isGround {c : Atom} {a : Entail.Atom} (h : c.Reads t [] a) : c.isGround := by
  rw [Atom.isGround_iff]
  intro i hi
  obtain ⟨y, -, hy⟩ := exists_right_of_forall₂ h.args hi
  cases y <;> simp [Term.Reads] at hy

theorem Atom.Reads.isGround_right {c : Atom} {a : Entail.Atom} (h : c.Reads t [] a) : a.isGround := by
  rw [Entail.Atom.isGround, List.all_eq_true]
  intro y hy
  obtain ⟨x, -, hx⟩ := exists_left_of_forall₂ h.args hy
  cases x <;> cases y <;> simp_all [Term.Reads, Entail.Term.isGround]

/-- All symbols of what reads have names. -/
theorem Atom.Reads.exists_name {c : Atom} {a : Entail.Atom} (h : c.Reads t names a) {s : Symbol}
    (hs : s = c.predicate ∨ .sym s ∈ c.args) : ∃ name, t.nameOf? s = some name := by
  rcases hs with rfl | hs
  · exact ⟨_, h.predicate⟩
  · obtain ⟨y, -, hy⟩ := exists_right_of_forall₂ h.args hs
    cases y with
    | const n => exact ⟨n, hy⟩
    | var v => exact hy.elim

/-- An atom reads as something if all its symbols and slots have names. -/
theorem Atom.exists_reads_under {c : Atom} (hi : ∀ i, .slot i ∈ c.args → i < names.length)
    (hs : ∀ s, s = c.predicate ∨ .sym s ∈ c.args → ∃ name, t.nameOf? s = some name) : ∃ a, c.Reads t names a := by
  obtain ⟨p, hp⟩ := hs _ (.inl rfl)
  obtain ⟨args, hargs⟩ : ∃ args, List.Forall₂ (Term.Reads t names) c.args args := by
    refine exists_forall₂ fun x hx => ?_
    cases x with
    | sym s =>
      obtain ⟨n, hn⟩ := hs s (.inr hx)
      exact ⟨.const n, hn⟩
    | slot i =>
      have hlt := hi i hx
      exact ⟨.var names[i], List.getElem?_eq_getElem hlt⟩
  exact ⟨⟨p, args⟩, hp, hargs⟩

/-- A ground atom reads as something if all its symbols have names. -/
theorem Atom.exists_reads {c : Atom} (hg : c.isGround)
    (hs : ∀ s, s = c.predicate ∨ .sym s ∈ c.args → ∃ name, t.nameOf? s = some name) : ∃ a, c.Reads t [] a :=
  exists_reads_under (fun i hi => absurd hi (Atom.isGround_iff.1 hg i)) hs

/-- Instances read as instances, if each slot's symbol has the name that its variable is given. -/
theorem Atom.Reads.instantiate {c : Atom} {a : Entail.Atom} (h : c.Reads t names a) {σ : Nat → Symbol}
    {τ : String → String} (hσ : ∀ i v, .slot i ∈ c.args → names[i]? = some v → t.nameOf? (σ i) = some (τ v)) :
    (c.instantiate σ).Reads t [] (a.instantiate τ) := by
  refine ⟨h.predicate, ?_⟩
  have hargs := h.args
  simp only [Atom.instantiate, Entail.Atom.instantiate, List.forall₂_map_left_iff, List.forall₂_map_right_iff]
  rw [List.forall₂_iff_zip] at hargs ⊢
  refine ⟨hargs.1, fun {x y} hxy => ?_⟩
  have hread := hargs.2 hxy
  cases x <;> cases y
  case sym.const => exact hread
  case slot.var i v => exact hσ i v (List.of_mem_zip hxy).1 hread
  all_goals exact hread.elim

/-! ## Decoding -/

theorem nameOf_eq_ok {s : Symbol} {name : String} (h : t.nameOf? s = some name) : nameOf t s = .ok name := by
  rw [nameOf, h]

theorem slotName_of_getElem? {i : Nat} {v : String} (h : names[i]? = some v) : slotName names i = v := by
  rw [slotName, List.getD_eq_getElem?_getD, h]
  rfl

section
variable (hn : ∀ (i : Nat) (v : String), names[i]? = some v → slotName names' i = v)
include hn

/-- Other names do for decoding if they name the slots alike. -/
theorem Term.Reads.decode_alike {x : Term} {y : Entail.Term} (h : x.Reads t names y) :
    x.decode t (some names') = .ok y := by
  cases x <;> cases y
  case sym.const => rw [Term.decode, nameOf_eq_ok h]; rfl
  case slot.var i v => rw [Term.decode, hn i v h]
  all_goals exact h.elim

theorem Atom.Reads.decode_alike {c : Atom} {a : Entail.Atom} (h : c.Reads t names a) :
    c.decode t (some names') = .ok a := by
  rw [Atom.decode, mapM_eq_ok (h.args.imp fun _ _ hx => hx.decode_alike hn), nameOf_eq_ok h.predicate]
  rfl

end

theorem Atom.Reads.decode {c : Atom} {a : Entail.Atom} (h : c.Reads t names a) : c.decode t (some names) = .ok a :=
  h.decode_alike fun _ _ => slotName_of_getElem?

/-- A ground atom needs no names to be decoded. -/
theorem Atom.Reads.decode_ground {c : Atom} {a : Entail.Atom} (h : c.Reads t [] a) : c.decode t none = .ok a := by
  have hargs : List.Forall₂ (fun x y => x.decode t none = .ok y) c.args a.args := by
    refine h.args.imp fun x y hx => ?_
    cases x <;> cases y
    case sym.const => rw [Term.decode, nameOf_eq_ok hx]; rfl
    all_goals simp [Term.Reads] at hx
  rw [Atom.decode, mapM_eq_ok hargs, nameOf_eq_ok h.predicate]
  rfl

theorem Rule.Reads.decode {c : Rule} {r : Entail.Rule} (h : c.Reads t r) : c.decode t = .ok r := by
  rw [Rule.decode, mapM_eq_ok (h.premises.imp fun _ _ hp => hp.decode), h.conclusion.decode]
  rfl

theorem Atom.Reads.unique {c : Atom} {a b : Entail.Atom} (ha : c.Reads t names a) (hb : c.Reads t names b) :
    a = b := Except.ok.inj (ha.decode.symm.trans hb.decode)

theorem Clause.Reads.unique {c : Clause} {r s : Entail.Rule} (hr : c.Reads t names r) (hs : c.Reads t names s) :
    r = s := by
  obtain ⟨_, _⟩ := r
  obtain ⟨_, _⟩ := s
  exact congrArg₂ Entail.Rule.mk (List.right_unique_forall₂' (fun _ _ _ h h' => h.unique h') hr.premises hs.premises)
    (hr.conclusion.unique hs.conclusion)

theorem Rule.Reads.unique {c : Rule} {r s : Entail.Rule} (hr : c.Reads t r) (hs : c.Reads t s) : r = s :=
  Except.ok.inj (hr.decode.symm.trans hs.decode)

end Coded

/-! ## Encoding ground atoms -/

section
variable {t u : SymbolTable} {a : Atom} {c : Coded.Atom}

theorem reads_of_ground {args : List Term} (hg : args.all Term.isGround) {ss : List Symbol}
    (h : List.Forall₂ (fun s name => t.nameOf? s = some name) ss (args.map Term.name)) :
    List.Forall₂ (Coded.Term.Reads t []) (ss.map .sym) args := by
  rw [List.forall₂_map_right_iff] at h
  rw [List.forall₂_map_left_iff]
  rw [List.forall₂_iff_zip] at h ⊢
  refine ⟨h.1, fun {s y} hsy => ?_⟩
  have hname := h.2 hsy
  have hy := List.all_eq_true.1 hg y (List.of_mem_zip hsy).2
  cases y with
  | const n => exact hname
  | var v => cases hy

theorem Atom.encode_of_not_ground (h : a.isGround = false) (t : SymbolTable) : a.encode t = .error a := by
  rw [encode, h]
  rfl

theorem Atom.encode_reads (h : a.encode t = .ok (c, u)) :
    t.Extends u ∧ (t.Distinct → u.Distinct) ∧ c.Reads u [] a := by
  unfold encode at h
  split at h
  · next hg =>
    obtain ⟨rfl, rfl⟩ := Prod.mk.inj (Except.ok.inj h)
    set v := (t.intern a.predicate).2
    refine ⟨(t.extends_intern _).trans (v.extends_internAll _), fun ht => (ht.intern _).internAll _, ?_⟩
    exact ⟨(v.extends_internAll _).nameOf? (t.nameOf?_intern _), reads_of_ground hg (v.nameOf?_internAll _)⟩
  · cases h

theorem Atom.exists_encode (h : a.isGround) (t : SymbolTable) : ∃ c u, a.encode t = .ok (c, u) := by
  rw [encode, if_pos h]
  exact ⟨_, _, rfl⟩

theorem Atom.lookup?_eq_some_iff (ht : t.Distinct) : a.lookup? t = some c ↔ c.Reads t [] a := by
  unfold lookup?
  constructor
  · intro h
    split at h
    · next hg =>
      simp only [Option.bind_eq_bind, Option.bind_eq_some_iff, Option.pure_def, Option.some.injEq] at h
      obtain ⟨p, hp, ss, hss, rfl⟩ := h
      refine ⟨SymbolTable.nameOf?_of_lookup? hp, reads_of_ground hg ?_⟩
      rw [List.forall₂_map_right_iff]
      exact (mapM_eq_some.1 hss).flip.imp fun _ _ h => SymbolTable.nameOf?_of_lookup? h
    · cases h
  · intro h
    obtain ⟨ss, hss⟩ : ∃ ss, List.Forall₂ (fun (arg : Term) s => t.lookup? arg.name = some s) a.args ss := by
      refine exists_forall₂ fun y hy => ?_
      obtain ⟨x, -, hx⟩ := exists_left_of_forall₂ h.args hy
      cases x <;> cases y
      case sym.const s n => exact ⟨s, (SymbolTable.lookup?_eq_some_iff ht).2 hx⟩
      all_goals simp [Coded.Term.Reads] at hx
    have hp := (SymbolTable.lookup?_eq_some_iff ht).2 h.predicate
    have hread : (⟨c.predicate, ss.map .sym⟩ : Coded.Atom).Reads t [] a := by
      refine ⟨h.predicate, reads_of_ground h.isGround_right ?_⟩
      rw [List.forall₂_map_right_iff]
      exact hss.flip.imp fun _ _ h => SymbolTable.nameOf?_of_lookup? h
    rw [if_pos h.isGround_right, hp, Option.bind_eq_bind, Option.bind_some, mapM_eq_some.2 hss,
      h.inj ht List.nodup_nil hread]
    rfl

end

end Entail
