import Entail.Coded.Unify
import Entail.Proofs.Scoping
import Entail.Proofs.Unifiers
import Mathlib.Order.Bounds.Defs

/-!
# Applying a rule to ground facts

* `matchFrom_outcome` : premises and facts are unified in order, up to the first position where no solution is left;
* `isSome_labelAt_iff` : if solutions are the choices of symbols that turn premises into facts, then the slots that are
  bound are those of the premises;
* `Rule.apply_cases` : all premises match, or there is a first position up to which they have no match in common;
* `Rule.apply_eq_ok_iff` : a rule applies to facts exactly if some choice of symbols turns its premises into them and
  its conclusion has no slot besides; the instance of the conclusion follows (`Clause.Yields`);
* `Rule.Assigns` : the same with the fault in each other case, as it is for every encoded rule (`Rule.assigns_encode`).
-/

namespace Entail

namespace Coded

open Bindings
open Forest (Ranked)

variable {θ : Bindings}

/-! ## Ground facts -/

theorem Atom.instantiate_of_isGround {a : Atom} (h : a.isGround) (σ : Nat → Symbol) : a.instantiate σ = a := by
  have hargs : ∀ x ∈ a.args, x.instantiate σ = x := by
    intro x hx
    cases x with
    | sym s => rfl
    | slot i => exact absurd hx (Atom.isGround_iff.1 h i)
  rw [Atom.instantiate, List.map_congr_left hargs, List.map_id']

theorem map_instantiate_of_isGround {facts : List Atom} (h : ∀ f ∈ facts, f.isGround) (σ : Nat → Symbol) :
    facts.map (Atom.instantiate σ) = facts := by
  rw [List.map_congr_left fun f hf => (Atom.instantiate_of_isGround (h f hf) σ), List.map_id']

/-! ## Premises and facts -/

theorem unify_cases (h : Ranked θ) {p f : Atom} (hp : ∀ x ∈ p.args, θ.Covers x) (hf : ∀ x ∈ f.args, θ.Covers x) :
    (∃ θ', θ.unify p f = (.ok (), θ') ∧ Narrowed θ θ' fun σ => p.instantiate σ = f.instantiate σ) ∨
    ∃ e θ', θ.unify p f = (.error e, θ') ∧ (∀ x, e ≠ .forest x) ∧
      ∀ σ, θ.Admits σ → p.instantiate σ ≠ f.instantiate σ := by
  obtain ⟨hs, hu⟩ | ⟨-, θ', hu, hn⟩ | ⟨-, hno, k, s, t, θ', -, hu, -⟩ := unify_outcome h hp hf
  · refine .inr ⟨_, _, hu, by simp, fun σ _ heq => hs ?_⟩
    have hpred := congrArg Atom.predicate heq
    have harity := congrArg Atom.arity heq
    exact ⟨hpred, by simpa [Atom.arity, Atom.instantiate] using harity⟩
  · exact .inl ⟨θ', hu, hn⟩
  · exact .inr ⟨_, _, hu, by simp, hno⟩

theorem matchFrom_of_error {p f : Atom} {e : UnifyFault} {θ' : Bindings} (hu : θ.unify p f = (.error e, θ'))
    (he : ∀ x, e ≠ .forest x) (k : Nat) (ps fs : List Atom) :
    matchFrom θ k (p :: ps) (f :: fs) = .error (.premise k e) := by
  rw [matchFrom, hu]
  cases e with
  | shape p m q n => rfl
  | clash s t => rfl
  | forest x => exact absurd rfl (he x)

/-- Premises are unified with facts: all of them, or those before the first that leaves no solution. -/
theorem matchFrom_outcome (h : Ranked θ) (k : Nat) (ps fs : List Atom) (hlen : ps.length = fs.length)
    (hps : ∀ p ∈ ps, ∀ x ∈ p.args, θ.Covers x) (hfs : ∀ f ∈ fs, ∀ x ∈ f.args, θ.Covers x) :
    (∃ θ', matchFrom θ k ps fs = .ok θ' ∧
      Narrowed θ θ' fun σ => ps.map (Atom.instantiate σ) = fs.map (Atom.instantiate σ)) ∨
    (∃ n e, n < ps.length ∧ matchFrom θ k ps fs = .error (.premise (k + n) e) ∧ (∀ x, e ≠ .forest x) ∧
      (∃ σ, θ.Admits σ ∧ (ps.take n).map (Atom.instantiate σ) = (fs.take n).map (Atom.instantiate σ)) ∧
      ∀ σ, θ.Admits σ → (ps.take (n + 1)).map (Atom.instantiate σ) ≠ (fs.take (n + 1)).map (Atom.instantiate σ)) := by
  induction ps generalizing θ k fs with
  | nil =>
    obtain rfl := List.length_eq_zero_iff.1 hlen.symm
    exact .inl ⟨θ, rfl, .refl h fun _ _ => rfl⟩
  | cons p ps ih =>
    obtain _ | ⟨f, fs⟩ := fs
    · cases hlen
    obtain ⟨θ₁, hu, hn⟩ | ⟨e, θ₁, hu, he, hno⟩ :=
      unify_cases h (hps p List.mem_cons_self) (hfs f List.mem_cons_self)
    · have hlen' : ps.length = fs.length := by simpa using hlen
      obtain ⟨θ₂, h₂, hn₂⟩ | ⟨n, e, hlt, h₂, he, ⟨σ, hσ, hfirst⟩, hno⟩ := ih hn.ranked (k + 1) fs hlen'
        (fun q hq x hx => hn.covers (hps q (List.mem_cons_of_mem _ hq) x hx))
        fun q hq x hx => hn.covers (hfs q (List.mem_cons_of_mem _ hq) x hx)
      · exact .inl ⟨θ₂, by simp only [matchFrom, hu, h₂], hn.trans hn₂ (by simp)⟩
      · obtain ⟨hσ, hpf⟩ := (hn.admits σ).1 hσ
        refine .inr ⟨n + 1, e, Nat.succ_lt_succ hlt, ?_, he, ⟨σ, hσ, ?_⟩, fun σ hσ heq => ?_⟩
        · simp only [matchFrom, hu, h₂, Nat.add_right_comm k 1 n, Nat.add_assoc]
        · simp only [List.take_succ_cons, List.map_cons, hpf, hfirst]
        · obtain ⟨hpf, hrest⟩ := List.cons.inj heq
          exact hno σ ((hn.admits σ).2 ⟨hσ, hpf⟩) hrest
    · refine .inr ⟨0, e, Nat.zero_lt_succ _, matchFrom_of_error hu he k ps fs, he, ?_, fun σ hσ heq => ?_⟩
      · exact ⟨_, admits_complete θ fun _ => ⟨0, 0⟩, rfl⟩
      · exact hno σ hσ (List.cons.inj heq).1

/-- Solutions that turn premises into facts all give a slot the same symbol exactly if it is a slot of the premises. -/
theorem isSome_labelAt_iff {ps facts : List Atom}
    (h : ∀ σ, θ.Admits σ ↔ ps.map (Atom.instantiate σ) = facts) {i : Nat} (hi : i < θ.size) :
    (θ.labelAt i).isSome ↔ ∃ p ∈ ps, .slot i ∈ p.args := by
  have hσ := admits_complete θ fun _ => ⟨0, 0⟩
  generalize (θ.complete fun _ => ⟨0, 0⟩) = σ at hσ
  have hagree : ∀ τ, θ.Admits τ ↔ ∀ p ∈ ps, ∀ j, .slot j ∈ p.args → τ j = σ j := by
    intro τ
    rw [h, ← (h σ).1 hσ, List.map_inj_left]
    exact forall₂_congr fun p _ => Atom.instantiate_eq_iff
  constructor
  · intro hsome
    obtain ⟨s, hs⟩ := Option.isSome_iff_exists.1 hsome
    by_contra hfree
    -- another symbol for the slot gives another solution
    obtain ⟨t, hne⟩ := exists_symbol_ne s
    have hτ : θ.Admits fun j => if j = i then t else σ j := by
      refine (hagree _).2 fun p hp j hj => if_neg ?_
      rintro rfl
      exact hfree ⟨p, hp, hj⟩
    have := (labelAt_eq_some_iff hi).1 hs _ hτ
    rw [if_pos rfl] at this
    exact hne this
  · rintro ⟨p, hp, hip⟩
    have hl : θ.labelAt i = some (σ i) := (labelAt_eq_some_iff hi).2 fun τ hτ => (hagree τ).1 hτ p hp i hip
    rw [hl]
    rfl

/-! ## What follows by a rule -/

/-- Some choice of symbols turns the premises into the facts and the conclusion, whose slots are all among those of
the premises, into the atom. -/
def Clause.Yields (c : Clause) (facts : List Atom) (a : Atom) : Prop :=
  ∃ σ : Nat → Symbol, c.premises.map (Atom.instantiate σ) = facts ∧
    (∀ i, .slot i ∈ c.conclusion.args → ∃ p ∈ c.premises, .slot i ∈ p.args) ∧ c.conclusion.instantiate σ = a

theorem Clause.Yields.length {c : Clause} {facts : List Atom} {a : Atom} (h : c.Yields facts a) :
    facts.length = c.premises.length := by
  obtain ⟨σ, rfl, -⟩ := h
  simp

theorem Clause.Yields.isGround {c : Clause} {facts : List Atom} {a : Atom} (h : c.Yields facts a) : a.isGround := by
  obtain ⟨σ, -, -, rfl⟩ := h
  exact Atom.isGround_instantiate σ _

/-- What is yielded has the shape of the conclusion, and no symbols but its own and those of the facts. -/
theorem Clause.Yields.symbols {c : Clause} {facts : List Atom} {a : Atom} (h : c.Yields facts a) :
    a.predicate = c.conclusion.predicate ∧ a.arity = c.conclusion.arity ∧
      ∀ s, .sym s ∈ a.args → .sym s ∈ c.conclusion.args ∨ ∃ f ∈ facts, .sym s ∈ f.args := by
  obtain ⟨σ, rfl, hin, rfl⟩ := h
  refine ⟨rfl, by simp [Atom.arity, Atom.instantiate], fun s hs => ?_⟩
  obtain ⟨x, hx, hxs⟩ := List.mem_map.1 hs
  cases x with
  | sym t => exact .inl (hxs ▸ hx)
  | slot i =>
    obtain ⟨p, hp, hi⟩ := hin i hx
    refine .inr ⟨p.instantiate σ, List.mem_map_of_mem hp, ?_⟩
    exact hxs ▸ List.mem_map_of_mem hi

/-- Some choice of symbols turns the first `n` premises into the first `n` facts. -/
def Clause.Agrees (c : Clause) (facts : List Atom) (n : Nat) : Prop :=
  ∃ σ : Nat → Symbol, (c.premises.take n).map (Atom.instantiate σ) = facts.take n

theorem Clause.Agrees.mono {c : Clause} {facts : List Atom} {m n : Nat} (h : c.Agrees facts n) (hmn : m ≤ n) :
    c.Agrees facts m := by
  obtain ⟨σ, hσ⟩ := h
  refine ⟨σ, ?_⟩
  have htake := congrArg (List.take m) hσ
  rwa [← List.map_take, List.take_take, List.take_take, Nat.min_eq_left hmn] at htake

theorem Clause.agrees_of_match {c : Clause} {facts : List Atom} {σ : Nat → Symbol}
    (h : c.premises.map (Atom.instantiate σ) = facts) (n : Nat) : c.Agrees facts n := ⟨σ, by rw [List.map_take, h]⟩

section
variable {r : Rule} {facts : List Atom}

/-- Either the premises match the facts, and what follows is the instance of the conclusion, unless a slot is left; or
the premises up to some position have no match in common. -/
theorem Rule.apply_cases (hr : r.toClause.Scoped) (hf : ∀ f ∈ facts, f.isGround)
    (hlen : facts.length = r.premises.length) :
    (∃ b, r.apply facts = (if b.isGround then .ok ⟨b, facts, r⟩ else .error (.unbound b)) ∧
      (b.isGround ↔ ∀ i, .slot i ∈ r.conclusion.args → ∃ p ∈ r.premises, .slot i ∈ p.args) ∧
      (∃ σ, r.premises.map (Atom.instantiate σ) = facts) ∧
      ∀ σ, r.premises.map (Atom.instantiate σ) = facts → b.isGround → b = r.conclusion.instantiate σ) ∨
    ∃ k e, k < r.premises.length ∧ r.apply facts = .error (.premise k e) ∧ (∀ x, e ≠ .forest x) ∧
      r.Agrees facts k ∧ ¬r.Agrees facts (k + 1) := by
  have hsize : (Forest.singletons r.slots : Bindings).size = r.slots := Array.size_range
  have hcovers : ∀ p ∈ r.premises, ∀ x ∈ p.args, Covers (.singletons r.slots) x := by
    rintro p hp _ hx i rfl
    rw [hsize]
    exact hr.premises p hp i hx
  have hground : ∀ f ∈ facts, ∀ x ∈ f.args, Covers (.singletons r.slots) x := by
    rintro f hff _ hx i rfl
    exact absurd hx (Atom.isGround_iff.1 (hf f hff) i)
  obtain ⟨θ, hθ, hn⟩ | ⟨k, e, hk, hθ, he, ⟨σ, -, hσ⟩, hno⟩ :=
    matchFrom_outcome (Forest.ranked_singletons r.slots) 0 r.premises facts hlen.symm hcovers hground
  · have hadmits : ∀ σ, θ.Admits σ ↔ r.premises.map (Atom.instantiate σ) = facts := by
      intro σ
      rw [hn.admits, map_instantiate_of_isGround hf]
      exact and_iff_right (admits_singletons r.slots σ)
    have hlt : ∀ i, .slot i ∈ r.conclusion.args → i < θ.size := by
      intro i hi
      rw [hn.size, hsize]
      exact hr.conclusion i hi
    obtain ⟨b, hb, hbg, hinst⟩ := substitute_outcome (a := r.conclusion) fun x hx i hi => hlt i (hi ▸ hx)
    refine .inl ⟨b, ?_, hbg.trans (forall₂_congr fun i hi => isSome_labelAt_iff hadmits (hlt i hi)),
      ⟨_, (hadmits _).1 (admits_complete θ fun _ => ⟨0, 0⟩)⟩, fun σ hσ hg => ?_⟩
    · rw [Rule.apply, if_pos hlen, hθ]
      simp only [bind, Except.bind, hb]
      rfl
    · have hσ := (hadmits σ).2 hσ
      calc b = b.instantiate σ := (Atom.instantiate_of_isGround hg σ).symm
        _ = r.conclusion.instantiate (θ.complete σ) := hinst σ
        _ = r.conclusion.instantiate σ := Atom.instantiate_eq_iff.2 fun i hi => hσ.complete_eq hn.ranked (hlt i hi)
  · rw [Nat.zero_add] at hθ
    have htake : ∀ n σ, (facts.take n).map (Atom.instantiate σ) = facts.take n :=
      fun n => map_instantiate_of_isGround fun f hff => hf f (List.mem_of_mem_take hff)
    refine .inr ⟨k, e, hk, ?_, he, ⟨σ, hσ.trans (htake k σ)⟩, ?_⟩
    · rw [Rule.apply, if_pos hlen, hθ]
      rfl
    · rintro ⟨τ, hτ⟩
      exact hno τ (admits_singletons r.slots τ) (hτ.trans (htake (k + 1) τ).symm)

/-- A rule applies to ground facts exactly if it yields something from them, and then gives that. -/
theorem Rule.apply_eq_ok_iff (hr : r.toClause.Scoped) (hf : ∀ f ∈ facts, f.isGround) {p : Application} :
    r.apply facts = .ok p ↔ r.toClause.Yields facts p.conclusion ∧ p.premises = facts ∧ p.rule = r := by
  by_cases hlen : facts.length = r.premises.length
  · obtain ⟨b, happly, hground, ⟨σ, hσ⟩, hval⟩ | ⟨k, e, -, happly, -, -, hno⟩ := Rule.apply_cases hr hf hlen
    · rw [happly]
      constructor
      · intro h
        split_ifs at h with hbg
        obtain rfl := Except.ok.inj h
        exact ⟨⟨σ, hσ, hground.1 hbg, (hval σ hσ hbg).symm⟩, rfl, rfl⟩
      · rintro ⟨⟨τ, hτ, hin, hconc⟩, hprem, hrule⟩
        have hbg := hground.2 hin
        rw [if_pos hbg, hval τ hτ hbg, hconc, ← hprem, ← hrule]
    · rw [happly]
      constructor
      · intro h
        cases h
      · rintro ⟨⟨τ, hτ, -⟩, -⟩
        exact absurd (Clause.agrees_of_match hτ _) hno
  · rw [Rule.apply, if_neg hlen]
    constructor
    · intro h
      cases h
    · rintro ⟨hy, -⟩
      exact absurd hy.length hlen

/-- What a rule does with facts for its premises. It applies exactly if its premises match the facts and its conclusion
has no slot besides theirs, and the instance of the conclusion follows. Else it fails at the first premise up to which
the premises have no match in common, or, if they match all, for the slots of the conclusion that are left. -/
structure Rule.Assigns (r : Rule) (facts : List Atom) : Prop where
  succeeds_iff : (∃ p, r.apply facts = .ok p) ↔ (∃ σ, r.premises.map (Atom.instantiate σ) = facts) ∧
    ∀ i, .slot i ∈ r.conclusion.args → ∃ p ∈ r.premises, .slot i ∈ p.args
  result : ∀ p, r.apply facts = .ok p → p.premises = facts ∧ p.rule = r ∧ p.conclusion.isGround ∧
    ∀ σ, r.premises.map (Atom.instantiate σ) = facts → p.conclusion = r.conclusion.instantiate σ
  mismatch : (¬∃ σ, r.premises.map (Atom.instantiate σ) = facts) → ∃ k e, r.apply facts = .error (.premise k e) ∧
    k < r.premises.length ∧ IsLeast {n | ¬r.Agrees facts (n + 1)} k
  unbound : (∃ σ, r.premises.map (Atom.instantiate σ) = facts) →
    (¬∀ i, .slot i ∈ r.conclusion.args → ∃ p ∈ r.premises, .slot i ∈ p.args) →
    ∃ a, r.apply facts = .error (.unbound a) ∧ ¬a.isGround
  faults : ∀ e, r.apply facts = .error e →
    (∃ k p m q n, e = .premise k (.shape p m q n)) ∨ (∃ k s t, e = .premise k (.clash s t)) ∨ ∃ a, e = .unbound a

theorem Rule.assigns_of_scoped (hr : r.toClause.Scoped) (hf : ∀ f ∈ facts, f.isGround)
    (hlen : facts.length = r.premises.length) : r.Assigns facts := by
  obtain ⟨b, happly, hground, hmatch, hval⟩ | ⟨k, e, hk, happly, he, hbefore, hno⟩ := Rule.apply_cases hr hf hlen
  · by_cases hbg : b.isGround
    · rw [if_pos hbg] at happly
      refine { succeeds_iff := iff_of_true ⟨_, happly⟩ ⟨hmatch, hground.1 hbg⟩, result := fun p hp => ?_,
               mismatch := fun hns => absurd hmatch hns, unbound := fun _ hopen => absurd (hground.1 hbg) hopen,
               faults := fun e he => ?_ }
      · obtain rfl := Except.ok.inj (happly.symm.trans hp)
        exact ⟨rfl, rfl, hbg, fun τ hτ => hval τ hτ hbg⟩
      · cases happly.symm.trans he
    · rw [if_neg hbg] at happly
      have hfail : ∀ p, r.apply facts ≠ .ok p := by simp [happly]
      refine { succeeds_iff := iff_of_false (fun h => h.elim hfail) fun h => hbg (hground.2 h.2),
               result := fun p hp => absurd hp (hfail p), mismatch := fun hns => absurd hmatch hns,
               unbound := fun _ _ => ⟨b, happly, hbg⟩, faults := fun e he => ?_ }
      exact .inr (.inr ⟨b, (Except.error.inj (happly.symm.trans he)).symm⟩)
  · have hfail : ∀ p, r.apply facts ≠ .ok p := by simp [happly]
    have hns : ¬∃ σ, r.premises.map (Atom.instantiate σ) = facts := by
      rintro ⟨σ, hσ⟩
      exact hno (Clause.agrees_of_match hσ _)
    refine { succeeds_iff := iff_of_false (fun h => h.elim hfail) fun h => hns h.1,
             result := fun p hp => absurd hp (hfail p), mismatch := fun _ => ⟨k, e, happly, hk, hno, fun n hn => ?_⟩,
             unbound := fun hs => absurd hs hns, faults := fun f hf => ?_ }
    · -- up to a position before this one the premises do match
      by_contra hlt
      exact hn (hbefore.mono (Nat.lt_of_not_ge hlt))
    · obtain rfl := Except.error.inj (happly.symm.trans hf)
      cases e with
      | shape p m q n => exact .inl ⟨k, p, m, q, n, rfl⟩
      | clash s t => exact .inr (.inl ⟨k, s, t, rfl⟩)
      | forest x => exact absurd rfl (he x)

end

end Coded

/-- Every rule, under whatever table it is encoded, is matched with ground facts exactly. -/
theorem Rule.assigns_encode (r : Rule) (t : SymbolTable) (facts : List Coded.Atom) (hf : ∀ f ∈ facts, f.isGround)
    (hlen : facts.length = (r.encode t).1.premises.length) : (r.encode t).1.Assigns facts :=
  Coded.Rule.assigns_of_scoped (r.encode_scoped t) hf hlen

/-- A variable in both premises. -/
def grandparent : Rule :=
  ⟨[⟨"parent", [.var "x", .var "y"]⟩, ⟨"parent", [.var "y", .var "z"]⟩], ⟨"grandparent", [.var "x", .var "z"]⟩⟩

/-- Two facts of which the second does not go on where the first ends. -/
def apart : List Coded.Atom := [⟨⟨1, 0⟩, [.sym ⟨1, 2⟩, .sym ⟨1, 3⟩]⟩, ⟨⟨1, 0⟩, [.sym ⟨1, 4⟩, .sym ⟨1, 5⟩]⟩]

theorem assigns_apart :
    (∀ f ∈ apart, f.isGround) ∧ apart.length = (grandparent.encode (.empty 1)).1.premises.length ∧
      (grandparent.encode (.empty 1)).1.Assigns apart := by
  have hf : ∀ f ∈ apart, f.isGround := by decide
  have hlen : apart.length = (grandparent.encode (.empty 1)).1.premises.length := by
    rw [grandparent.encode_premises]
    rfl
  exact ⟨hf, hlen, Rule.assigns_encode grandparent (.empty 1) apart hf hlen⟩

end Entail
