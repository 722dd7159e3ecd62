import Entail.Proofs.Renaming
import Entail.Support
import Mathlib.Logic.Relation

/-!
# Derivations from any supports

Supports need not come of a reasoner: in a list of them a fact may rest on itself, and a premise may have no support.

* `Leads ss a b` : the supports lead from `a` to `b`, premise by premise; `Circular ss a` : they lead from `a` back to
  it;
* `Unfolds ss t a d` : `d` is the proof tree that the supports of `a` unfold to; there is one only if `a` leads to
  nothing circular and to nothing that is not held (`Unfolds.held`, `Unfolds.not_circular`);
* `Blames ss t a e` : the fault `e` names an atom that `a` leads to and that is circular, or not held;
* `Waits` : what is so of the atoms that wait while one is unfolded; they are fewer than the supports and the fuel
  together, so the fuel never runs out (`Waits.unfold_add`);
* `Waits.unfold_cases` : an atom unfolds to its tree, or to a fault with an atom to blame (`Issued.outcome`);
* `unravels_of_issued` : so the derivation of an atom is exact, whatever the supports.
-/

namespace Entail.Supports

variable {ss : Supports} {t : SymbolTable} {a b p : Coded.Atom} {s : Support} {x : Atom} {c : Coded.Rule} {y z : Rule}
  {d : Derivation} {e : DerivationFault} {fuel : Nat} {waiting : List Coded.Atom} {w w' : Written}

/-! ## Where supports lead -/

/-- The second atom is a premise of the support of the first. -/
def Rests (ss : Supports) (a b : Coded.Atom) : Prop := ∃ s, ss.get? a = some s ∧ b ∈ s.premises

/-- The second atom is the first, a premise of its support, a premise of the support of a premise, and so on. -/
def Leads (ss : Supports) : Coded.Atom → Coded.Atom → Prop := Relation.ReflTransGen ss.Rests

/-- The atom is a premise of its own support, or of the support of a premise, and so on. -/
def Circular (ss : Supports) (a : Coded.Atom) : Prop := Relation.TransGen ss.Rests a a

theorem mem_of_get? (h : ss.get? a = some s) : (a, s) ∈ ss := by
  obtain ⟨⟨b, s'⟩, he, rfl⟩ := Option.map_eq_some_iff.1 h
  obtain rfl : b = a := by simpa using List.find?_some he
  exact List.mem_of_find?_eq_some he

theorem get?_of_mem (hn : (ss.map (·.1)).Nodup) (h : (a, s) ∈ ss) : ss.get? a = some s := by
  rw [get?, find?_key_of_mem hn h]
  rfl

theorem mem_of_rests (hs : ss.get? a = some s) (h : ss.Rests a b) : b ∈ s.premises := by
  obtain ⟨s', hs', hmem⟩ := h
  rwa [Option.some.inj (hs.symm.trans hs')]

theorem not_rests_of_isSeed (hs : ss.get? a = some s) (hseed : s.isSeed) : ¬ ss.Rests a b := by
  intro h
  have hmem := mem_of_rests hs h
  rw [List.isEmpty_iff.1 hseed] at hmem
  cases hmem

/-! ## Trees -/

/-- The proof tree that the supports of an atom unfold to: a leaf for a stated atom, and for any other a node over the
trees of its premises, in their order, with the rule of its support up to the names of the variables. -/
inductive Unfolds (ss : Supports) (t : SymbolTable) : Coded.Atom → Derivation → Prop
  | leaf {a : Coded.Atom} {s : Support} {x : Atom} (held : ss.get? a = some s) (stated : s.isSeed)
      (name : a.decode t none = .ok x) : Unfolds ss t a (.node x [] none)
  | node {a : Coded.Atom} {s : Support} {x : Atom} {ds : List Derivation} {rule? : Option Rule}
      (held : ss.get? a = some s) (derived : s.isSeed = false) (name : a.decode t none = .ok x)
      (rule : Option.Rel (fun c y => ∃ z, c.decode t = .ok z ∧ z.IsVariant y) s.rule rule?)
      (length : s.premises.length = ds.length)
      (children : ∀ p d, (p, d) ∈ s.premises.zip ds → Unfolds ss t p d) : Unfolds ss t a (.node x ds rule?)

theorem Unfolds.exists_support (h : ss.Unfolds t a d) : ∃ s, ss.get? a = some s := by
  cases h with
  | leaf held _ _ => exact ⟨_, held⟩
  | node held _ _ _ _ _ => exact ⟨_, held⟩

/-- Each premise has its tree among the children. -/
theorem Unfolds.of_rests (h : ss.Unfolds t a d) (hb : ss.Rests a b) : ∃ d', ss.Unfolds t b d' := by
  cases h with
  | leaf held stated _ => exact absurd hb (not_rests_of_isSeed held stated)
  | node held _ _ _ length children =>
    have hchildren := List.forall₂_iff_zip.2 ⟨length, fun {p d'} hpd => children p d' hpd⟩
    obtain ⟨d', -, hd'⟩ := exists_right_of_forall₂ hchildren (mem_of_rests held hb)
    exact ⟨d', hd'⟩

theorem Unfolds.of_leads (h : ss.Unfolds t a d) (hb : ss.Leads a b) : ∃ d', ss.Unfolds t b d' := by
  induction hb with
  | refl => exact ⟨d, h⟩
  | tail _ hstep ih =>
    obtain ⟨d', h'⟩ := ih
    exact h'.of_rests hstep

/-- A tree is finite, so no way that the supports lead down from its root goes on for ever. -/
theorem Unfolds.acc (h : ss.Unfolds t a d) : Acc (Function.swap ss.Rests) a := by
  induction h with
  | leaf held stated _ => exact .intro _ fun b hb => absurd hb (not_rests_of_isSeed held stated)
  | node held _ _ _ length _ ih =>
    refine .intro _ fun b hb => ?_
    have hchildren := List.forall₂_iff_zip.2 ⟨length, fun {p d'} hpd => ih p d' hpd⟩
    obtain ⟨-, -, hacc⟩ := exists_right_of_forall₂ hchildren (mem_of_rests held hb)
    exact hacc

/-- All that the root of a tree leads to is held. -/
theorem Unfolds.held (h : ss.Unfolds t a d) (hb : ss.Leads a b) : ∃ s, ss.get? b = some s := by
  obtain ⟨d', h'⟩ := h.of_leads hb
  exact h'.exists_support

/-- Nothing that the root of a tree leads to is circular. -/
theorem Unfolds.not_circular (h : ss.Unfolds t a d) (hb : ss.Leads a b) : ¬ ss.Circular b := by
  obtain ⟨d', h'⟩ := h.of_leads hb
  have hacc := h'.acc.transGen
  clear h h' hb
  induction hacc with
  | intro b _ ih =>
    intro hcycle
    exact ih b (Relation.transGen_swap.2 hcycle) hcycle

/-! ## Faults -/

/-- The fault names an atom that the supports lead to: one that is circular, or one that is not held. -/
inductive Blames (ss : Supports) (t : SymbolTable) (a : Coded.Atom) : DerivationFault → Prop
  | cycle {b : Coded.Atom} {x : Atom} (leads : ss.Leads a b) (circular : ss.Circular b)
      (name : b.decode t none = .ok x) : Blames ss t a (.cycle x)
  | unsupported {b : Coded.Atom} {x : Atom} (leads : ss.Leads a b) (missing : ss.get? b = none)
      (name : b.decode t none = .ok x) : Blames ss t a (.unsupported x)

/-- What is to blame for a premise is to blame for what rests on it. -/
theorem Blames.of_rests (hb : ss.Rests a b) (h : ss.Blames t b e) : ss.Blames t a e := by
  cases h with
  | cycle leads circular name => exact .cycle (.head hb leads) circular name
  | unsupported leads missing name => exact .unsupported (.head hb leads) missing name

/-! ## One step of unfolding -/

theorem nameAtom_eq_ok (h : a.Reads t [] x) : nameAtom t a = .ok x := by
  rw [nameAtom, h.decode_ground]

theorem unfold_of_waiting (ha : a ∈ waiting) (hx : nameAtom t a = .ok x) :
    ss.unfold t (fuel + 1) waiting w a = .error (.cycle x) := by
  rw [unfold, if_pos ha, hx]
  rfl

theorem unfold_of_unsupported (ha : a ∉ waiting) (hs : ss.get? a = none) (hx : nameAtom t a = .ok x) :
    ss.unfold t (fuel + 1) waiting w a = .error (.unsupported x) := by
  rw [unfold, if_neg ha, hs, hx]
  rfl

theorem unfold_of_seed (ha : a ∉ waiting) (hs : ss.get? a = some s) (hx : nameAtom t a = .ok x) (hseed : s.isSeed) :
    ss.unfold t (fuel + 1) waiting w a = .ok (.node x [] none, w) := by
  rw [unfold, if_neg ha, hs, hx]
  simp only [bind, Except.bind, hseed]
  rfl

section
variable (ha : a ∉ waiting) (hs : ss.get? a = some s) (hx : nameAtom t a = .ok x) (hderived : s.isSeed = false)
include ha hs hx hderived

theorem unfold_of_failed (hds : unfoldAll (ss.unfold t fuel (a :: waiting)) w s.premises = .error e) :
    ss.unfold t (fuel + 1) waiting w a = .error e := by
  rw [unfold, if_neg ha, hs, hx]
  simp only [bind, Except.bind, hderived, hds]
  rfl

theorem unfold_of_derived {ds : List Derivation}
    (hds : unfoldAll (ss.unfold t fuel (a :: waiting)) w s.premises = .ok (ds, w')) (hrule : s.rule = none) :
    ss.unfold t (fuel + 1) waiting w a = .ok (.node x ds none, w') := by
  rw [unfold, if_neg ha, hs, hx]
  simp only [bind, Except.bind, hderived, hds, hrule]
  rfl

theorem unfold_of_inferred {ds : List Derivation} {w'' : Written}
    (hds : unfoldAll (ss.unfold t fuel (a :: waiting)) w s.premises = .ok (ds, w')) (hrule : s.rule = some c)
    (hy : writeRule t w' c = .ok (y, w'')) :
    ss.unfold t (fuel + 1) waiting w a = .ok (.node x ds (some y), w'') := by
  rw [unfold, if_neg ha, hs, hx]
  simp only [bind, Except.bind, hderived, hds, hrule, hy]
  rfl

end

section
variable {step step' : Written → Coded.Atom → Except DerivationFault (Derivation × Written)} {as : List Coded.Atom}

/-- Steps over a list, each of which succeeds or fails in its way while what is written satisfies `P`, succeed one after
the other or end with a failure of one of them. -/
theorem unfoldAll_cases {P : Written → Prop} {Q : Coded.Atom → Derivation → Prop} {E : DerivationFault → Prop}
    (h : ∀ a ∈ as, ∀ w, P w →
      (∃ d w', step w a = .ok (d, w') ∧ P w' ∧ Q a d) ∨ ∃ e, step w a = .error e ∧ E e) (hw : P w) :
    (∃ ds w', unfoldAll step w as = .ok (ds, w') ∧ P w' ∧ List.Forall₂ Q as ds) ∨
      ∃ e, unfoldAll step w as = .error e ∧ E e := by
  induction as generalizing w with
  | nil => exact .inl ⟨[], w, rfl, hw, .nil⟩
  | cons a as ih =>
    obtain ⟨d, w₁, hd, hw₁, hq⟩ | ⟨e, he, hblame⟩ := h a List.mem_cons_self w hw
    · obtain ⟨ds, w₂, hds, hw₂, hqs⟩ | ⟨e, he, hblame⟩ := ih (fun b hb => h b (List.mem_cons_of_mem _ hb)) hw₁
      · refine .inl ⟨d :: ds, w₂, ?_, hw₂, .cons hq hqs⟩
        simp only [unfoldAll, hd, hds, bind, Except.bind]
        rfl
      · refine .inr ⟨e, ?_, hblame⟩
        simp only [unfoldAll, hd, he, bind, Except.bind]
    · refine .inr ⟨e, ?_, hblame⟩
      simp only [unfoldAll, he, bind, Except.bind]

/-- Steps over a list succeed, one after the other, if each does while the rules written so far satisfy `P`. -/
theorem unfoldAll_eq_ok {P : Written → Prop} {Q : Coded.Atom → Derivation → Prop}
    (h : ∀ a ∈ as, ∀ w, P w → ∃ d w', step w a = .ok (d, w') ∧ P w' ∧ Q a d) (hw : P w) :
    ∃ ds w', unfoldAll step w as = .ok (ds, w') ∧ P w' ∧ List.Forall₂ Q as ds := by
  obtain hok | ⟨_, _, hfalse⟩ := unfoldAll_cases (E := fun _ => False) (fun a ha w hw => .inl (h a ha w hw)) hw
  · exact hok
  · exact hfalse.elim

theorem unfoldAll_congr (h : ∀ a ∈ as, ∀ w, step w a = step' w a) (w : Written) :
    unfoldAll step w as = unfoldAll step' w as := by
  induction as generalizing w with
  | nil => rfl
  | cons a as ih =>
    simp only [unfoldAll, h a List.mem_cons_self w]
    congr 1
    funext dw
    rw [ih fun b hb => h b (List.mem_cons_of_mem _ hb)]

end

/-! ## Atoms that wait -/

/-- The atoms that wait while one is unfolded: each is held, leads to that one and waits once only, and there is fuel
for all that do not wait yet. -/
structure Waits (ss : Supports) (fuel : Nat) (waiting : List Coded.Atom) (a : Coded.Atom) : Prop where
  nodup : waiting.Nodup
  held : ∀ b ∈ waiting, ∃ s, ss.get? b = some s
  leads : ∀ b ∈ waiting, Relation.TransGen ss.Rests b a
  fuel : ss.length < fuel + waiting.length

theorem waits_root (ss : Supports) (a : Coded.Atom) : ss.Waits (ss.length + 1) [] a where
  nodup := List.nodup_nil
  held b hb := by cases hb
  leads b hb := by cases hb
  fuel := Nat.lt_succ_self _

/-- As long as an atom is unfolded there is fuel. -/
theorem Waits.fuel_pos (h : ss.Waits fuel waiting a) : 0 < fuel := by
  have hsub : waiting ⊆ ss.map (·.1) := by
    intro b hb
    obtain ⟨s, hs⟩ := h.held b hb
    exact List.mem_map_of_mem (mem_of_get? hs)
  have hlen := h.nodup.length_le_of_subset hsub
  have hfuel := h.fuel
  rw [List.length_map] at hlen
  omega

/-- An atom waits for its premises. -/
theorem Waits.push (h : ss.Waits (fuel + 1) waiting a) (ha : a ∉ waiting) (hs : ss.get? a = some s)
    (hp : p ∈ s.premises) : ss.Waits fuel (a :: waiting) p where
  nodup := List.nodup_cons.2 ⟨ha, h.nodup⟩
  held b hb := by
    rcases List.mem_cons.1 hb with rfl | hb
    · exact ⟨s, hs⟩
    · exact h.held b hb
  leads b hb := by
    have hstep : ss.Rests a p := ⟨s, hs, hp⟩
    rcases List.mem_cons.1 hb with rfl | hb
    · exact .single hstep
    · exact .tail (h.leads b hb) hstep
  fuel := by
    have hfuel := h.fuel
    rw [List.length_cons]
    omega

/-- More fuel makes no difference. -/
theorem Waits.unfold_add (h : ss.Waits fuel waiting a) (extra : Nat) (w : Written) :
    ss.unfold t (fuel + extra) waiting w a = ss.unfold t fuel waiting w a := by
  induction fuel generalizing waiting a w with
  | zero => exact absurd h.fuel_pos (Nat.lt_irrefl 0)
  | succ fuel ih =>
    rw [Nat.add_right_comm, unfold, unfold]
    by_cases ha : a ∈ waiting
    · rw [if_pos ha, if_pos ha]
      cases nameAtom t a <;> rfl
    · rw [if_neg ha, if_neg ha]
      cases hs : ss.get? a with
      | none => rfl
      | some s =>
        have hpremises : unfoldAll (ss.unfold t (fuel + extra) (a :: waiting)) w s.premises =
            unfoldAll (ss.unfold t fuel (a :: waiting)) w s.premises :=
          unfoldAll_congr (fun p hp w => ih (h.push ha hs hp) w) w
        simp only [hpremises]

/-! ## Rules as they are written -/

/-- What is so of all rules written so far, and of what one more is decoded to, is so of what that is written as. -/
theorem exists_writeRule {P : Coded.Clause → Rule → Prop} (hw : ∀ e ∈ w, P e.1 e.2) (hz : c.decode t = .ok z)
    (h : P c.toClause z) :
    ∃ y w', writeRule t w c = .ok (y, w') ∧ (∀ e ∈ w', P e.1 e.2) ∧ P c.toClause y := by
  unfold writeRule
  split
  · next e he =>
    have heq : e.1 = c.toClause := by simpa using List.find?_some he
    exact ⟨e.2, w, rfl, hw, heq ▸ hw e (List.mem_of_find?_eq_some he)⟩
  · rw [hz]
    exact ⟨z, _, rfl, List.forall_mem_append.2 ⟨hw, List.forall_mem_singleton.2 h⟩, h⟩

/-- Each rule written so far is what some rule with its clause reads as. -/
def Legible (t : SymbolTable) (w : Written) : Prop := ∀ e ∈ w, ∃ c : Coded.Rule, c.toClause = e.1 ∧ c.Reads t e.2

/-- A rule is written with its own variables or with those of a variant of it. -/
theorem Legible.writeRule_eq_ok (hw : Legible t w) (hz : c.Reads t z) :
    ∃ y w', writeRule t w c = .ok (y, w') ∧ Legible t w' ∧ z.IsVariant y := by
  obtain ⟨y, w', hy, hw', old, hclause, hread⟩ := exists_writeRule
    (P := fun clause y => ∃ old : Coded.Rule, old.toClause = clause ∧ old.Reads t y) hw hz.decode ⟨c, rfl, hz⟩
  exact ⟨y, w', hy, hw', hz.isVariant_of_clause_eq hread hclause.symm⟩

/-- All atoms of the supports are ground and read under the table, and each of their rules was encoded at an earlier
state of it. -/
structure Issued (ss : Supports) (t : SymbolTable) : Prop where
  facts : ∀ e ∈ ss, ∃ x, e.1.Reads t [] x
  premises : ∀ e ∈ ss, ∀ p ∈ e.2.premises, ∃ x, p.Reads t [] x
  rules : ∀ e ∈ ss, ∀ c, e.2.rule = some c →
    ∃ (z : Rule) (u : SymbolTable), u.Distinct ∧ (z.encode u).1 = c ∧ (z.encode u).2.Extends t

theorem Issued.exists_rule (h : ss.Issued t) (hs : ss.get? a = some s) (hc : s.rule = some c) : ∃ z, c.Reads t z := by
  obtain ⟨z, u, hu, rfl, ht⟩ := h.rules _ (mem_of_get? hs) c hc
  exact ⟨z, (Rule.encode_reads hu z).2.2.mono ht⟩

/-! ## Outcomes -/

/-- The tree of an atom whose premises have unfolded. -/
theorem Issued.unfold_eq_ok (hi : ss.Issued t) (ha : a ∉ waiting) (hs : ss.get? a = some s) (hx : a.Reads t [] x)
    (hderived : s.isSeed = false) {ds : List Derivation}
    (hds : unfoldAll (ss.unfold t fuel (a :: waiting)) w s.premises = .ok (ds, w')) (hw : Legible t w')
    (hall : List.Forall₂ (ss.Unfolds t) s.premises ds) :
    ∃ d w'', ss.unfold t (fuel + 1) waiting w a = .ok (d, w'') ∧ Legible t w'' ∧ ss.Unfolds t a d := by
  have hname := nameAtom_eq_ok hx
  have hchildren := List.forall₂_iff_zip.1 hall
  have hnode : ∀ y?, Option.Rel (fun c y => ∃ z, c.decode t = .ok z ∧ z.IsVariant y) s.rule y? →
      ss.Unfolds t a (.node x ds y?) :=
    fun _ hrule => .node hs hderived hx.decode_ground hrule hchildren.1 fun _ _ hpd => hchildren.2 hpd
  cases hrule : s.rule with
  | none =>
    rw [hrule] at hnode
    exact ⟨_, w', unfold_of_derived ha hs hname hderived hds hrule, hw, hnode none .none⟩
  | some c =>
    rw [hrule] at hnode
    obtain ⟨z, hz⟩ := hi.exists_rule hs hrule
    obtain ⟨y, w'', hy, hw'', hvariant⟩ := hw.writeRule_eq_ok hz
    exact ⟨_, w'', unfold_of_inferred ha hs hname hderived hds hrule hy, hw'',
      hnode (some y) (.some ⟨z, hz.decode, hvariant⟩)⟩

/-- An atom unfolds to its tree, or to a fault with an atom to blame. -/
theorem Waits.unfold_cases (h : ss.Waits fuel waiting a) (hi : ss.Issued t) (ha : ∃ x, a.Reads t [] x)
    (hw : Legible t w) :
    (∃ d w', ss.unfold t fuel waiting w a = .ok (d, w') ∧ Legible t w' ∧ ss.Unfolds t a d) ∨
      ∃ e, ss.unfold t fuel waiting w a = .error e ∧ ss.Blames t a e := by
  induction fuel generalizing waiting a w with
  | zero => exact absurd h.fuel_pos (Nat.lt_irrefl 0)
  | succ fuel ih =>
    obtain ⟨x, hx⟩ := ha
    have hname := nameAtom_eq_ok hx
    by_cases hwait : a ∈ waiting
    · -- what waits for `a` and is `a` itself leads back to it
      exact .inr ⟨_, unfold_of_waiting hwait hname, .cycle .refl (h.leads a hwait) hx.decode_ground⟩
    · cases hs : ss.get? a with
      | none => exact .inr ⟨_, unfold_of_unsupported hwait hs hname, .unsupported .refl hs hx.decode_ground⟩
      | some s =>
        cases hseed : s.isSeed with
        | true => exact .inl ⟨_, w, unfold_of_seed hwait hs hname hseed, hw, .leaf hs hseed hx.decode_ground⟩
        | false =>
          have hpremises : ∀ p ∈ s.premises, ∀ w, Legible t w →
              (∃ d w', ss.unfold t fuel (a :: waiting) w p = .ok (d, w') ∧ Legible t w' ∧ ss.Unfolds t p d) ∨
                ∃ e, ss.unfold t fuel (a :: waiting) w p = .error e ∧ ss.Blames t a e := by
            intro p hp w hw
            have hread := hi.premises _ (mem_of_get? hs) p hp
            obtain htree | ⟨e, he, hblame⟩ := ih (h.push hwait hs hp) hread hw
            · exact .inl htree
            · exact .inr ⟨e, he, hblame.of_rests ⟨s, hs, hp⟩⟩
          obtain ⟨ds, w', hds, hw', hall⟩ | ⟨e, he, hblame⟩ := unfoldAll_cases hpremises hw
          · exact .inl (hi.unfold_eq_ok hwait hs hx hseed hds hw' hall)
          · exact .inr ⟨e, unfold_of_failed hwait hs hname hseed he, hblame⟩

inductive Outcome (ss : Supports) (t : SymbolTable) (a : Coded.Atom) : Except DerivationFault (Option Derivation) → Prop
  | nothing (missing : ss.get? a = none) : Outcome ss t a (.ok none)
  | tree {d : Derivation} (unfolds : ss.Unfolds t a d) : Outcome ss t a (.ok (some d))
  | fault {s : Support} {e : DerivationFault} (held : ss.get? a = some s) (blames : ss.Blames t a e) :
      Outcome ss t a (.error e)

theorem Issued.outcome (hi : ss.Issued t) (ha : ∃ x, a.Reads t [] x) : ss.Outcome t a (ss.derivation? t a) := by
  unfold derivation?
  cases hs : ss.get? a with
  | none => exact .nothing hs
  | some s =>
    have hnone : Legible t [] := fun e he => by cases he
    obtain ⟨d, w, hd, -, hunfolds⟩ | ⟨e, he, hblame⟩ := (waits_root ss a).unfold_cases hi ha hnone
    · rw [hd]
      exact .tree hunfolds
    · rw [he]
      exact .fault hs hblame

section
variable {o : Except DerivationFault (Option Derivation)} (h : ss.Outcome t a o)
include h

theorem Outcome.eq_nothing_iff : o = .ok none ↔ ss.get? a = none := by
  cases h with
  | nothing missing => exact iff_of_true rfl missing
  | tree unfolds =>
    obtain ⟨s, hs⟩ := unfolds.exists_support
    simp [hs]
  | fault held _ => simp [held]

/-- There is a tree unless the atom leads to one that is circular or not held. -/
theorem Outcome.exists_tree_iff : (∃ d, o = .ok (some d)) ↔
    ∀ b, ss.Leads a b → (∃ s, ss.get? b = some s) ∧ ¬ ss.Circular b := by
  cases h with
  | nothing missing =>
    refine iff_of_false (by simp) fun h => ?_
    obtain ⟨⟨s, hs⟩, -⟩ := h a .refl
    cases missing.symm.trans hs
  | tree unfolds => exact iff_of_true ⟨_, rfl⟩ fun b hb => ⟨unfolds.held hb, unfolds.not_circular hb⟩
  | fault _ blames =>
    refine iff_of_false (by simp) fun h => ?_
    cases blames with
    | cycle leads circular _ => exact (h _ leads).2 circular
    | unsupported leads missing _ =>
      obtain ⟨⟨s, hs⟩, -⟩ := h _ leads
      cases missing.symm.trans hs

end

theorem Outcome.unfolds (h : ss.Outcome t a (.ok (some d))) : ss.Unfolds t a d := by
  cases h with
  | tree unfolds => exact unfolds

theorem Outcome.blames (h : ss.Outcome t a (.error e)) : ss.Blames t a e := by
  cases h with
  | fault _ blames => exact blames

/-- The derivation of an atom is exact: there is one just if the atom leads to nothing circular and to nothing that is
not held, it is then the tree of the supports, and otherwise the fault has an atom to blame. -/
structure Unravels (ss : Supports) (t : SymbolTable) (a : Coded.Atom) : Prop where
  /-- The fuel does not run out, so unfolding ends. -/
  ends : ∀ extra, ss.unfold t (ss.length + 1 + extra) [] [] a = ss.unfold t (ss.length + 1) [] [] a
  nothing : ss.derivation? t a = .ok none ↔ ss.get? a = none
  exists_tree : (∃ d, ss.derivation? t a = .ok (some d)) ↔
    ∀ b, ss.Leads a b → (∃ s, ss.get? b = some s) ∧ ¬ ss.Circular b
  tree : ∀ d, ss.derivation? t a = .ok (some d) → ss.Unfolds t a d
  fault : ∀ e, ss.derivation? t a = .error e → ss.Blames t a e

theorem unravels_of_issued (hi : ss.Issued t) (ha : ∃ x, a.Reads t [] x) : ss.Unravels t a := by
  have h := hi.outcome ha
  refine ⟨fun extra => (waits_root ss a).unfold_add extra [], h.eq_nothing_iff, h.exists_tree_iff,
    fun d hd => ?_, fun e he => ?_⟩
  · rw [hd] at h
    exact h.unfolds
  · rw [he] at h
    exact h.blames

def diamondTable : SymbolTable := ⟨1, ["a", "base", "left", "right", "top", "again"]⟩

def diamondAtom (predicate : Nat) : Coded.Atom := ⟨⟨1, predicate⟩, [.sym ⟨1, 0⟩]⟩

/-- What is left and right is on top. -/
def diamondRule : Rule :=
  ⟨[⟨"left", [.var "X"]⟩, ⟨"right", [.var "X"]⟩], ⟨"top", [.var "X"]⟩⟩

/-- A fact that rests on two others by a rule, both of them on the same stated one, and beside it a fact that rests on
itself. -/
def diamond : Supports :=
  [(diamondAtom 1, .seed), (diamondAtom 2, ⟨[diamondAtom 1], none, 1⟩), (diamondAtom 3, ⟨[diamondAtom 1], none, 1⟩),
    (diamondAtom 4, ⟨[diamondAtom 2, diamondAtom 3], some (diamondRule.encode diamondTable).1, 2⟩),
    (diamondAtom 5, ⟨[diamondAtom 5], none, 1⟩)]

theorem unravels_diamond : diamond.Unravels diamondTable (diamondAtom 4) := by
  have hreads : ∀ i name, diamondTable.names[i]? = some name →
      (diamondAtom i).Reads diamondTable [] ⟨name, [.const "a"]⟩ :=
    fun i name h => ⟨SymbolTable.nameOf?_eq_some_iff.2 ⟨rfl, h⟩, .cons rfl .nil⟩
  have hbase := hreads 1 "base" rfl
  have hleft := hreads 2 "left" rfl
  have hright := hreads 3 "right" rfl
  have htop := hreads 4 "top" rfl
  have hagain := hreads 5 "again" rfl
  refine unravels_of_issued ⟨?_, ?_, ?_⟩ ⟨_, htop⟩
  · simp only [diamond, List.forall_mem_cons]
    exact ⟨⟨_, hbase⟩, ⟨_, hleft⟩, ⟨_, hright⟩, ⟨_, htop⟩, ⟨_, hagain⟩, fun e he => by cases he⟩
  · simp only [diamond, Support.seed, List.forall_mem_cons]
    have hnil : ∀ p ∈ ([] : List Coded.Atom), ∃ x, p.Reads diamondTable [] x := fun p hp => by cases hp
    exact ⟨hnil, ⟨⟨_, hbase⟩, hnil⟩, ⟨⟨_, hbase⟩, hnil⟩, ⟨⟨_, hleft⟩, ⟨_, hright⟩, hnil⟩, ⟨⟨_, hagain⟩, hnil⟩,
      fun e he => by cases he⟩
  · have hdistinct : diamondTable.Distinct := by
      unfold SymbolTable.Distinct
      decide
    have hnone : ∀ c : Coded.Rule, none = some c → ∃ (z : Rule) (u : SymbolTable),
        u.Distinct ∧ (z.encode u).1 = c ∧ (z.encode u).2.Extends diamondTable := fun c hc => by cases hc
    simp only [diamond, Support.seed, List.forall_mem_cons]
    exact ⟨hnone, hnone, hnone, fun c hc => ⟨diamondRule, _, hdistinct, Option.some.inj hc, .refl _⟩, hnone,
      fun e he => by cases he⟩

end Entail.Supports
