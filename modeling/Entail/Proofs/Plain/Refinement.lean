import Entail.Proofs.Certificates
import Entail.Proofs.Plain.Matching

/-!
# Rounds over names

* `Refines r p` : the facts, supports and rules of `r` stand for those of `p`, place by place;
* `Refines.inferences`, `Refines.fresh`, `Refines.advance` : the rules that apply in a round, those whose conclusions it
  holds, and the reasoners after it;
* `Refines.derive_eq`, `Refines.checkConsistent_eq` : the same derivations, and the same contradiction with the same
  derivation;
* `Refines.round_eq` : so one round gives the same number or fails alike, and the reasoners still match.
-/

namespace Entail

open Coded (Application)

/-! ## Lists side by side -/

namespace Selection

variable {α β : Type} {R : α → β → Prop} {xs : List α} {ys : List β}

theorem increasing_forall₂ (h : List.Forall₂ R xs ys) (k : Nat) :
    List.Forall₂ (List.Forall₂ R) (increasing k xs) (increasing k ys) := by
  induction h generalizing k with
  | nil =>
    cases k with
    | zero => exact .cons .nil .nil
    | succ k => exact .nil
  | @cons x y xs ys hxy hs ih =>
    cases k with
    | zero => exact .cons .nil .nil
    | succ k =>
      have hhead : List.Forall₂ (List.Forall₂ R) ((increasing k xs).map (x :: ·)) ((increasing k ys).map (y :: ·)) :=
        List.rel_map (fun _ _ hz => .cons hxy hz) (ih k)
      exact List.rel_append hhead (ih (k + 1))

theorem unrestricted_forall₂ (h : List.Forall₂ R xs ys) (k : Nat) :
    List.Forall₂ (List.Forall₂ R) (unrestricted k xs) (unrestricted k ys) := by
  induction k with
  | zero => exact .cons .nil .nil
  | succ k ih => exact List.rel_flatMap h fun _ _ hxy => List.rel_map (fun _ _ hz => .cons hxy hz) ih

end Selection

theorem exists_split_of_forall₂ {α β : Type} {R : α → β → Prop} {xs zs : List α} {x : α} {ys : List β}
    (h : List.Forall₂ R (xs ++ x :: zs) ys) :
    ∃ earlier y later, ys = earlier ++ y :: later ∧ List.Forall₂ R xs earlier ∧ R x y := by
  induction xs generalizing ys with
  | nil =>
    obtain ⟨y, later, hxy, -, rfl⟩ := List.forall₂_cons_left_iff.1 h
    exact ⟨[], y, later, rfl, .nil, hxy⟩
  | cons w xs ih =>
    obtain ⟨y, rest, hwy, hrest, rfl⟩ := List.forall₂_cons_left_iff.1 h
    obtain ⟨earlier, z, later, rfl, hxs, hxz⟩ := ih hrest
    exact ⟨y :: earlier, z, later, rfl, .cons hwy hxs, hxz⟩

/-- The first entries that satisfy matching conditions are matching entries. -/
theorem find?_rel {α β : Type} {R : α → β → Prop} {xs : List α} {ys : List β} {p : α → Bool} {q : β → Bool}
    (h : List.Forall₂ R xs ys) (hpq : ∀ x y, R x y → p x = q y) : Option.Rel R (xs.find? p) (ys.find? q) := by
  induction h with
  | nil => exact .none
  | @cons x y xs ys hxy _ ih =>
    rw [List.find?_cons, List.find?_cons, ← hpq x y hxy]
    cases p x with
    | true => exact .some hxy
    | false => exact ih

namespace PlainReasoner

variable {p : PlainReasoner} {x : Atom} {y : Reason}

/-! ## The state over names -/

theorem atoms_hold (p : PlainReasoner) (x : Atom) (y : Reason) : (p.hold x y).atoms = p.atoms ++ [x] := by
  simp [atoms, hold]

/-- The contradiction is the first of its predicate. -/
theorem contradiction_hold (h : p.contradiction = p.atoms.find? p.isBottom) (x : Atom) (y : Reason) :
    (p.hold x y).contradiction = (p.hold x y).atoms.find? (p.hold x y).isBottom := by
  have hbottom : (p.hold x y).isBottom = p.isBottom := rfl
  rw [atoms_hold, hbottom, List.find?_append, ← h, hold]
  cases hc : p.contradiction with
  | none => cases hb : p.isBottom x <;> simp [hb]
  | some b => rfl

/-- Holds the conclusions of inferences, one after the other. -/
def holdAll (g : Nat) (p : PlainReasoner) (is : List Inference) : PlainReasoner :=
  is.foldl (fun q i => q.hold i.conclusion (i.reason g)) p

theorem holdAll_eq (g : Nat) (p : PlainReasoner) (is : List Inference) :
    p.holdAll g is =
      { p with facts := p.facts ++ is.map fun i => (i.conclusion, i.reason g),
               contradiction := (p.holdAll g is).contradiction } := by
  induction is generalizing p with
  | nil => simp [holdAll]
  | cons i is ih =>
    change (p.hold i.conclusion (i.reason g)).holdAll g is = _
    rw [ih]
    simp only [hold, List.map_cons, List.append_assoc, List.singleton_append]
    rfl

theorem contradiction_holdAll (g : Nat) (is : List Inference) (h : p.contradiction = p.atoms.find? p.isBottom) :
    (p.holdAll g is).contradiction = (p.holdAll g is).atoms.find? (p.holdAll g is).isBottom := by
  induction is generalizing p with
  | nil => exact h
  | cons i is ih => exact ih (contradiction_hold h _ _)

theorem derivationIn_eq_none {facts : List (Atom × Reason)} (h : x ∉ facts.map (·.1)) :
    derivationIn facts x = none := by
  induction facts with
  | nil => rfl
  | cons e facts ih =>
    simp only [List.map_cons, List.mem_cons, not_or] at h
    rw [derivationIn, if_neg (fun he => h.1 he.symm), ih h.2]

/-- Later facts do not matter for the derivation of an earlier one. -/
theorem derivationIn_append {later earlier : List (Atom × Reason)} (h : x ∉ later.map (·.1)) :
    derivationIn (later ++ earlier) x = derivationIn earlier x := by
  induction later with
  | nil => rfl
  | cons e later ih =>
    simp only [List.map_cons, List.mem_cons, not_or] at h
    rw [List.cons_append, derivationIn, if_neg (fun he => h.1 he.symm), ih h.2]

theorem derivation?_of_split {earlier later : List (Atom × Reason)} (heq : p.facts = earlier ++ later)
    (h : x ∉ later.map (·.1)) : p.derivation? x = derivationIn earlier.reverse x := by
  rw [derivation?, heq, List.reverse_append, derivationIn_append]
  simpa using h

theorem derivation?_eq_none (h : x ∉ p.atoms) : p.derivation? x = none := by
  refine derivationIn_eq_none ?_
  rwa [List.map_reverse, List.mem_reverse]

theorem generationOf_eq_none_iff : p.generationOf x = none ↔ x ∉ p.atoms := by
  simp only [generationOf, atoms, Option.map_eq_none_iff, List.find?_eq_none, decide_eq_true_eq, List.mem_map,
    not_exists, not_and]

end PlainReasoner

/-! ## What stands for what -/

structure Support.Reads (t : SymbolTable) (s : Support) (y : Reason) : Prop where
  premises : List.Forall₂ (Coded.Atom.Reads t []) s.premises y.premises
  rule : Option.Rel (Coded.Rule.Reads t) s.rule y.rule
  generation : s.generation = y.generation

theorem Support.reads_seed (t : SymbolTable) : Support.seed.Reads t ⟨[], none, 0⟩ := ⟨.nil, .none, rfl⟩

theorem Support.Reads.mono {t u : SymbolTable} {s : Support} {y : Reason} (h : s.Reads t y) (ht : t.Extends u) :
    s.Reads u y := by
  obtain ⟨ps, c, g⟩ := s
  obtain ⟨xs, z, g'⟩ := y
  obtain ⟨hps, hc, hg⟩ := h
  refine ⟨hps.imp fun _ _ h => h.mono ht List.prefix_rfl, ?_, hg⟩
  cases hc with
  | none => exact .none
  | some hc => exact .some (hc.mono ht)

theorem Coded.Application.Reads.support {t : SymbolTable} {a : Application} {i : Inference} (h : a.Reads t i)
    (g : Nat) : Support.Reads t ⟨a.premises, some a.rule, g⟩ (i.reason g) := ⟨h.premises, .some h.rule, rfl⟩

theorem Coded.Atom.Reads.biUnique {t : SymbolTable} (ht : t.Distinct) : Relator.BiUnique (Coded.Atom.Reads t []) :=
  ⟨fun _ _ _ h h' => h.inj ht List.nodup_nil h', fun _ _ _ h h' => h.unique h'⟩

namespace Reasoner

/-- Place by place, what the reasoner holds stands for what the reasoner over names holds. -/
structure Refines (r : Reasoner) (p : PlainReasoner) : Prop where
  settings : r.settings = p.settings
  facts : List.Forall₂ (fun e f => e.1.Reads r.symbols [] f.1 ∧ e.2.Reads r.symbols f.2) r.supports p.facts
  rules : List.Forall₂ (fun c x => c.Reads r.symbols x ∧ c.names = x.variableNames) r.rules p.rules
  generation : r.generation = p.generation
  contradiction : p.contradiction = p.atoms.find? p.isBottom
  tally : r.tally = p.tally

variable {r s : Reasoner} {p : PlainReasoner} {a : Coded.Atom} {x : Atom}

/-- Names may be added, and counts may change alike. -/
theorem Refines.keeps (h : Refines r p) (hk : Keeps r s) {u : Tally} (hu : s.tally = u) :
    Refines s { p with tally := u } where
  settings := hk.settings.trans h.settings
  facts := by
    rw [hk.supports]
    exact h.facts.imp fun _ _ h => ⟨h.1.mono hk.table List.prefix_rfl, h.2.mono hk.table⟩
  rules := by
    rw [hk.rules]
    exact h.rules.imp fun _ _ h => ⟨h.1.mono hk.table, h.2⟩
  generation := hk.generation.trans h.generation
  contradiction := h.contradiction
  tally := hu

theorem Refines.write (h : Refines r p) (level : Level) (text : String) : Refines (r.write level text) p :=
  h.keeps (keeps_write r level text) h.tally

theorem Refines.atoms (h : Refines r p) (hs : Supported r) :
    List.Forall₂ (Coded.Atom.Reads r.symbols []) r.atoms p.atoms := by
  rw [← hs.keys]
  exact List.rel_map (fun _ _ he => he.1) h.facts

theorem Refines.mem_iff (h : Refines r p) (hc : Coherent r) (hx : a.Reads r.symbols [] x) :
    a ∈ r.atoms ↔ x ∈ p.atoms := List.rel_mem (Coded.Atom.Reads.biUnique hc.distinct) hx (h.atoms hc.toSupported)

theorem Refines.isBottom_eq (h : Refines r p) (hr : Readable r) (hx : a.Reads r.symbols [] x) :
    r.isBottom a = p.isBottom x := by
  rw [Bool.eq_iff_iff, isBottom_iff, hr.bottom_iff hx, h.settings, PlainReasoner.isBottom, decide_eq_true_iff]

/-- The contradictions stand for each other. -/
theorem Refines.contradiction_rel (h : Refines r p) (hc : Coherent r) :
    Option.Rel (Coded.Atom.Reads r.symbols []) r.contradiction p.contradiction := by
  rw [hc.contradiction, h.contradiction]
  exact find?_rel (h.atoms hc.toSupported) fun _ _ hx => h.isBottom_eq hc.toReadable hx

/-! ## Rounds -/

theorem Refines.selections (h : Refines r p) (hs : Supported r) (k : Nat) :
    List.Forall₂ (List.Forall₂ (Coded.Atom.Reads r.symbols [])) (r.selections k) (p.selections k) := by
  unfold Reasoner.selections PlainReasoner.selections
  rw [h.settings]
  split_ifs
  · exact Selection.unrestricted_forall₂ (h.atoms hs) k
  · exact Selection.increasing_forall₂ (h.atoms hs) k

theorem Refines.attempts (h : Refines r p) (hc : Coherent r) :
    List.Forall₂ (fun e i => Option.Rel (Application.Reads r.symbols) e.toOption i) r.attempts p.attempts := by
  refine List.rel_flatMap h.rules fun c x ⟨hread, _⟩ => ?_
  rw [hread.premises.length_eq, List.forall₂_map_left_iff, List.forall₂_map_right_iff]
  exact (h.selections hc.toSupported _).imp fun _ _ hf => hread.conclude hc.distinct hf

theorem Refines.inferences (h : Refines r p) (hc : Coherent r) :
    List.Forall₂ (Application.Reads r.symbols) r.applications p.inferences :=
  List.rel_filterMap (fun _ _ he => he) (h.attempts hc)

theorem admitted_reads {t : SymbolTable} (ht : t.Distinct) {b : Option Symbol} {b' : Option String}
    (hb : ∀ a x, Coded.Atom.Reads t [] a x → (b = some a.predicate ↔ b' = some x.predicate)) {as : List Application}
    {is : List Inference} (h : List.Forall₂ (Application.Reads t) as is) {known : List Coded.Atom} {known' : List Atom}
    (hknown : List.Forall₂ (Coded.Atom.Reads t []) known known') :
    List.Forall₂ (Application.Reads t) (admitted b known as) (PlainReasoner.admitted b' known' is) := by
  induction h generalizing known known' with
  | nil => exact .nil
  | @cons a i as is hai hrest ih =>
    have hmem : a.conclusion ∈ known ↔ i.conclusion ∈ known' :=
      List.rel_mem (Coded.Atom.Reads.biUnique ht) hai.conclusion hknown
    simp only [admitted, PlainReasoner.admitted, hmem, hb _ _ hai.conclusion]
    split_ifs
    · exact ih hknown
    · exact .cons hai .nil
    · exact .cons hai (ih (List.rel_append hknown (.cons hai.conclusion .nil)))

theorem Refines.fresh (h : Refines r p) (hc : Coherent r) :
    List.Forall₂ (Application.Reads r.symbols) r.fresh p.fresh := by
  refine admitted_reads hc.distinct (fun a x hx => ?_) (h.inferences hc) (h.atoms hc.toSupported)
  rw [hc.bottom_iff hx, h.settings]

theorem Refines.advance (h : Refines r p) (hc : Coherent r) (hnone : r.contradiction = none) :
    Refines r.advance.2 p.advance := by
  have hfresh := h.fresh hc
  have hnil : r.fresh = [] ↔ p.fresh = [] := by
    rw [← List.length_eq_zero_iff, hfresh.length_eq, List.length_eq_zero_iff]
  have hstep : p.advance = { p.holdAll (p.generation + 1) p.fresh with
      generation := p.advance.generation, tally := p.advance.tally } := rfl
  have hstepped : Refines r.stepped { p.advance with tally := r.stepped.tally } := by
    refine ⟨?_, ?_, ?_, ?_, ?_, rfl⟩
    · rw [r.stepped_frame.settings, h.settings, hstep, PlainReasoner.holdAll_eq]
    · rw [hc.supports_stepped, r.stepped_frame.symbols, hstep, PlainReasoner.holdAll_eq]
      refine List.rel_append h.facts (List.rel_map (fun a i hai => ⟨hai.conclusion, ?_⟩) hfresh)
      rw [h.generation]
      exact hai.support _
    · rw [r.stepped_frame.rules, r.stepped_frame.symbols, hstep, PlainReasoner.holdAll_eq]
      exact h.rules
    · simp only [stepped, PlainReasoner.advance, hnil, h.generation]
    · exact PlainReasoner.contradiction_holdAll _ _ h.contradiction
  refine hstepped.keeps (keeps_advance hnone) ?_
  have hcount : (commit (r.generation + 1) r r.applications).1 = p.fresh.length := by
    rw [commit_eq _ _ hnone, ← hfresh.length_eq, Reasoner.fresh]
  simp only [Reasoner.advance, Reasoner.write, hcount, h.tally, (h.attempts hc).length_eq,
    (h.inferences hc).length_eq]

/-! ## Derivations -/

theorem Refines.nodup (h : Refines r p) (hc : Coherent r) : p.atoms.Nodup :=
  (List.rel_nodup (Coded.Atom.Reads.biUnique hc.distinct) (h.atoms hc.toSupported)).1 hc.nodup

/-- A fact is derived from the derivations of its premises. -/
theorem Refines.exists_reason (h : Refines r p) (hc : Coherent r) {earlier later : Supports} {sup : Support}
    (heq : r.supports = earlier ++ (a, sup) :: later) (hheld : ∀ q ∈ sup.premises, ∃ t, (q, t) ∈ earlier)
    (hx : a.Reads r.symbols [] x) :
    ∃ y, sup.Reads r.symbols y ∧ p.derivation? x = (y.premises.mapM p.derivation?).map fun ds => .node x ds y.rule := by
  obtain ⟨before, ⟨x', y⟩, after, hsplit, hbefore, hread, hy⟩ := exists_split_of_forall₂ (heq ▸ h.facts)
  obtain rfl := hread.unique hx
  have hn := h.nodup hc
  rw [PlainReasoner.atoms, hsplit, List.map_append, List.nodup_append] at hn
  have hpremises : ∀ z ∈ y.premises, p.derivation? z = PlainReasoner.derivationIn before.reverse z := by
    intro z hz
    obtain ⟨q, hq, hqz⟩ := exists_left_of_forall₂ hy.premises hz
    obtain ⟨t, ht⟩ := hheld q hq
    obtain ⟨f, hf, hqf, -⟩ := exists_right_of_forall₂ hbefore ht
    obtain rfl := hqf.unique hqz
    exact PlainReasoner.derivation?_of_split hsplit fun hmem => hn.2.2 _ (List.mem_map_of_mem hf) _ hmem rfl
  refine ⟨y, hy, ?_⟩
  have hlast : p.derivation? x' = PlainReasoner.derivationIn ((x', y) :: before.reverse) x' := by
    rw [List.append_cons] at hsplit
    rw [PlainReasoner.derivation?_of_split hsplit (List.nodup_cons.1 hn.2.1).1, List.reverse_concat]
  rw [hlast, PlainReasoner.derivationIn, if_pos rfl, mapM_congr hpremises]

/-- The same derivations. -/
theorem Refines.derive_eq (h : Refines r p) (hc : Coherent r) (hx : a.Reads r.symbols [] x) :
    r.derive a = .ok (p.derivation? x) := by
  by_cases ha : a ∈ r.atoms
  · have hq : r.Inherited fun b d => ∀ y, b.Reads r.symbols [] y → p.derivation? y = some d := by
      refine ⟨fun b z hb hz y hy => ?_, fun earlier b ps c g later z w ds heq hj hz hw hds y hy => ?_⟩
      · obtain ⟨earlier, later, heq⟩ := List.append_of_mem hb
        obtain ⟨⟨zs, c, g⟩, hread, hd⟩ := h.exists_reason hc heq (fun q hq => nomatch hq) hy
        obtain ⟨hps, hrule, -⟩ := hread
        cases hps
        cases hrule
        rw [hd, hz.unique hy]
        rfl
      · cases hj with
        | derived hrule hne hheld happly =>
          obtain ⟨⟨zs, w', g'⟩, hread, hd⟩ := h.exists_reason hc heq (fun q hq => (hheld q hq).imp fun _ ht => ht.1) hy
          obtain ⟨hps, hcw, -⟩ := hread
          obtain ⟨hcw⟩ := hcw
          have hchildren : zs.mapM p.derivation? = some ds := by
            refine mapM_eq_some.2 ((forall₂_of_common hps hds).imp ?_)
            rintro z d ⟨q, -, hqz, hqd⟩
            exact hqd z hqz
          rw [hd, hchildren, hz.unique hy, hcw.unique hw]
          rfl
    obtain ⟨d, hd, had⟩ := hc.exists_derive hq ha
    rw [hd, had x hx]
  · have hx' : x ∉ p.atoms := fun hmem => ha ((h.mem_iff hc hx).2 hmem)
    rw [PlainReasoner.derivation?, PlainReasoner.derivationIn_eq_none (by simpa [PlainReasoner.atoms] using hx')]
    have hget : r.supports.get? a = none := by
      rw [Supports.get?, Option.map_eq_none_iff, List.find?_eq_none]
      intro e he hea
      exact ha (of_decide_eq_true hea ▸ hc.mem_atoms he)
    rw [derive, Supports.derivation?, hget]

theorem Refines.checkConsistent_eq (h : Refines r p) (hc : Coherent r) : r.checkConsistent = p.checkConsistent := by
  have hrel := h.contradiction_rel hc
  unfold Reasoner.checkConsistent PlainReasoner.checkConsistent
  generalize r.contradiction = c, p.contradiction = d at hrel
  cases hrel with
  | none => rfl
  | some hx =>
    simp only [nameFact_eq_ok hx, h.derive_eq hc hx]
    rfl

/-- One round. -/
theorem Refines.round_eq (h : Refines r p) (hc : Coherent r) : ∃ s, r.round = (p.round.1, s) ∧ Refines s p.round.2 := by
  have hcheck := h.checkConsistent_eq hc
  cases hp : p.checkConsistent with
  | error e =>
    rw [PlainReasoner.round, hp]
    exact ⟨r, round_of_inconsistent (hcheck.trans hp), h⟩
  | ok _ =>
    have hnone := checkConsistent_eq_ok.1 (hcheck.trans hp)
    have hafter := h.advance hc hnone
    have hcafter := hc.stepped.keeps (keeps_advance hnone)
    rw [PlainReasoner.round, hp]
    refine ⟨r.advance.2, ?_, hafter⟩
    rw [round_of_consistent hnone, advance_fst hnone, hafter.checkConsistent_eq hcafter, (h.fresh hc).length_eq]

end Reasoner

end Entail
