import Entail.Proofs.Matching
import Entail.Reasoner.Round

/-!
# What a round does

* `Selection.mem_unrestricted`, `Selection.mem_increasing` : the selections of each kind;
* `mem_applications` : the rules that apply in a round;
* `insert_of_mem`, `insert_of_not_mem` : a fact held already, and a new one;
* `admitted` : the applications whose conclusions a round holds, the first for each new conclusion up to the first
  contradiction; `commit_eq` : holding them one after the other is what `commit` does;
* `stepped` : the reasoner after a round, counts and journal apart.
-/

namespace Entail

open Coded (Application)

/-! ## Selections -/

namespace Selection

variable {α : Type} {k : Nat} {xs ys : List α}

theorem mem_unrestricted : ys ∈ unrestricted k xs ↔ ys.length = k ∧ ∀ y ∈ ys, y ∈ xs := by
  induction k generalizing ys with
  | zero => simp +contextual [unrestricted]
  | succ k ih =>
    simp only [unrestricted, List.mem_flatMap, List.mem_map]
    constructor
    · rintro ⟨x, hx, zs, hzs, rfl⟩
      obtain ⟨hlen, hall⟩ := ih.1 hzs
      refine ⟨by rw [List.length_cons, hlen], fun y hy => ?_⟩
      rcases List.mem_cons.1 hy with rfl | hy
      · exact hx
      · exact hall y hy
    · rintro ⟨hlen, hall⟩
      obtain _ | ⟨y, zs⟩ := ys
      · cases hlen
      · refine ⟨y, hall y List.mem_cons_self, zs, ih.2 ⟨by simpa using hlen, fun z hz => ?_⟩, rfl⟩
        exact hall z (List.mem_cons_of_mem _ hz)

theorem length_unrestricted (k : Nat) (xs : List α) : (unrestricted k xs).length = Nat.pow xs.length k := by
  induction k with
  | zero => rfl
  | succ k ih => simp [unrestricted, List.length_flatMap, ih, Nat.pow_succ, Nat.mul_comm]

theorem mem_increasing : ys ∈ increasing k xs ↔ ys.Sublist xs ∧ ys.length = k := by
  induction xs generalizing k ys with
  | nil =>
    cases k with
    | zero => simp +contextual [increasing]
    | succ k =>
      simp only [increasing, List.not_mem_nil, List.sublist_nil, false_iff, not_and]
      rintro rfl hlen
      cases hlen
  | cons x xs ih =>
    cases k with
    | zero => simp +contextual [increasing]
    | succ k =>
      simp only [increasing, List.mem_append, List.mem_map, ih, List.sublist_cons_iff]
      constructor
      · rintro (⟨zs, ⟨hsub, hlen⟩, rfl⟩ | ⟨hsub, hlen⟩)
        · exact ⟨.inr ⟨zs, rfl, hsub⟩, by rw [List.length_cons, hlen]⟩
        · exact ⟨.inl hsub, hlen⟩
      · rintro ⟨hsub | ⟨zs, rfl, hsub⟩, hlen⟩
        · exact .inr ⟨hsub, hlen⟩
        · exact .inl ⟨zs, ⟨hsub, by simpa using hlen⟩, rfl⟩

end Selection

namespace Reasoner

variable {r : Reasoner} {a : Coded.Atom} {s : Support}

theorem mem_selections {k : Nat} {facts : List Coded.Atom} (h : facts ∈ r.selections k) :
    facts.length = k ∧ ∀ f ∈ facts, f ∈ r.atoms := by
  unfold selections at h
  split_ifs at h
  · exact Selection.mem_unrestricted.1 h
  · obtain ⟨hsub, hlen⟩ := Selection.mem_increasing.1 h
    exact ⟨hlen, fun f hf => hsub.subset hf⟩

theorem mem_selections_of_exhaustive (hx : r.settings.exhaustiveMatching = true) {k : Nat} {facts : List Coded.Atom}
    (h : ∀ f ∈ facts, f ∈ r.atoms) (hk : facts.length = k) : facts ∈ r.selections k := by
  rw [selections, if_pos hx]
  exact Selection.mem_unrestricted.2 ⟨hk, h⟩

theorem mem_applications {p : Application} :
    p ∈ r.applications ↔ ∃ c ∈ r.rules, ∃ facts ∈ r.selections c.premises.length, c.apply facts = .ok p := by
  simp only [applications, attempts, List.mem_filterMap, List.mem_flatMap, List.mem_map]
  constructor
  · rintro ⟨x, ⟨c, hc, facts, hfacts, rfl⟩, hx⟩
    cases hap : c.apply facts with
    | error e => rw [hap] at hx; cases hx
    | ok q =>
      rw [hap] at hx
      exact ⟨c, hc, facts, hfacts, hap.trans (congrArg _ (Option.some.inj hx))⟩
  · rintro ⟨c, hc, facts, hfacts, hap⟩
    exact ⟨_, ⟨c, hc, facts, hfacts, rfl⟩, by rw [hap]; rfl⟩

/-! ## Holding facts -/

theorem holds_iff : r.holds a ↔ a ∈ r.atoms := by
  simp [holds, atoms, List.any_eq_true]

theorem isBottom_iff : r.isBottom a ↔ r.bottom = some a.predicate := by simp [isBottom]

theorem insert_of_mem (h : a ∈ r.atoms) (s : Support) : r.insert a s = (false, r) := by
  rw [insert, if_pos (holds_iff.2 h)]

theorem insert_of_not_mem (h : a ∉ r.atoms) (s : Support) :
    r.insert a s = (true, { r with
      known := r.known ++ [(a, s.generation)]
      supports := r.supports.put a s
      contradiction := if r.isConsistent && r.isBottom a then some a else r.contradiction }) := by
  rw [insert, if_neg (fun hh => h (holds_iff.1 hh))]

theorem insert_fst_of_not_mem (h : a ∉ r.atoms) (s : Support) : r.insert a s = (true, (r.insert a s).2) := by
  rw [insert_of_not_mem h]

theorem atoms_insert (h : a ∉ r.atoms) (s : Support) : (r.insert a s).2.atoms = r.atoms ++ [a] := by
  rw [insert_of_not_mem h]
  simp [atoms]

theorem contradiction_insert (hr : r.contradiction = none) (h : a ∉ r.atoms) (s : Support) :
    (r.insert a s).2.contradiction = if r.bottom = some a.predicate then some a else none := by
  simp [insert_of_not_mem h, isConsistent, isBottom, hr]

structure Frame (r s : Reasoner) : Prop where
  settings : s.settings = r.settings
  symbols : s.symbols = r.symbols
  rules : s.rules = r.rules
  bottom : s.bottom = r.bottom

theorem Frame.refl (r : Reasoner) : Frame r r := ⟨rfl, rfl, rfl, rfl⟩

theorem Frame.trans {r s t : Reasoner} (h₁ : Frame r s) (h₂ : Frame s t) : Frame r t :=
  ⟨h₂.settings.trans h₁.settings, h₂.symbols.trans h₁.symbols, h₂.rules.trans h₁.rules, h₂.bottom.trans h₁.bottom⟩

theorem insert_frame (r : Reasoner) (a : Coded.Atom) (s : Support) : Frame r (r.insert a s).2 := by
  unfold insert
  split_ifs <;> exact ⟨rfl, rfl, rfl, rfl⟩

theorem generation_insert (r : Reasoner) (a : Coded.Atom) (s : Support) :
    (r.insert a s).2.generation = r.generation := by
  unfold insert
  split_ifs <;> rfl

theorem put_of_not_mem {ss : Supports} (h : a ∉ ss.map (·.1)) (s : Support) : ss.put a s = ss ++ [(a, s)] := by
  induction ss with
  | nil => rfl
  | cons e ss ih =>
    simp only [List.map_cons, List.mem_cons, not_or] at h
    obtain ⟨b, t⟩ := e
    rw [Supports.put, if_neg (fun hb => h.1 hb.symm), ih h.2, List.cons_append]

/-! ## Committing -/

def holdAll (g : Nat) (r : Reasoner) (ps : List Application) : Reasoner :=
  ps.foldl (fun r p => (r.insert p.conclusion ⟨p.premises, some p.rule, g⟩).2) r

/-- The applications whose conclusions are held when some atoms are known: the first for each new conclusion, up to
the first contradiction. -/
def admitted (bottom : Option Symbol) : List Coded.Atom → List Application → List Application
  | _, [] => []
  | known, p :: rest =>
    if p.conclusion ∈ known then admitted bottom known rest
    else if bottom = some p.conclusion.predicate then [p]
    else p :: admitted bottom (known ++ [p.conclusion]) rest

theorem commit_eq (g : Nat) (ps : List Application) (h : r.contradiction = none) :
    commit g r ps = ((admitted r.bottom r.atoms ps).length, holdAll g r (admitted r.bottom r.atoms ps)) := by
  induction ps generalizing r with
  | nil => rfl
  | cons p ps ih =>
    by_cases hmem : p.conclusion ∈ r.atoms
    · rw [commit, insert_of_mem hmem, admitted, if_pos hmem]
      exact ih h
    · have hins := insert_fst_of_not_mem hmem ⟨p.premises, some p.rule, g⟩
      have hatoms := atoms_insert hmem ⟨p.premises, some p.rule, g⟩
      have hcontra := contradiction_insert h hmem ⟨p.premises, some p.rule, g⟩
      have hbottom := (insert_frame r p.conclusion ⟨p.premises, some p.rule, g⟩).bottom
      rw [commit, admitted, if_neg hmem, hins]
      generalize (r.insert p.conclusion ⟨p.premises, some p.rule, g⟩).2 = r' at *
      by_cases hb : r.bottom = some p.conclusion.predicate
      · rw [if_pos hb] at hcontra ⊢
        simp [isConsistent, hcontra, holdAll, hins]
      · rw [if_neg hb] at hcontra ⊢
        simp only [isConsistent, hcontra, Option.isNone_none, if_true, ih hcontra, hatoms, hbottom]
        simp [holdAll, hins]

theorem admitted_sublist (bottom : Option Symbol) (known : List Coded.Atom) (ps : List Application) :
    (admitted bottom known ps).Sublist ps := by
  induction ps generalizing known with
  | nil => exact .slnil
  | cons p ps ih =>
    rw [admitted]
    split_ifs
    · exact (ih known).cons p
    · exact (List.nil_sublist ps).cons_cons p
    · exact (ih _).cons_cons p

theorem nodup_admitted (bottom : Option Symbol) {known : List Coded.Atom} (h : known.Nodup) (ps : List Application) :
    (known ++ (admitted bottom known ps).map (·.conclusion)).Nodup := by
  induction ps generalizing known with
  | nil => simpa [admitted] using h
  | cons p ps ih =>
    rw [admitted]
    split_ifs with hmem hb
    · exact ih h
    · simpa using List.Nodup.concat hmem h
    · have hnew : (known ++ [p.conclusion]).Nodup := by simpa using List.Nodup.concat hmem h
      simpa using ih hnew

/-- If no contradiction is admitted, every conclusion was known or is admitted. -/
theorem mem_admitted {bottom : Option Symbol} {known : List Coded.Atom} {ps : List Application}
    (h : ∀ p ∈ admitted bottom known ps, bottom ≠ some p.conclusion.predicate) :
    ∀ p ∈ ps, p.conclusion ∈ known ++ (admitted bottom known ps).map (·.conclusion) := by
  induction ps generalizing known with
  | nil => simp
  | cons p ps ih =>
    rw [admitted] at h ⊢
    intro q hq
    split_ifs at h ⊢ with hmem hb
    · rcases List.mem_cons.1 hq with rfl | hq
      · exact List.mem_append_left _ hmem
      · exact ih h q hq
    · exact absurd hb (h p (List.mem_singleton_self p))
    · rcases List.mem_cons.1 hq with rfl | hq
      · simp
      · simpa using ih (fun p' hp' => h p' (List.mem_cons_of_mem _ hp')) q hq

theorem holdAll_cons (g : Nat) (r : Reasoner) (p : Application) (ps : List Application) :
    holdAll g r (p :: ps) = holdAll g (r.insert p.conclusion ⟨p.premises, some p.rule, g⟩).2 ps := rfl

theorem holdAll_frame (g : Nat) (r : Reasoner) (ps : List Application) : Frame r (holdAll g r ps) := by
  induction ps generalizing r with
  | nil => exact .refl r
  | cons p ps ih => exact (insert_frame r p.conclusion ⟨p.premises, some p.rule, g⟩).trans (ih _)

theorem atoms_holdAll (g : Nat) {ps : List Application} (h : (r.atoms ++ ps.map (·.conclusion)).Nodup) :
    (holdAll g r ps).atoms = r.atoms ++ ps.map (·.conclusion) := by
  induction ps generalizing r with
  | nil => simp [holdAll]
  | cons p ps ih =>
    have hmem : p.conclusion ∉ r.atoms := fun hp =>
      (List.nodup_append.1 h).2.2 _ hp _ (by simp) rfl
    have hatoms := atoms_insert hmem ⟨p.premises, some p.rule, g⟩
    rw [holdAll_cons, ih (by rw [hatoms]; simpa using h), hatoms]
    simp

/-! ## The round as a whole -/

/-- The applications whose conclusions the next round holds. -/
def fresh (r : Reasoner) : List Application := admitted r.bottom r.atoms r.applications

/-- The reasoner after a round, as far as facts and rules go. -/
def stepped (r : Reasoner) : Reasoner :=
  { r.holdAll (r.generation + 1) r.fresh with
    generation := if r.fresh = [] then r.generation else r.generation + 1 }

theorem stepped_frame (r : Reasoner) : Frame r r.stepped := by
  have h := holdAll_frame (r.generation + 1) r r.fresh
  exact ⟨h.settings, h.symbols, h.rules, h.bottom⟩

theorem advance_fst (h : r.contradiction = none) : r.advance.1 = r.fresh.length := by
  rw [advance, commit_eq _ _ h]
  rfl

theorem checkConsistent_eq_ok : r.checkConsistent = .ok () ↔ r.contradiction = none := by
  unfold checkConsistent
  cases r.contradiction with
  | none => simp
  | some a =>
    cases hn : r.nameFact a with
    | error e => simp [bind, Except.bind, hn]
    | ok x => cases hd : r.derive a <;> simp [bind, Except.bind, hn, hd, throw, throwThe, MonadExceptOf.throw]

theorem round_of_consistent (h : r.contradiction = none) :
    r.round = (r.advance.2.checkConsistent.map fun _ => r.advance.1, r.advance.2) := by
  rw [round, checkConsistent_eq_ok.2 h]
  cases hc : r.advance.2.checkConsistent <;> simp [hc, Except.map]

theorem stepped_of_fresh_eq_nil (h : r.fresh = []) : r.stepped = r := by
  rw [stepped, h, if_pos rfl]
  rfl

theorem round_of_inconsistent {e : Failure} (h : r.checkConsistent = .error e) : r.round = (.error e, r) := by
  rw [round, h]

end Reasoner

end Entail
