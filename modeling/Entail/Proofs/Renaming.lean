import Entail.Proofs.Scoping
import Mathlib.Data.List.Induction
import Mathlib.Data.Set.Function

/-!
# Variables renamed

* `Rule.rename`, `Rule.IsVariant` : two rules that are renamings of each other, by a bijection between their variables
  (`Rule.isVariant_iff_bijOn`), which the order of first occurrence decides (`Rule.isVariant_iff`);
* `Rule.encode_names` : the slots of a coded rule are the variables of the rule by first occurrence;
* `Coded.Rule.Reads.clause_eq_iff` : so two coded rules have one clause exactly if they read as variants.
-/

namespace Entail

/-! ## First occurrences -/

section
variable {α β : Type} [DecidableEq α] [DecidableEq β] {xs : List α}

theorem eraseDups_concat (xs : List α) (x : α) :
    (xs ++ [x]).eraseDups = if x ∈ xs then xs.eraseDups else xs.eraseDups ++ [x] := by
  rw [List.eraseDups_append]
  split_ifs with h
  · simp [List.removeAll, h]
  · simp [List.removeAll, h, List.eraseDups_cons]

theorem eraseDups_map {f : α → β} (hf : ∀ x ∈ xs, ∀ y ∈ xs, f x = f y → x = y) :
    (xs.map f).eraseDups = xs.eraseDups.map f := by
  induction xs using List.reverseRecOn with
  | nil => rfl
  | append_singleton xs x ih =>
    have hmem : f x ∈ xs.map f ↔ x ∈ xs := by
      constructor
      · intro h
        obtain ⟨y, hy, hxy⟩ := List.mem_map.1 h
        exact hf y (by simp [hy]) x (by simp) hxy ▸ hy
      · exact List.mem_map_of_mem
    have ih := ih fun y hy z hz => hf y (by simp [hy]) z (by simp [hz])
    rw [List.map_append, List.map_singleton, eraseDups_concat, eraseDups_concat, ih]
    by_cases h : x ∈ xs <;> simp [hmem, h]

end

/-! ## Renaming -/

def Term.rename (ρ : String → String) : Term → Term
  | .var v => .var (ρ v)
  | .const n => .const n

def Atom.rename (ρ : String → String) (a : Atom) : Atom := ⟨a.predicate, a.args.map (Term.rename ρ)⟩

namespace Rule

def rename (ρ : String → String) (r : Rule) : Rule := ⟨r.premises.map (Atom.rename ρ), r.conclusion.rename ρ⟩

/-- Each of the rules is the other with its variables renamed. -/
def IsVariant (r s : Rule) : Prop := ∃ ρ τ : String → String, r.rename ρ = s ∧ s.rename τ = r

def occurrences (r : Rule) : List String :=
  (r.premises ++ [r.conclusion]).flatMap fun a => a.args.filterMap Term.variableName?

variable {r s : Rule} {ρ τ : String → String}

theorem mem_variableNames {v : String} : v ∈ r.variableNames ↔ v ∈ r.occurrences := List.mem_eraseDups

theorem rename_rename (r : Rule) : (r.rename ρ).rename τ = r.rename fun v => τ (ρ v) := by
  have hterm : (Term.rename τ ∘ Term.rename ρ) = Term.rename fun v => τ (ρ v) := by
    funext t
    cases t <;> rfl
  have hatom : (Atom.rename τ ∘ Atom.rename ρ) = Atom.rename fun v => τ (ρ v) := by
    funext a
    simp [Atom.rename, hterm]
  simp only [rename, List.map_map, hatom]
  exact congrArg (Rule.mk _) (congrFun hatom r.conclusion)

theorem rename_id (r : Rule) : r.rename (fun v => v) = r := by
  have hterm : Term.rename (fun v => v) = id := by
    funext t
    cases t <;> rfl
  have hatom : Atom.rename (fun v => v) = id := by
    funext a
    rw [Atom.rename, hterm, List.map_id]
    rfl
  rw [rename, hatom, List.map_id]
  rfl

theorem IsVariant.refl (r : Rule) : r.IsVariant r := ⟨_, _, r.rename_id, r.rename_id⟩

theorem IsVariant.trans {q : Rule} (h : r.IsVariant s) (h' : s.IsVariant q) : r.IsVariant q := by
  obtain ⟨ρ, τ, hρ, hτ⟩ := h
  obtain ⟨ρ', τ', hρ', hτ'⟩ := h'
  exact ⟨_, _, by rw [← rename_rename, hρ, hρ'], by rw [← rename_rename, hτ', hτ]⟩

theorem occurrences_rename (ρ : String → String) (r : Rule) : (r.rename ρ).occurrences = r.occurrences.map ρ := by
  have hatom : ∀ a : Atom,
      (a.rename ρ).args.filterMap Term.variableName? = (a.args.filterMap Term.variableName?).map ρ := by
    intro a
    rw [Atom.rename, List.filterMap_map, List.map_filterMap]
    refine List.filterMap_congr fun t _ => ?_
    cases t <;> rfl
  simp only [occurrences, rename, ← List.map_singleton (f := Atom.rename ρ), ← List.map_append, List.flatMap_map,
    hatom, List.map_flatMap]

/-- Only what a renaming says of the variables matters. -/
theorem rename_congr (h : ∀ v ∈ r.occurrences, ρ v = τ v) : r.rename ρ = r.rename τ := by
  have hatom : ∀ a ∈ r.premises ++ [r.conclusion], a.rename ρ = a.rename τ := by
    intro a ha
    refine congrArg (Atom.mk a.predicate) (List.map_congr_left fun t ht => ?_)
    cases t with
    | const n => rfl
    | var v => exact congrArg Term.var (h v (List.mem_flatMap.2 ⟨a, ha, List.mem_filterMap.2 ⟨_, ht, rfl⟩⟩))
  rw [rename, rename, List.map_congr_left fun a ha => hatom a (List.mem_append_left _ ha), hatom r.conclusion (by simp)]

theorem rename_back (hρ : r.rename ρ = s) (hτ : s.rename τ = r) : ∀ v ∈ r.occurrences, τ (ρ v) = v := by
  have hmap : r.occurrences.map (fun v => τ (ρ v)) = r.occurrences.map id := by
    rw [← occurrences_rename, ← rename_rename, hρ, hτ, List.map_id]
  exact List.map_inj_left.1 hmap

/-- A renaming that is taken back gives different variables different names. -/
theorem variableNames_rename (hρ : r.rename ρ = s) (hτ : s.rename τ = r) : s.variableNames = r.variableNames.map ρ := by
  have hback := rename_back hρ hτ
  rw [← hρ, variableNames, ← occurrences, occurrences_rename, eraseDups_map]
  · rfl
  · intro v hv w hw h
    rw [← hback v hv, h, hback w hw]

/-- Variants are rules that a bijection between their variables turns into each other. -/
theorem isVariant_iff_bijOn : r.IsVariant s ↔
    ∃ ρ, Set.BijOn ρ {v | v ∈ r.variableNames} {v | v ∈ s.variableNames} ∧ r.rename ρ = s := by
  constructor
  · rintro ⟨ρ, τ, hρ, hτ⟩
    have hinv : Set.LeftInvOn τ ρ {v | v ∈ r.variableNames} :=
      fun v hv => rename_back hρ hτ v (mem_variableNames.1 hv)
    refine ⟨ρ, ⟨fun v hv => ?_, hinv.injOn, fun w hw => ?_⟩, hρ⟩
    · change ρ v ∈ s.variableNames
      rw [variableNames_rename hρ hτ]
      exact List.mem_map_of_mem hv
    · change w ∈ s.variableNames at hw
      rw [variableNames_rename hρ hτ] at hw
      obtain ⟨v, hv, rfl⟩ := List.mem_map.1 hw
      exact ⟨v, hv, rfl⟩
  · rintro ⟨ρ, hbij, hρ⟩
    refine ⟨ρ, Function.invFunOn ρ {v | v ∈ r.variableNames}, hρ, ?_⟩
    have hback : ∀ v ∈ r.occurrences, Function.invFunOn ρ {v | v ∈ r.variableNames} (ρ v) = v :=
      fun v hv => hbij.injOn.leftInvOn_invFunOn (mem_variableNames.2 hv)
    rw [← hρ, rename_rename, rename_congr hback, rename_id]

end Rule

/-- The name that stands in the second list where a name stands in the first. -/
def nameAlongside (vs ws : List String) (v : String) : String := ws.getD (vs.idxOf v) v

theorem nameAlongside_map {vs : List String} {v : String} (hv : v ∈ vs) (ρ : String → String) :
    nameAlongside vs (vs.map ρ) v = ρ v := by
  have hlt := List.idxOf_lt_length_of_mem hv
  rw [nameAlongside, List.getD_eq_getElem?_getD, List.getElem?_map, List.getElem?_eq_getElem hlt,
    List.getElem_idxOf hlt]
  rfl

theorem nameAlongside_of_getElem? {vs ws : List String} (hvs : vs.Nodup) (hlen : vs.length = ws.length) {i : Nat}
    {v : String} (hv : vs[i]? = some v) : ws[i]? = some (nameAlongside vs ws v) := by
  obtain ⟨hlt, rfl⟩ := List.getElem?_eq_some_iff.1 hv
  rw [nameAlongside, hvs.idxOf_getElem i hlt, List.getD_eq_getElem?_getD, List.getElem?_eq_getElem (hlen ▸ hlt)]
  rfl

namespace Rule

variable {r s : Rule}

/-- Variants have their variables in the same order. -/
theorem rename_alongside {ρ τ : String → String} (hρ : r.rename ρ = s) (hτ : s.rename τ = r) :
    r.rename (nameAlongside r.variableNames s.variableNames) = s := by
  rw [← hρ, variableNames_rename rfl (by rw [hρ, hτ])]
  exact rename_congr fun v hv => nameAlongside_map (mem_variableNames.2 hv) ρ

theorem isVariant_iff : r.IsVariant s ↔
    r.rename (nameAlongside r.variableNames s.variableNames) = s ∧
      s.rename (nameAlongside s.variableNames r.variableNames) = r := by
  constructor
  · rintro ⟨ρ, τ, hρ, hτ⟩
    exact ⟨rename_alongside hρ hτ, rename_alongside hτ hρ⟩
  · exact fun h => ⟨_, _, h⟩

instance : Decidable (r.IsVariant s) := decidable_of_iff' _ isVariant_iff

end Rule

/-! ## Slots by first occurrence -/

namespace Coded.Scope

variable {sc : Scope} {vs : List String}

/-- The variables of a scope are those met so far. -/
theorem names_encodeTerm (h : sc.names = vs.eraseDups) (y : Entail.Term) :
    (sc.encodeTerm y).2.names = (vs ++ [y].filterMap Entail.Term.variableName?).eraseDups := by
  cases y with
  | const n =>
    change sc.names = (vs ++ []).eraseDups
    rw [h, List.append_nil]
  | var v =>
    have hmem : v ∈ sc.names ↔ v ∈ vs := by rw [h, List.mem_eraseDups]
    change (sc.slot v).2.names = (vs ++ [v]).eraseDups
    rw [eraseDups_concat, slot]
    cases hi : sc.names.idxOf? v with
    | some i =>
      obtain ⟨hlt, hname, -⟩ := List.idxOf?_eq_some_iff.1 hi
      have hv : v ∈ sc.names := by simpa using (by simpa using hname : sc.names[i] = v) ▸ List.getElem_mem hlt
      rw [if_pos (hmem.1 hv), ← h]
    | none =>
      have hv : v ∉ sc.names := List.idxOf?_eq_none_iff.1 hi
      rw [if_neg fun hvs => hv (hmem.2 hvs), ← h]

theorem names_encodeTerms (h : sc.names = vs.eraseDups) (ys : List Entail.Term) :
    (sc.encodeTerms ys).2.names = (vs ++ ys.filterMap Entail.Term.variableName?).eraseDups := by
  induction ys generalizing sc vs with
  | nil => simpa [encodeTerms] using h
  | cons y ys ih =>
    have hrest := ih (names_encodeTerm h y)
    rwa [List.append_assoc, ← List.filterMap_append] at hrest

theorem names_encodeAtoms (h : sc.names = vs.eraseDups) (as : List Entail.Atom) :
    (sc.encodeAtoms as).2.names = (vs ++ as.flatMap fun a => a.args.filterMap Entail.Term.variableName?).eraseDups := by
  induction as generalizing sc vs with
  | nil => simpa [encodeAtoms] using h
  | cons a as ih =>
    have hatom : (sc.encodeAtom a).2.names = (vs ++ a.args.filterMap Entail.Term.variableName?).eraseDups :=
      names_encodeTerms h a.args
    have hrest := ih hatom
    rwa [List.append_assoc] at hrest

end Coded.Scope

theorem Rule.encode_names (r : Rule) (t : SymbolTable) : (r.encode t).1.names = r.variableNames := by
  have hempty : (⟨[], t⟩ : Coded.Scope).names = [].eraseDups := rfl
  have hps := Coded.Scope.names_encodeAtoms hempty r.premises
  have hc := Coded.Scope.names_encodeTerms hps r.conclusion.args
  rw [List.nil_append] at hc
  rw [variableNames, List.flatMap_append, List.flatMap_singleton]
  exact hc

/-! ## Clauses up to renaming -/

namespace Coded

variable {t : SymbolTable} {names names' : List String} {ρ : String → String}

theorem Atom.Reads.rename {c : Atom} {a : Entail.Atom} (h : c.Reads t names a)
    (hρ : ∀ (i : Nat) (v : String), names[i]? = some v → names'[i]? = some (ρ v)) : c.Reads t names' (a.rename ρ) := by
  refine ⟨h.predicate, ?_⟩
  rw [Entail.Atom.rename, List.forall₂_map_right_iff]
  refine h.args.imp fun x y hxy => ?_
  cases x <;> cases y
  case sym.const => exact hxy
  case slot.var i v => exact hρ i v hxy
  all_goals exact hxy.elim

theorem Clause.Reads.rename {c : Clause} {x : Entail.Rule} (h : c.Reads t names x)
    (hρ : ∀ (i : Nat) (v : String), names[i]? = some v → names'[i]? = some (ρ v)) :
    c.Reads t names' (x.rename ρ) := by
  refine ⟨?_, h.conclusion.rename hρ⟩
  rw [Entail.Rule.rename, List.forall₂_map_right_iff]
  exact h.premises.imp fun _ _ hp => hp.rename hρ

namespace Rule.Reads

variable {c d : Rule} {x y : Entail.Rule}

/-- Under as many other names, a clause reads as the rule with its variables renamed. -/
theorem rename_alongside (hc : c.Reads t x) (hlen : c.names.length = names'.length) :
    c.toClause.Reads t names' (x.rename (nameAlongside c.names names')) :=
  hc.clause.rename fun _ _ => nameAlongside_of_getElem? hc.distinct hlen

/-- Of two rules with one clause, the one is the other with its variables renamed. -/
theorem rename_eq (hc : c.Reads t x) (hd : d.Reads t y) (h : c.toClause = d.toClause) :
    x.rename (nameAlongside c.names d.names) = y := by
  have hlen : c.names.length = d.names.length := by rw [hc.slots, hd.slots, h]
  have hread := hc.rename_alongside hlen
  rw [h] at hread
  exact hread.unique hd.clause

theorem isVariant_of_clause_eq (hc : c.Reads t x) (hd : d.Reads t y) (h : c.toClause = d.toClause) : x.IsVariant y :=
  ⟨_, _, hc.rename_eq hd h, hd.rename_eq hc h.symm⟩

/-- Two coded rules whose slots are numbered by first occurrence have one clause exactly if they read as variants. -/
theorem clause_eq_iff (ht : t.Distinct) (hc : c.Reads t x) (hd : d.Reads t y) (hcn : c.names = x.variableNames)
    (hdn : d.names = y.variableNames) : c.toClause = d.toClause ↔ x.IsVariant y := by
  constructor
  · exact hc.isVariant_of_clause_eq hd
  · rintro ⟨ρ, τ, rfl, hτ⟩
    have hnames : d.names = c.names.map ρ := by rw [hdn, hcn, Entail.Rule.variableNames_rename rfl hτ]
    have hρ : ∀ (i : Nat) (v : String), c.names[i]? = some v → d.names[i]? = some (ρ v) := by
      intro i v hv
      rw [hnames, List.getElem?_map, hv]
      rfl
    obtain ⟨hps, hconc⟩ := (hc.clause.rename hρ).inj ht hd.distinct hd.clause
    have hslots : c.slots = d.slots := by rw [← hc.slots, ← hd.slots, hnames, List.length_map]
    obtain ⟨⟨_, _, _⟩, _⟩ := c
    obtain ⟨⟨_, _, _⟩, _⟩ := d
    simp_all

end Rule.Reads

/-- A clause is among those of some coded rules exactly if its rule is a variant of one of theirs. -/
theorem exists_clause_eq_iff (ht : t.Distinct) {cs : List Rule} {xs : List Entail.Rule}
    (h : List.Forall₂ (fun c x => c.Reads t x ∧ c.names = x.variableNames) cs xs) {d : Rule} {y : Entail.Rule}
    (hd : d.Reads t y) (hdn : d.names = y.variableNames) :
    (∃ c ∈ cs, c.toClause = d.toClause) ↔ ∃ x ∈ xs, x.IsVariant y := by
  constructor
  · rintro ⟨c, hmem, heq⟩
    obtain ⟨x, hx, hread, hnames⟩ := exists_right_of_forall₂ h hmem
    exact ⟨x, hx, (hread.clause_eq_iff ht hd hnames hdn).1 heq⟩
  · rintro ⟨x, hmem, hvariant⟩
    obtain ⟨c, hc, hread, hnames⟩ := exists_left_of_forall₂ h hmem
    exact ⟨c, hc, (hread.clause_eq_iff ht hd hnames hdn).2 hvariant⟩

end Coded

end Entail
