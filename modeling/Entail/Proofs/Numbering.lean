import Entail.Proofs.Renaming

/-!
# Slots and their names

* `Clause.Numbered` : the slots of a clause are numbered by first occurrence; encoding numbers them so
  (`Rule.encode_numbered`);
* `lossless_of_distinct` : encoding loses nothing, whatever is in the table before and whatever is added later;
* `Clause.Known.exists_reads` : a clause of known symbols reads as a rule under names for all its slots;
* `Rule.encode_decode_iff` : a coded rule with names for some of its slots is decoded and encoded again to the same
  clause exactly if none of the names is one that is made up for another slot.
-/

namespace Entail

namespace Coded

/-! ## Names of slots -/

section
variable {names : List String} {i j : Nat}

theorem slotName_of_lt (h : i < names.length) : slotName names i = names[i] :=
  slotName_of_getElem? (List.getElem?_eq_getElem h)

theorem slotName_of_le (h : names.length ≤ i) : slotName names i = "V" ++ toString i := by
  rw [slotName, List.getD_eq_getElem?_getD, List.getElem?_eq_none h]
  rfl

theorem map_slotName_range (names : List String) : (List.range names.length).map (slotName names) = names := by
  refine List.ext_getElem (by simp) fun i _ hi => ?_
  rw [List.getElem_map, List.getElem_range, slotName_of_lt hi]

theorem idxOf_slotName (hn : names.Nodup) (hi : i < names.length) : names.idxOf (slotName names i) = i := by
  rw [slotName_of_lt hi, hn.idxOf_getElem i hi]

theorem map_idxOf_slotName (hn : names.Nodup) {is : List Nat} (his : ∀ i ∈ is, i < names.length) :
    (is.map (slotName names)).map names.idxOf = is := by
  rw [List.map_map]
  exact (List.map_congr_left fun i hi => idxOf_slotName hn (his i hi)).trans (List.map_id is)

theorem slotName_inj (hn : names.Nodup) (hi : i < names.length) (hj : j < names.length)
    (h : slotName names i = slotName names j) : i = j := by
  rw [← idxOf_slotName hn hi, h, idxOf_slotName hn hj]

/-- Made-up names are all different. -/
theorem slotName_inj_of_le (hi : names.length ≤ i) (hj : names.length ≤ j) (h : slotName names i = slotName names j) :
    i = j := by
  rw [slotName_of_le hi, slotName_of_le hj, String.append_right_inj] at h
  have hdigits : Nat.toDigits 10 i = Nat.toDigits 10 j := String.ofList_injective h
  calc i = Nat.ofDigitChars 10 (Nat.toDigits 10 i) 0 := (Nat.ofDigitChars_toDigits (by decide) (by decide)).symm
    _ = Nat.ofDigitChars 10 (Nat.toDigits 10 j) 0 := by rw [hdigits]
    _ = j := Nat.ofDigitChars_toDigits (by decide) (by decide)

end

/-! ## Occurrences of slots -/

def Term.slot? : Term → Option Nat
  | .sym _ => none
  | .slot i => some i

namespace Clause

def occurrences (c : Clause) : List Nat :=
  (c.premises ++ [c.conclusion]).flatMap fun a => a.args.filterMap Term.slot?

def Numbered (c : Clause) : Prop := c.occurrences.eraseDups = List.range c.slots

variable {c : Clause} {i : Nat}

theorem Numbered.mem_occurrences (h : c.Numbered) : i ∈ c.occurrences ↔ i < c.slots := by
  rw [← List.mem_eraseDups, h, List.mem_range]

end Clause

variable {t u : SymbolTable} {names : List String} {c : Clause} {r : Entail.Rule} {i : Nat}

theorem Atom.Reads.occurrences {c : Atom} {a : Entail.Atom} (h : c.Reads t names a) :
    List.Forall₂ (fun i v => names[i]? = some v) (c.args.filterMap Term.slot?)
      (a.args.filterMap Entail.Term.variableName?) := by
  obtain ⟨_, args⟩ := c
  obtain ⟨_, args'⟩ := a
  have hargs : List.Forall₂ (Term.Reads t names) args args' := h.args
  clear h
  induction hargs with
  | nil => exact .nil
  | @cons x y _ _ hxy _ ih =>
    cases x <;> cases y
    case sym.const => exact ih
    case slot.var i v => exact .cons hxy ih
    all_goals exact hxy.elim

namespace Clause.Reads

variable (h : c.Reads t names r)
include h

/-- The slots occur where the variables do that they are named as. -/
theorem occurrences : List.Forall₂ (fun i v => names[i]? = some v) c.occurrences r.occurrences :=
  List.rel_flatMap (List.rel_append h.premises (.cons h.conclusion .nil)) fun _ _ ha => ha.occurrences

theorem lt_length (hi : i ∈ c.occurrences) : i < names.length := by
  obtain ⟨v, -, hv⟩ := exists_right_of_forall₂ h.occurrences hi
  exact (List.getElem?_eq_some_iff.1 hv).1

theorem occurrences_eq : r.occurrences = c.occurrences.map (slotName names) := by
  rw [← List.forall₂_eq_eq_eq, List.forall₂_map_right_iff]
  exact h.occurrences.flip.imp fun _ _ hv => (slotName_of_getElem? hv).symm

end Clause.Reads

/-- If the names of the slots are the variables by first occurrence, the slots are numbered by first occurrence. -/
theorem Rule.Reads.numbered {c : Rule} (h : c.Reads t r) (hn : c.names = r.variableNames) : c.toClause.Numbered := by
  have hinj : ∀ i ∈ c.occurrences, ∀ j ∈ c.occurrences, slotName c.names i = slotName c.names j → i = j :=
    fun i hi j hj => slotName_inj h.distinct (h.clause.lt_length hi) (h.clause.lt_length hj)
  have hnames : c.occurrences.eraseDups.map (slotName c.names) = c.names := by
    rw [← eraseDups_map hinj, ← h.clause.occurrences_eq, hn]
    rfl
  have hlt : ∀ i ∈ c.occurrences.eraseDups, i < c.names.length :=
    fun i hi => h.clause.lt_length (List.mem_eraseDups.1 hi)
  have hrange : ∀ i ∈ List.range c.slots, i < c.names.length := fun i hi => h.slots ▸ List.mem_range.1 hi
  calc c.occurrences.eraseDups
    _ = (c.occurrences.eraseDups.map (slotName c.names)).map c.names.idxOf :=
      (map_idxOf_slotName h.distinct hlt).symm
    _ = ((List.range c.slots).map (slotName c.names)).map c.names.idxOf := by
      rw [hnames, ← h.slots, map_slotName_range]
    _ = List.range c.slots := map_idxOf_slotName h.distinct hrange

end Coded

/-! ## Encoding and decoding -/

section
variable {t : SymbolTable}

theorem Rule.encode_numbered (ht : t.Distinct) (r : Rule) : (r.encode t).1.toClause.Numbered :=
  (r.encode_reads ht).2.2.numbered (r.encode_names t)

structure Lossless (t : SymbolTable) : Prop where
  /-- A coded rule is decoded to the rule, whatever is added to the table in between. -/
  rule : ∀ (r : Rule) (u : SymbolTable), (r.encode t).2.Extends u → (r.encode t).1.decode u = .ok r
  /-- So is a coded atom, and every ground atom can be encoded. -/
  atom : ∀ a : Atom, a.isGround → ∃ c u, a.encode t = .ok (c, u) ∧ ∀ v, u.Extends v → c.decode v none = .ok a
  /-- Of two atoms encoded one after the other, the coded forms are equal exactly if the atoms are. -/
  atom_iff : ∀ (a b : Atom) (c d : Coded.Atom) (u v w : SymbolTable), a.encode t = .ok (c, u) → u.Extends v →
    v.Distinct → b.encode v = .ok (d, w) → (c = d ↔ a = b)
  /-- The slots of a coded rule are all numbers below their count, in order of first occurrence. -/
  numbered : ∀ r : Rule, (r.encode t).1.toClause.Numbered
  slots : ∀ (r : Rule) (i : Nat), i ∈ (r.encode t).1.occurrences ↔ i < (r.encode t).1.slots
  /-- Each slot has a name of its own. -/
  names : ∀ r : Rule, (r.encode t).1.names.Nodup ∧ (r.encode t).1.names.length = (r.encode t).1.slots

theorem lossless_of_distinct (ht : t.Distinct) : Lossless t where
  rule r u hu := ((r.encode_reads ht).2.2.mono hu).decode
  atom a ha := by
    obtain ⟨c, u, he⟩ := Atom.exists_encode ha t
    exact ⟨c, u, he, fun v hv => ((Atom.encode_reads he).2.2.mono hv List.prefix_rfl).decode_ground⟩
  atom_iff a b c d u v w ha hv hd hb := by
    obtain ⟨-, -, hc⟩ := Atom.encode_reads ha
    obtain ⟨hw, hdw, hd'⟩ := Atom.encode_reads hb
    have hc' := hc.mono (hv.trans hw) List.prefix_rfl
    constructor
    · rintro rfl
      exact hc'.unique hd'
    · rintro rfl
      exact hc'.inj (hdw hd) List.nodup_nil hd'
  numbered := Rule.encode_numbered ht
  slots r _ := (r.encode_numbered ht).mem_occurrences
  names r := ⟨(r.encode_reads ht).2.2.distinct, (r.encode_reads ht).2.2.slots⟩

end

/-- A rule that has one name for a predicate, a constant and a variable, and a variable with a made-up name. -/
def namesake : Rule :=
  ⟨[⟨"p", [.var "p", .const "p"]⟩, ⟨"q", [.var "V0", .var "p"]⟩], ⟨"p", [.var "V0", .const "V0"]⟩⟩

theorem lossless_namesake :
    (namesake.encode ⟨1, ["V0"]⟩).1.decode ((namesake.encode ⟨1, ["V0"]⟩).2.internAll ["r", "p"]).2 = .ok namesake ∧
      (namesake.encode ⟨1, ["V0"]⟩).1.toClause.Numbered := by
  have h := lossless_of_distinct (t := ⟨1, ["V0"]⟩) (List.nodup_singleton _)
  exact ⟨h.rule namesake _ (SymbolTable.extends_internAll _ _), h.numbered namesake⟩

/-! ## Names for some of the slots -/

namespace Coded

variable {t : SymbolTable} {names : List String}

def Clause.Known (t : SymbolTable) (c : Clause) : Prop :=
  ∀ a ∈ c.premises ++ [c.conclusion], ∀ s, s = a.predicate ∨ .sym s ∈ a.args → ∃ name, t.nameOf? s = some name

/-- The names of all slots, those made up that a rule does not have. -/
def Rule.slotNames (c : Rule) : List String := (List.range c.slots).map (slotName c.names)

theorem Rule.length_slotNames (c : Rule) : c.slotNames.length = c.slots := by
  rw [slotNames, List.length_map, List.length_range]

theorem Rule.getElem?_slotNames {c : Rule} {i : Nat} (h : i < c.slots) :
    c.slotNames[i]? = some (slotName c.names i) := by
  rw [slotNames, List.getElem?_map, List.getElem?_range h]
  rfl

theorem Rule.slotName_slotNames {c : Rule} {i : Nat} {v : String} (h : c.slotNames[i]? = some v) :
    slotName c.names i = v := by
  have hlt : i < c.slots := c.length_slotNames ▸ (List.getElem?_eq_some_iff.1 h).1
  exact Option.some.inj ((getElem?_slotNames hlt).symm.trans h)

/-- A clause of known symbols reads as a rule under names for all its slots. -/
theorem Clause.Known.exists_reads {c : Clause} (hk : c.Known t) (hn : ∀ i ∈ c.occurrences, i < names.length) :
    ∃ r, c.Reads t names r := by
  have hatom : ∀ a ∈ c.premises ++ [c.conclusion], ∃ x, a.Reads t names x := by
    intro a ha
    refine Atom.exists_reads_under (fun i hi => hn i ?_) (hk a ha)
    exact List.mem_flatMap.2 ⟨a, ha, List.mem_filterMap.2 ⟨_, hi, rfl⟩⟩
  obtain ⟨ps, hps⟩ := exists_forall₂ fun a ha => hatom a (List.mem_append_left _ ha)
  obtain ⟨x, hx⟩ := hatom c.conclusion (by simp)
  exact ⟨⟨ps, x⟩, hps, hx⟩

/-- A rule may be decoded with names for some of its slots. -/
theorem Clause.Reads.decode {c : Rule} {r : Entail.Rule} (h : c.toClause.Reads t c.slotNames r) :
    c.decode t = .ok r := by
  have hps := mapM_eq_ok (h.premises.imp fun _ _ hp => hp.decode_alike fun _ _ => Rule.slotName_slotNames)
  rw [Rule.decode, hps, h.conclusion.decode_alike fun _ _ => Rule.slotName_slotNames]
  rfl

namespace Clause.Reads

variable {c : Rule} {r : Entail.Rule} (hr : c.toClause.Reads t c.slotNames r) (hn : c.toClause.Numbered)
include hr hn

theorem occurrences_slotName : r.occurrences = c.occurrences.map (slotName c.names) := by
  rw [hr.occurrences_eq]
  exact List.map_congr_left fun i hi => slotName_of_getElem? (Rule.getElem?_slotNames (hn.mem_occurrences.1 hi))

variable (ht : t.Distinct)
include ht

/-- Slots that are kept apart have different names. -/
theorem slotName_inj_of_encode_eq (heq : (r.encode t).1.toClause = c.toClause) {i j : Nat} (hi : i < c.slots)
    (hj : j < c.slots) (h : slotName c.names i = slotName c.names j) : i = j := by
  obtain ⟨-, -, hread⟩ := r.encode_reads ht
  have hnames : ∀ i ∈ c.occurrences, slotName (r.encode t).1.names i = slotName c.names i := by
    refine List.map_inj_left.1 ?_
    rw [← hr.occurrences_slotName hn, hread.clause.occurrences_eq, heq]
  have hslots : (r.encode t).1.names.length = c.slots := by rw [hread.slots, heq]
  have hi' := hnames i (hn.mem_occurrences.2 hi)
  have hj' := hnames j (hn.mem_occurrences.2 hj)
  exact slotName_inj hread.distinct (hslots ▸ hi) (hslots ▸ hj) (by rw [hi', hj', h])

/-- Slots with different names are kept apart: with a name for each slot, the rule reads as what it is decoded to. -/
theorem encode_eq_of_slotName_inj (h : ∀ i < c.slots, ∀ j < c.slots, slotName c.names i = slotName c.names j → i = j) :
    (r.encode t).1.toClause = c.toClause := by
  have hnames : c.slotNames = r.variableNames := by
    rw [Entail.Rule.variableNames, ← Entail.Rule.occurrences, hr.occurrences_slotName hn, eraseDups_map, hn]
    · rfl
    · exact fun i hi j hj => h i (hn.mem_occurrences.1 hi) j (hn.mem_occurrences.1 hj)
  have hdistinct : c.slotNames.Nodup :=
    List.Nodup.map_on (fun i hi j hj => h i (List.mem_range.1 hi) j (List.mem_range.1 hj)) List.nodup_range
  have hfull : (⟨c.toClause, c.slotNames⟩ : Rule).Reads t r :=
    ⟨hr.premises, hr.conclusion, hdistinct, c.length_slotNames⟩
  obtain ⟨hext, hd, hread⟩ := r.encode_reads ht
  exact (((hfull.mono hext).clause_eq_iff hd hread hnames (r.encode_names t)).2 (.refl r)).symm

end Clause.Reads

/-- Some names and the names made up for the other slots are all different, unless one of them is the made-up name of
another slot. -/
theorem slotName_inj_iff (hd : names.Nodup) {n : Nat} (hl : names.length ≤ n) :
    (∀ i < n, ∀ j < n, slotName names i = slotName names j → i = j) ↔
      ∀ i, names.length ≤ i → i < n → "V" ++ toString i ∉ names := by
  constructor
  · intro hinj i hi hin hmem
    obtain ⟨j, hj, hname⟩ := List.getElem_of_mem hmem
    have hsame : slotName names i = slotName names j := by rw [slotName_of_le hi, slotName_of_lt hj, hname]
    have hij := hinj i hin j (hj.trans_le hl) hsame
    omega
  · intro hfree
    have hcross : ∀ {i j : Nat}, i < names.length → names.length ≤ j → j < n → slotName names i ≠ slotName names j := by
      intro i j hi hj hjn hsame
      rw [slotName_of_lt hi, slotName_of_le hj] at hsame
      exact hfree j hj hjn (hsame ▸ List.getElem_mem hi)
    intro i hi j hj hsame
    rcases Nat.lt_or_ge i names.length with hi' | hi' <;> rcases Nat.lt_or_ge j names.length with hj' | hj'
    · exact slotName_inj hd hi' hj' hsame
    · exact absurd hsame (hcross hi' hj' hj)
    · exact absurd hsame.symm (hcross hj' hi' hi)
    · exact slotName_inj_of_le hi' hj' hsame

end Coded

/-- A coded rule with names for some of its slots is decoded, and encoded again to the same clause exactly if none of
the names is the one made up for another slot. -/
theorem Rule.encode_decode_iff {t : SymbolTable} {c : Coded.Rule} (ht : t.Distinct) (hk : c.Known t)
    (hn : c.toClause.Numbered) (hd : c.names.Nodup) (hl : c.names.length ≤ c.slots) :
    ∃ r, c.decode t = .ok r ∧ (r.encode t).2 = t ∧
      ((r.encode t).1.toClause = c.toClause ↔
        ∀ i, c.names.length ≤ i → i < c.slots → "V" ++ toString i ∉ c.names) := by
  obtain ⟨r, hr⟩ := hk.exists_reads fun i hi => c.length_slotNames.symm ▸ hn.mem_occurrences.1 hi
  have hiff : (r.encode t).1.toClause = c.toClause ↔
      ∀ i < c.slots, ∀ j < c.slots, Coded.slotName c.names i = Coded.slotName c.names j → i = j :=
    ⟨fun heq i hi j hj => hr.slotName_inj_of_encode_eq hn ht heq hi hj, hr.encode_eq_of_slotName_inj hn ht⟩
  exact ⟨r, hr.decode, hr.encode_table, hiff.trans (Coded.slotName_inj_iff hd hl)⟩

/-- A rule with two slots and a name for the first. -/
def halfNamed (name : String) : Coded.Rule :=
  ⟨⟨[⟨⟨1, 0⟩, [.slot 0, .slot 1]⟩], ⟨⟨1, 0⟩, [.slot 1, .slot 0]⟩, 2⟩, [name]⟩

theorem known_halfNamed (name : String) : (halfNamed name).Known ⟨1, ["p"]⟩ := by
  intro a ha s hs
  have hatoms : ∀ b ∈ (halfNamed name).premises ++ [(halfNamed name).conclusion],
      b.predicate = ⟨1, 0⟩ ∧ ∀ s, .sym s ∉ b.args := by simp [halfNamed]
  obtain ⟨hp, hargs⟩ := hatoms a ha
  obtain rfl : s = a.predicate := hs.resolve_right (hargs s)
  exact ⟨"p", by rw [hp]; rfl⟩

theorem encode_decode_halfNamed : ∃ r, (halfNamed "V0").decode ⟨1, ["p"]⟩ = .ok r ∧
    (r.encode ⟨1, ["p"]⟩).2 = ⟨1, ["p"]⟩ ∧ (r.encode ⟨1, ["p"]⟩).1.toClause = (halfNamed "V0").toClause := by
  have ht : SymbolTable.Distinct ⟨1, ["p"]⟩ := List.nodup_singleton _
  obtain ⟨r, hr, htable, hiff⟩ :=
    Rule.encode_decode_iff ht (known_halfNamed "V0") rfl (List.nodup_singleton _) (by decide)
  refine ⟨r, hr, htable, hiff.2 fun i hi hi' => ?_⟩
  obtain rfl : i = 1 := Nat.le_antisymm (Nat.le_of_lt_succ hi') hi
  decide

/-- A name that is the made-up name of another slot makes one variable of two. -/
theorem decode_merges_slots : (halfNamed "V1").Known ⟨1, ["p"]⟩ ∧ (halfNamed "V1").toClause.Numbered ∧
    (halfNamed "V1").names.Nodup ∧ (halfNamed "V1").names.length ≤ (halfNamed "V1").slots ∧
    ∃ r, (halfNamed "V1").decode ⟨1, ["p"]⟩ = .ok r ∧
      (r.encode ⟨1, ["p"]⟩).1.toClause ≠ (halfNamed "V1").toClause :=
  ⟨known_halfNamed "V1", rfl, List.nodup_singleton _, by decide, _, rfl, by decide⟩

end Entail
