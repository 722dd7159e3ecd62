import Entail.Proofs.Loading

/-!
# The grammar of records

A grammar leaves open which values stand for a list that is absent and which may be given as constants.

* `Grammar.DescribesTerm`, `DescribesAtom`, `DescribesRule`, `Describes` : what values describe by a grammar;
* `Grammar.documented` : null stands for an absent list, and constants are texts, numbers and truth values;
* `Grammar.accepted` : all that is void stands for an absent list, and constants are all values that can be written out;
* `rulesIn_eq_ok_iff` : values are read as what they describe by the accepted grammar;
* `Grammar.WellPlaced` : a value has lists and constants only where both grammars allow them;
* `rulesIn_settles` : what is read, how all else is refused, and where the two grammars agree.
-/

namespace Entail.Record

open Value (lookup? Holds)

/-! ## What values describe -/

/-- What may differ between grammars of records: the values that stand for a list that is absent, and those that may be
given as constants. -/
structure Grammar where
  absent : Value → Prop
  constant : Value → Prop

inductive IsNumeric : Value → Prop
  | bool (b : Bool) : IsNumeric (.bool b)
  | int (n : Int) : IsNumeric (.int n)
  | float (x : Number.Binary64) : IsNumeric (.float x)

def constantName (ks : Value.Knots) : Value → String
  | .bool true => "true"
  | .bool false => "false"
  | v => v.plainIn ks

namespace Grammar

def documented : Grammar where
  absent v := v = .null
  constant v := IsNumeric v ∨ ∃ s, v = .str s

def accepted (ks : Value.Knots) : Grammar where
  absent v := v.isVoid = true
  constant v := v.exceedsDigitLimit ks = false

variable (g : Grammar) (ks : Value.Knots)

/-- An argument: a mapping that says what it is, or a bare text, number or truth value. -/
inductive DescribesTerm : Value → Term → Prop
  | var {v : Value} {entries : List (Value × Value)} {n : String} (hv : ks.opened v = .map entries)
    (htype : lookup? entries "type" = some (.str "var")) (hname : lookup? entries "name" = some (.str n)) :
    DescribesTerm v (.var n)
  | const {v w : Value} {entries : List (Value × Value)} (hv : ks.opened v = .map entries)
    (htype : lookup? entries "type" = some (.str "const")) (hvalue : lookup? entries "value" = some w)
    (hw : g.constant w) : DescribesTerm v (.const (constantName ks w))
  | bareVariable {v : Value} {s : String} (hv : ks.opened v = .str s) (hs : isVariableName s = true) :
    DescribesTerm v (.var s)
  | bareConstant {v : Value} {s : String} (hv : ks.opened v = .str s) (hs : isVariableName s = false) :
    DescribesTerm v (.const s)
  | numeric {v w : Value} (hv : ks.opened v = w) (hw : IsNumeric w) (hc : g.constant w) :
    DescribesTerm v (.const (constantName ks w))

/-- The items under a key: those of a list, and none if the key is missing or its value stands for an absent list. -/
inductive Lists (entries : List (Value × Value)) (key : String) : List Value → Prop
  | missing (h : lookup? entries key = none) : Lists entries key []
  | absent {v : Value} (h : lookup? entries key = some v) (hv : g.absent v) : Lists entries key []
  | items {v : Value} {items : List Value} (h : lookup? entries key = some v) (hv : ks.opened v = .list items) :
    Lists entries key items

/-- An atom: a mapping with a text as its predicate, and arguments. -/
inductive DescribesAtom : Value → Atom → Prop
  | intro {v : Value} {entries : List (Value × Value)} {p : String} {items : List Value} {args : List Term}
    (hv : ks.opened v = .map entries) (hpredicate : lookup? entries "predicate" = some (.str p))
    (hitems : g.Lists ks entries "args" items) (hargs : List.Forall₂ (g.DescribesTerm ks) items args) :
    DescribesAtom v ⟨p, args⟩

/-- A record: a mapping with a fact, or one without that has a conclusion, and premises. -/
inductive DescribesRule : Value → Rule → Prop
  | fact {v w : Value} {entries : List (Value × Value)} {a : Atom} (hv : ks.opened v = .map entries)
    (hfact : lookup? entries "fact" = some w) (hw : g.DescribesAtom ks w a) : DescribesRule v (.fact a)
  | rule {v w : Value} {entries : List (Value × Value)} {items : List Value} {premises : List Atom} {a : Atom}
    (hv : ks.opened v = .map entries) (hfact : lookup? entries "fact" = none)
    (hconclusion : lookup? entries "conclusion" = some w) (hw : g.DescribesAtom ks w a)
    (hitems : g.Lists ks entries "premises" items) (hpremises : List.Forall₂ (g.DescribesAtom ks) items premises) :
    DescribesRule v ⟨premises, a⟩

/-- A document: null, a list of records, or a mapping with records under a key that it has. -/
inductive Describes : Value → List Rule → Prop
  | null {v : Value} (hv : ks.opened v = .null) : Describes v []
  -- A list is opened as a document and then as a list, which is to open it once: no knot stands for a knot.
  | records {v : Value} {items : List Value} {rs : List Rule} (hv : ks.opened (ks.opened v) = .list items)
    (hrs : List.Forall₂ (g.DescribesRule ks) items rs) : Describes v rs
  | mapping {v : Value} {entries : List (Value × Value)} {items : List Value} {rs : List Rule}
    (hv : ks.opened v = .map entries) (hkey : (lookup? entries "rules").isSome)
    (hitems : g.Lists ks entries "rules" items) (hrs : List.Forall₂ (g.DescribesRule ks) items rs) : Describes v rs

end Grammar

open Grammar (accepted documented)

variable {g g' : Grammar} {ks : Value.Knots} {v : Value}

/-! ## What is read -/

theorem lookup_eq_str_iff {entries : List (Value × Value)} {key s : String} :
    Value.lookup entries key = .str s ↔ lookup? entries key = some (.str s) := by
  unfold Value.lookup
  cases lookup? entries key <;> simp

theorem isText_iff {s : String} : isText v s = true ↔ v = .str s := by
  cases v <;> simp [isText]

theorem nameOf_eq_ok_iff {n : String} :
    nameOf ks v = .ok n ↔ (accepted ks).constant v ∧ constantName ks v = n := by
  unfold nameOf constantName
  split
  · simp [accepted, Value.exceedsDigitLimit, Value.holdsLongInteger]
  · simp [accepted, Value.exceedsDigitLimit, Value.holdsLongInteger]
  · split_ifs with h <;> simp [accepted, h]

theorem map_const_nameOf_eq_ok_iff {t : Term} :
    (nameOf ks v).map Term.const = .ok t ↔ (accepted ks).constant v ∧ .const (constantName ks v) = t := by
  simp [map_eq_ok_iff, nameOf_eq_ok_iff, and_assoc]

variable {position : Nat}

section
variable {entries : List (Value × Value)}

theorem isText_lookup_iff {key s : String} :
    isText (Value.lookup entries key) s = true ↔ lookup? entries key = some (.str s) := by
  rw [isText_iff, lookup_eq_str_iff]

theorem describesTerm_of_describedTerm {f : String → Fault} {t : Term} (hv : ks.opened v = .map entries)
    (h : describedTerm ks entries (refuse ks v f) = .ok t) : (accepted ks).DescribesTerm ks v t := by
  unfold describedTerm at h
  split_ifs at h with hvar hconst
  · split at h
    next n hn =>
      obtain rfl := Except.ok.inj h
      exact .var hv (isText_lookup_iff.1 hvar) (lookup_eq_str_iff.1 hn)
    · cases h
  · split at h
    next w hw =>
      obtain ⟨hlong, rfl⟩ := map_const_nameOf_eq_ok_iff.1 h
      exact .const hv (isText_lookup_iff.1 hconst) hw hlong
    · cases h
  · cases h

end

theorem describesTerm_of_term {t : Term} (h : term ks position v = .ok t) : (accepted ks).DescribesTerm ks v t := by
  unfold term at h
  split at h
  next entries hv => exact describesTerm_of_describedTerm hv h
  next s hv =>
    obtain rfl := Except.ok.inj h
    split_ifs with hs
    · exact .bareVariable hv hs
    · exact .bareConstant hv (Bool.eq_false_iff.2 hs)
  next b hv =>
    obtain ⟨hlong, rfl⟩ := map_const_nameOf_eq_ok_iff.1 h
    exact .numeric hv (.bool b) hlong
  next n hv =>
    obtain ⟨hlong, rfl⟩ := map_const_nameOf_eq_ok_iff.1 h
    exact .numeric hv (.int n) hlong
  next x hv =>
    obtain ⟨hlong, rfl⟩ := map_const_nameOf_eq_ok_iff.1 h
    exact .numeric hv (.float x) hlong
  · cases h

theorem term_of_describesTerm {t : Term} (h : (accepted ks).DescribesTerm ks v t) : term ks position v = .ok t := by
  cases h with
  | var hv htype hname =>
    simp only [term, hv, describedTerm, if_pos (isText_lookup_iff.2 htype), lookup_eq_str_iff.2 hname]
  | @const _ entries hv htype hvalue hw =>
    have hvar : isText (Value.lookup entries "type") "var" ≠ true := by
      rw [Ne, isText_lookup_iff, htype]
      simp
    simp only [term, hv, describedTerm, if_neg hvar, if_pos (isText_lookup_iff.2 htype), hvalue]
    exact map_const_nameOf_eq_ok_iff.2 ⟨hw, rfl⟩
  | bareVariable hv hs => simp only [term, hv, hs, if_true]
  | bareConstant hv hs => simp [term, hv, hs]
  | numeric hv hw hc =>
    cases hw <;> simp only [term, hv] <;> exact map_const_nameOf_eq_ok_iff.2 ⟨hc, rfl⟩

theorem term_eq_ok_iff {t : Term} : term ks position v = .ok t ↔ (accepted ks).DescribesTerm ks v t :=
  ⟨describesTerm_of_term, term_of_describesTerm⟩

/-- A list entry is opened to a list exactly if it is void, or is the list itself. -/
theorem opened_orEmptyList_iff {items : List Value} :
    ks.opened v.orEmptyList = .list items ↔ v.isVoid = true ∧ items = [] ∨ ks.opened v = .list items := by
  unfold Value.orEmptyList
  split_ifs with hv
  · simp only [hv, true_and]
    constructor
    · rintro ⟨⟩
      exact .inl rfl
    · rintro (rfl | hlist)
      · rfl
      · cases v <;> simp_all [Value.isVoid, Value.Knots.opened]
  · simp [hv]

theorem listEntry_eq_list_iff {entries : List (Value × Value)} {key : String} {items : List Value} :
    listEntry ks entries key = .list items ↔ (accepted ks).Lists ks entries key items := by
  unfold listEntry Value.lookup
  cases hentry : lookup? entries key with
  | none =>
    constructor
    · rintro ⟨⟩
      exact .missing hentry
    · rintro (_ | ⟨h, -⟩ | ⟨h, -⟩)
      · rfl
      all_goals cases hentry.symm.trans h
  | some w =>
    rw [Option.getD_some, opened_orEmptyList_iff]
    constructor
    · rintro (⟨hw, rfl⟩ | hw)
      · exact .absent hentry hw
      · exact .items hentry hw
    · rintro (h | ⟨h, hw⟩ | ⟨h, hw⟩)
      · cases hentry.symm.trans h
      · obtain rfl := Option.some.inj (hentry.symm.trans h)
        exact .inl ⟨hw, rfl⟩
      · obtain rfl := Option.some.inj (hentry.symm.trans h)
        exact .inr hw

theorem atom_eq_ok_iff {a : Atom} : atom ks position v = .ok a ↔ (accepted ks).DescribesAtom ks v a := by
  constructor
  · intro h
    unfold atom at h
    split at h
    next entries hv =>
      split at h
      next p hp =>
        split at h
        next items hitems =>
          obtain ⟨args, hargs, rfl⟩ := map_eq_ok_iff.1 h
          refine .intro hv (lookup_eq_str_iff.1 hp) (listEntry_eq_list_iff.1 hitems) ?_
          exact (mapM_eq_ok_iff.1 hargs).imp fun _ _ => term_eq_ok_iff.1
        · cases h
      · cases h
    · cases h
  · rintro ⟨hv, hp, hitems, hargs⟩
    simp only [atom, hv, lookup_eq_str_iff.2 hp, listEntry_eq_list_iff.2 hitems]
    exact map_eq_ok_iff.2 ⟨_, mapM_eq_ok (hargs.imp fun _ _ => term_eq_ok_iff.2), rfl⟩

theorem rule_eq_ok_iff {r : Rule} : rule ks position v = .ok r ↔ (accepted ks).DescribesRule ks v r := by
  constructor
  · intro h
    unfold rule at h
    split at h
    next entries hv =>
      split at h
      next fact hfact =>
        obtain ⟨a, ha, rfl⟩ := map_eq_ok_iff.1 h
        exact .fact hv hfact (atom_eq_ok_iff.1 ha)
      next hfact =>
        split at h
        · cases h
        next conclusion hconclusion =>
          split at h
          next items hitems =>
            obtain ⟨premises, hpremises, h⟩ := bind_eq_ok_iff.1 h
            obtain ⟨a, ha, hr⟩ := bind_eq_ok_iff.1 h
            obtain rfl := Except.ok.inj hr
            refine .rule hv hfact hconclusion (atom_eq_ok_iff.1 ha) (listEntry_eq_list_iff.1 hitems) ?_
            exact (mapM_eq_ok_iff.1 hpremises).imp fun _ _ => atom_eq_ok_iff.1
          · cases h
    · cases h
  · rintro (⟨hv, hfact, hw⟩ | ⟨hv, hfact, hconclusion, hw, hitems, hpremises⟩)
    · simp only [rule, hv, hfact]
      exact map_eq_ok_iff.2 ⟨_, atom_eq_ok_iff.2 hw, rfl⟩
    · simp only [rule, hv, hfact, hconclusion, listEntry_eq_list_iff.2 hitems]
      refine bind_eq_ok_iff.2 ⟨_, mapM_eq_ok (hpremises.imp fun _ _ => atom_eq_ok_iff.2), ?_⟩
      exact bind_eq_ok_iff.2 ⟨_, atom_eq_ok_iff.2 hw, rfl⟩

theorem rulesFrom_eq_ok_iff {items : List Value} {rs : List Rule} :
    rulesFrom ks position items = .ok rs ↔ List.Forall₂ ((accepted ks).DescribesRule ks) items rs := by
  induction items generalizing position rs with
  | nil => simp [rulesFrom, eq_comm]
  | cons v rest ih =>
    rw [rulesFrom, bind_eq_ok_iff, List.forall₂_cons_left_iff]
    simp only [bind_eq_ok_iff, rule_eq_ok_iff, ih, pure, Except.pure, Except.ok.injEq]
    grind

theorem ruleList_eq_ok_iff {rs : List Rule} : ruleList ks v = .ok rs ↔
    ∃ items, ks.opened v = .list items ∧ List.Forall₂ ((accepted ks).DescribesRule ks) items rs := by
  unfold ruleList
  split
  next items hv => simp [hv, rulesFrom_eq_ok_iff]
  next hv =>
    refine ⟨nofun, ?_⟩
    rintro ⟨items, hitems, -⟩
    exact absurd hitems (hv items)

/-- Values are read as what they describe by the accepted grammar. -/
theorem rulesIn_eq_ok_iff {rs : List Rule} : rulesIn ks v = .ok rs ↔ (accepted ks).Describes ks v rs := by
  constructor
  · intro h
    unfold rulesIn at h
    split at h
    next hv =>
      obtain rfl := Except.ok.inj h
      exact .null hv
    next entries hv =>
      split at h
      next w hw =>
        obtain ⟨items, hitems, hrs⟩ := ruleList_eq_ok_iff.1 h
        refine .mapping hv (by simp [hw]) (listEntry_eq_list_iff.1 ?_) hrs
        simpa only [listEntry, Value.lookup, hw, Option.getD_some] using hitems
      · cases h
    · obtain ⟨items, hitems, hrs⟩ := ruleList_eq_ok_iff.1 h
      exact .records hitems hrs
  · rintro (hv | ⟨hv, hrs⟩ | ⟨hv, hkey, hitems, hrs⟩)
    · simp only [rulesIn, hv]
    · have hlist := ruleList_eq_ok_iff.2 ⟨_, hv, hrs⟩
      unfold rulesIn
      split
      next hnull => cases hnull ▸ hv
      next hmap => cases hmap ▸ hv
      · exact hlist
    · obtain ⟨w, hw⟩ := Option.isSome_iff_exists.1 hkey
      have hopened := listEntry_eq_list_iff.2 hitems
      simp only [listEntry, Value.lookup, hw, Option.getD_some] at hopened
      simp only [rulesIn, hv, hw]
      exact ruleList_eq_ok_iff.2 ⟨_, hopened, hrs⟩

/-! ## Grammars that allow more -/

namespace Grammar

def listKeys : List String := ["rules", "premises", "args"]

/-- Whatever a grammar allows in a value, another one allows too. -/
structure Below (g g' : Grammar) (ks : Value.Knots) (v : Value) : Prop where
  absent : ∀ entries, ∀ key ∈ listKeys, ∀ w, Holds ks v (.map entries) → lookup? entries key = some w →
    g.absent w → g'.absent w ∨ w = .list []
  given : ∀ entries w, Holds ks v (.map entries) → lookup? entries "type" = some (.str "const") →
    lookup? entries "value" = some w → g.constant w → g'.constant w
  bare : ∀ w, Holds ks v w → IsNumeric w → g.constant w → g'.constant w

theorem Below.of_holds (h : g.Below g' ks v) {w : Value} (hw : Holds ks v w) : g.Below g' ks w where
  absent entries key hkey u hu := h.absent entries key hkey u (hw.trans hu)
  given entries u hu := h.given entries u (hw.trans hu)
  bare u hu := h.bare u (hw.trans hu)

theorem Below.forall₂ {α : Type} {R R' : Value → α → Prop} {items : List Value} {as : List α} (h : g.Below g' ks v)
    (hitems : ∀ w ∈ items, Holds ks v w) (hR : ∀ w a, g.Below g' ks w → R w a → R' w a)
    (has : List.Forall₂ R items as) : List.Forall₂ R' items as :=
  ((List.forall₂_and_left _ _).2 ⟨hitems, has⟩).imp fun w a hw => hR w a (h.of_holds hw.1) hw.2

theorem DescribesTerm.mono (h : g.Below g' ks v) {t : Term} (ht : g.DescribesTerm ks v t) :
    g'.DescribesTerm ks v t := by
  cases ht with
  | var hv htype hname => exact .var hv htype hname
  | const hv htype hvalue hw =>
    exact .const hv htype hvalue (h.given _ _ (Value.holds_of_opened hv) htype hvalue hw)
  | bareVariable hv hs => exact .bareVariable hv hs
  | bareConstant hv hs => exact .bareConstant hv hs
  | numeric hv hw hc => exact .numeric hv hw (h.bare _ (Value.holds_of_opened hv) hw hc)

variable {entries : List (Value × Value)} {key : String} {items : List Value}

theorem Lists.mono (h : g.Below g' ks v) (hv : ks.opened v = .map entries) (hkey : key ∈ listKeys)
    (hl : g.Lists ks entries key items) : g'.Lists ks entries key items := by
  cases hl with
  | missing hentry => exact .missing hentry
  | absent hentry hw =>
    rcases h.absent entries key hkey _ (Value.holds_of_opened hv) hentry hw with hw | rfl
    · exact .absent hentry hw
    · exact .items hentry rfl
  | items hentry hw => exact .items hentry hw

theorem Lists.holds (hv : ks.opened v = .map entries) (hl : g.Lists ks entries key items) :
    ∀ w ∈ items, Holds ks v w := by
  intro w hw
  cases hl with
  | missing => cases hw
  | absent => cases hw
  | items hentry hlist =>
    refine (Value.holds_of_opened hv).trans ((Value.holds_of_lookup? hentry).trans ?_)
    exact Value.holds_of_mem_opened hlist hw

theorem DescribesAtom.mono (h : g.Below g' ks v) {a : Atom} (ha : g.DescribesAtom ks v a) :
    g'.DescribesAtom ks v a := by
  obtain ⟨hv, hp, hitems, hargs⟩ := ha
  exact .intro hv hp (hitems.mono h hv (by simp [listKeys]))
    (h.forall₂ (hitems.holds hv) (fun _ _ h => DescribesTerm.mono h) hargs)

theorem DescribesRule.mono (h : g.Below g' ks v) {r : Rule} (hr : g.DescribesRule ks v r) :
    g'.DescribesRule ks v r := by
  rcases hr with ⟨hv, hfact, hw⟩ | ⟨hv, hfact, hconclusion, hw, hitems, hpremises⟩
  · have hheld := (Value.holds_of_opened hv).trans (Value.holds_of_lookup? hfact)
    exact .fact hv hfact (hw.mono (h.of_holds hheld))
  · have hheld := (Value.holds_of_opened hv).trans (Value.holds_of_lookup? hconclusion)
    exact .rule hv hfact hconclusion (hw.mono (h.of_holds hheld)) (hitems.mono h hv (by simp [listKeys]))
      (h.forall₂ (hitems.holds hv) (fun _ _ h => DescribesAtom.mono h) hpremises)

theorem Describes.mono (h : g.Below g' ks v) {rs : List Rule} (hrs : g.Describes ks v rs) : g'.Describes ks v rs := by
  rcases hrs with hv | ⟨hv, hrs⟩ | ⟨hv, hkey, hitems, hrs⟩
  · exact .null hv
  · refine .records hv (h.forall₂ (fun w hw => ?_) (fun _ _ h => DescribesRule.mono h) hrs)
    exact (Value.Holds.opened (.self _)).trans (Value.holds_of_mem_opened hv hw)
  · exact .mapping hv hkey (hitems.mono h hv (by simp [listKeys]))
      (h.forall₂ (hitems.holds hv) (fun _ _ h => DescribesRule.mono h) hrs)

/-- Where no integer is too long, all that is documented is accepted. -/
theorem documented_below (hshort : ∀ w, Holds ks v w → w.exceedsDigitLimit ks = false) :
    documented.Below (accepted ks) ks v where
  absent := by
    rintro entries key hkey w - - rfl
    exact .inl rfl
  given entries w hv _ hvalue _ := hshort w (hv.trans (Value.holds_of_lookup? hvalue))
  bare w hw _ _ := hshort w hw

/-- No mapping in a value has, for a list, something else that is void and not null, or has a constant that is no text,
number or truth value. -/
structure WellPlaced (ks : Value.Knots) (v : Value) : Prop where
  lists : ∀ entries, ∀ key ∈ listKeys, ∀ w, Holds ks v (.map entries) → lookup? entries key = some w →
    w.isVoid = true → w = .null ∨ w = .list []
  constants : ∀ entries w, Holds ks v (.map entries) → lookup? entries "type" = some (.str "const") →
    lookup? entries "value" = some w → documented.constant w

/-- Where lists and constants are well placed, all that is accepted is documented. -/
theorem WellPlaced.below (h : WellPlaced ks v) : (accepted ks).Below documented ks v where
  absent := h.lists
  given entries w hv htype hvalue _ := h.constants entries w hv htype hvalue
  bare _ _ hw _ := .inl hw

end Grammar

/-- A value is read as rules exactly if it describes them by the accepted grammar; all else is refused with the failure
of records that are rejected, unless an integer in the value is too long to be written out. Where there is none, what a
value describes by the documented grammar is what it is read as; where lists and constants are well placed, nothing
else is read. -/
theorem rulesIn_settles (ks : Value.Knots) (v : Value) :
    (∀ rs, rulesIn ks v = .ok rs ↔ (accepted ks).Describes ks v rs) ∧
    (∀ f, rulesIn ks v = .error f → (ParseFault.record f).kind? = some .parseRejected ∨
      f = .digitLimit ∧ ∃ w, Holds ks v w ∧ w.exceedsDigitLimit ks = true) ∧
    ((∀ w, Holds ks v w → w.exceedsDigitLimit ks = false) →
      ∀ rs, documented.Describes ks v rs → rulesIn ks v = .ok rs) ∧
    (Grammar.WellPlaced ks v → ∀ rs, rulesIn ks v = .ok rs → documented.Describes ks v rs) := by
  refine ⟨fun rs => rulesIn_eq_ok_iff, fun f hf => ?_, fun hshort rs hrs => ?_, fun hplaced rs hrs => ?_⟩
  · cases f with
    | digitLimit => exact .inr ⟨rfl, steps_rulesIn.error _ hf rfl⟩
    | _ => exact .inl rfl
  · exact rulesIn_eq_ok_iff.2 (hrs.mono (Grammar.documented_below hshort))
  · exact (rulesIn_eq_ok_iff.1 hrs).mono hplaced.below

def shortAtom : List (Value × Value) := [(.str "predicate", .str "p"), (.str "args", .list [.int 7])]

def shortRecord : List (Value × Value) := [(.str "fact", .map shortAtom)]

def shortFact : Value := .list [.map shortRecord]

theorem holds_shortFact {w : Value} (h : Holds #[] shortFact w) :
    w ∈ [shortFact, .map shortRecord, .map shortAtom, .str "p", .list [.int 7], .int 7] := by
  refine h.closed (fun v hv => ?_) (fun items hitems => ?_) (fun entries hentries => ?_) List.mem_cons_self
  · simp only [shortFact, List.mem_cons, List.not_mem_nil, or_false] at hv
    rcases hv with rfl | rfl | rfl | rfl | rfl | rfl <;> simp [shortFact, Value.Knots.opened]
  · simp only [shortFact, List.mem_cons, List.not_mem_nil, or_false, Value.list.injEq, reduceCtorEq, false_or] at hitems
    rcases hitems with rfl | rfl <;> simp
  · simp only [shortFact, List.mem_cons, List.not_mem_nil, or_false, Value.map.injEq, reduceCtorEq, false_or]
      at hentries
    rcases hentries with rfl | rfl <;> simp [shortRecord, shortAtom]

theorem wellPlaced_shortFact : Grammar.WellPlaced #[] shortFact := by
  have hmaps : ∀ entries, Holds #[] shortFact (.map entries) → entries = shortRecord ∨ entries = shortAtom := by
    intro entries h
    simpa [shortFact] using holds_shortFact h
  constructor
  · intro entries key hkey w hw hentry hvoid
    simp only [Grammar.listKeys, List.mem_cons, List.not_mem_nil, or_false] at hkey
    rcases hmaps _ hw with rfl | rfl <;> rcases hkey with rfl | rfl | rfl <;> cases hentry
    cases hvoid
  · intro entries w hw htype
    rcases hmaps _ hw with rfl | rfl <;> cases htype

theorem rulesIn_settles_shortFact : (∀ w, Holds #[] shortFact w → w.exceedsDigitLimit #[] = false) ∧
    Grammar.WellPlaced #[] shortFact ∧ rulesIn #[] shortFact = .ok [.fact ⟨"p", [.const "7"]⟩] ∧
    documented.Describes #[] shortFact [.fact ⟨"p", [.const "7"]⟩] := by
  have hshort : ∀ w, Holds #[] shortFact w → w.exceedsDigitLimit #[] = false := fun w hw =>
    Value.exceedsDigitLimit_of_holds hw (by decide +kernel)
  have hargs : List.Forall₂ (documented.DescribesTerm #[]) [.int 7] [.const "7"] :=
    .cons (.numeric rfl (.int 7) (.inl (.int 7))) .nil
  obtain ⟨-, -, hread, hdescribed⟩ := rulesIn_settles #[] shortFact
  have hok : rulesIn #[] shortFact = .ok [.fact ⟨"p", [.const "7"]⟩] :=
    hread hshort _ (.records rfl (.cons (.fact rfl rfl (.intro rfl rfl (.items rfl rfl) hargs)) .nil))
  exact ⟨hshort, wellPlaced_shortFact, hok, hdescribed wellPlaced_shortFact _ hok⟩

/-- A record whose premises are no list. -/
def falsePremises : Value :=
  .list [.map [(.str "conclusion", .map [(.str "predicate", .str "p")]), (.str "premises", .bool false)]]

/-- A record with a constant that is no scalar. -/
def nullConstant : Value :=
  .list [.map [(.str "fact", .map [(.str "predicate", .str "p"),
    (.str "args", .list [.map [(.str "type", .str "const"), (.str "value", .null)]])])]]

theorem rules_undocumented :
    (rules falsePremises = .ok [.fact ⟨"p", []⟩] ∧ ∀ rs, ¬ documented.Describes #[] falsePremises rs) ∧
    (rules nullConstant = .ok [.fact ⟨"p", [.const "None"]⟩] ∧ ∀ rs, ¬ documented.Describes #[] nullConstant rs) := by
  refine ⟨⟨by decide +kernel, fun rs h => ?_⟩, by decide +kernel, fun rs h => ?_⟩
  · rcases h with ⟨⟨⟩⟩ | ⟨⟨⟩, hrs⟩ | ⟨⟨⟩⟩
    obtain ⟨r, rest, hr, -, rfl⟩ := List.forall₂_cons_left_iff.1 hrs
    rcases hr with ⟨⟨⟩, ⟨⟩⟩ | ⟨⟨⟩, -, -, -, hitems, -⟩
    rcases hitems with ⟨⟨⟩⟩ | ⟨⟨⟩, ⟨⟩⟩ | ⟨⟨⟩, ⟨⟩⟩
  · rcases h with ⟨⟨⟩⟩ | ⟨⟨⟩, hrs⟩ | ⟨⟨⟩⟩
    obtain ⟨r, rest, hr, -, rfl⟩ := List.forall₂_cons_left_iff.1 hrs
    rcases hr with ⟨⟨⟩, ⟨⟩, hw⟩ | ⟨⟨⟩, ⟨⟩⟩
    rcases hw with ⟨⟨⟩, -, hitems, hargs⟩
    rcases hitems with ⟨⟨⟩⟩ | ⟨⟨⟩, ⟨⟩⟩ | ⟨⟨⟩, ⟨⟩⟩
    obtain ⟨t, rest, ht, -, rfl⟩ := List.forall₂_cons_left_iff.1 hargs
    rcases ht with ⟨⟨⟩, -, ⟨⟩⟩ | ⟨⟨⟩, -, ⟨⟩, hw⟩ | ⟨⟨⟩⟩ | ⟨⟨⟩⟩ | ⟨⟨⟩, hw⟩
    · rcases hw with hnumeric | ⟨s, ⟨⟩⟩
      cases hnumeric
    · cases hw

end Entail.Record
