import Entail.Proofs.Requests

/-!
# What holds of every reasoner

* `Justified` : why a fact is held, given the rules and what was held before it;
* `Coherent` : names are distinct and all facts and rules read as something; the two maps of facts agree; every fact
  is justified; the rounds of derived facts are numbered without a gap; no two rules are variants; the contradiction
  is the first fact of its predicate;
* `Coherent.keeps`, `Coherent.addSeed`, `Coherent.addNew`, `Coherent.stepped` : one lemma for each way a reasoner
  changes; `coherent_after` : every reasoner that is created and takes requests is coherent;
* `Invariant` : the part of it that speaks of facts, supports and rounds alone (`invariant_after`).
-/

namespace Entail

open Coded (Application)

namespace Reasoner

/-- Why a fact is held: it was stated, or a rule gives it from facts held before, of earlier rounds. -/
inductive Justified (rules : List Coded.Rule) (earlier : Supports) (a : Coded.Atom) : Support → Prop
  | stated : Justified rules earlier a .seed
  | derived {premises : List Coded.Atom} {rule : Coded.Rule} {g : Nat} (mem : rule ∈ rules)
      (some_premise : premises ≠ [])
      (held : ∀ p ∈ premises, ∃ s, (p, s) ∈ earlier ∧ s.generation < g)
      (applies : rule.apply premises = .ok ⟨a, premises, rule⟩) :
      Justified rules earlier a ⟨premises, some rule, g⟩

theorem Justified.mono {rules rules' : List Coded.Rule} {earlier earlier' : Supports} {a : Coded.Atom} {s : Support}
    (h : Justified rules earlier a s) (hr : rules ⊆ rules') (he : earlier ⊆ earlier') :
    Justified rules' earlier' a s := by
  cases h with
  | stated => exact .stated
  | derived hmem hne hheld happly =>
    refine .derived (hr hmem) hne (fun p hp => ?_) happly
    obtain ⟨s, hs, hlt⟩ := hheld p hp
    exact ⟨s, he hs, hlt⟩

structure Readable (r : Reasoner) : Prop where
  distinct : r.symbols.Distinct
  facts : ∀ a ∈ r.atoms, ∃ x, a.Reads r.symbols [] x
  rules : ∀ c ∈ r.rules, ∃ x, c.Reads r.symbols x
  bottom : r.bottom.map r.symbols.nameOf? = r.settings.bottom?.map some

structure Supported (r : Reasoner) : Prop where
  maps : r.supports.map (fun e => (e.1, e.2.generation)) = r.known
  nodup : r.atoms.Nodup
  justified : ∀ earlier a s later, r.supports = earlier ++ (a, s) :: later → Justified r.rules earlier a s

structure Coherent (r : Reasoner) : Prop extends Readable r, Supported r where
  premises : ∀ c ∈ r.rules, c.premises ≠ []
  variants : (r.rules.map (·.toClause)).Nodup
  generations : ∀ g, (∃ e ∈ r.supports, e.2.isSeed = false ∧ e.2.generation = g) ↔ 1 ≤ g ∧ g ≤ r.generation
  contradiction : r.contradiction = r.atoms.find? r.isBottom

variable {r s : Reasoner} {a : Coded.Atom} {sup : Support}

/-! ## Consequences -/

theorem Supported.keys (h : Supported r) : r.supports.map (·.1) = r.atoms := by
  rw [Reasoner.atoms, ← h.maps, List.map_map]
  rfl

theorem Supported.exists_support (h : Supported r) (ha : a ∈ r.atoms) : ∃ sup, (a, sup) ∈ r.supports := by
  rw [← h.keys] at ha
  obtain ⟨⟨b, sup⟩, hb, rfl⟩ := List.mem_map.1 ha
  exact ⟨sup, hb⟩

theorem Supported.justified_of_mem (h : Supported r) (ha : (a, sup) ∈ r.supports) :
    Justified r.rules r.supports a sup := by
  obtain ⟨earlier, later, heq⟩ := List.append_of_mem ha
  refine (h.justified earlier a sup later heq).mono (List.Subset.refl _) ?_
  rw [heq]
  exact List.subset_append_left _ _

theorem Coherent.generation_le (h : Coherent r) (ha : (a, sup) ∈ r.supports) : sup.generation ≤ r.generation := by
  cases h.justified_of_mem ha with
  | stated => exact Nat.zero_le _
  | @derived premises rule g _ hne _ _ =>
    exact ((h.generations g).1 ⟨_, ha, by simpa [Support.isSeed] using hne, rfl⟩).2

theorem Readable.isGround (h : Readable r) (ha : a ∈ r.atoms) : a.isGround := by
  obtain ⟨x, hx⟩ := h.facts a ha
  exact hx.isGround

theorem Readable.scoped (h : Readable r) {c : Coded.Rule} (hc : c ∈ r.rules) : c.toClause.Scoped := by
  obtain ⟨x, hx⟩ := h.rules c hc
  exact hx.scoped

/-- What an application in a round comes of. -/
theorem Readable.application (h : Readable r) {p : Application} (hp : p ∈ r.applications) :
    p.rule ∈ r.rules ∧ p.premises ∈ r.selections p.rule.premises.length ∧ (∀ f ∈ p.premises, f ∈ r.atoms) ∧
      p.rule.toClause.Yields p.premises p.conclusion ∧ p.rule.apply p.premises = .ok p := by
  obtain ⟨c, hc, facts, hfacts, happly⟩ := mem_applications.1 hp
  obtain ⟨-, hheld⟩ := mem_selections hfacts
  obtain ⟨hy, rfl, rfl⟩ := (Coded.Rule.apply_eq_ok_iff (h.scoped hc) fun f hf => h.isGround (hheld f hf)).1 happly
  exact ⟨hc, hfacts, hheld, hy, happly⟩

/-- What a rule yields from a selection is found in a round. -/
theorem Readable.application_of_yields (h : Readable r) {c : Coded.Rule} (hc : c ∈ r.rules) {facts : List Coded.Atom}
    (hf : facts ∈ r.selections c.premises.length) (hy : c.toClause.Yields facts a) :
    ⟨a, facts, c⟩ ∈ r.applications := by
  have hheld := (mem_selections hf).2
  refine mem_applications.2 ⟨c, hc, facts, hf, ?_⟩
  exact (Coded.Rule.apply_eq_ok_iff (h.scoped hc) fun f hff => h.isGround (hheld f hff)).2 ⟨hy, rfl, rfl⟩

/-- Whatever rules yield from facts reads as something. -/
theorem Readable.exists_reads (h : Readable r) {c : Coded.Rule} (hc : c ∈ r.rules) {facts : List Coded.Atom}
    (hf : ∀ f ∈ facts, f ∈ r.atoms) (hy : c.toClause.Yields facts a) : ∃ x, a.Reads r.symbols [] x := by
  obtain ⟨hpred, -, hargs⟩ := hy.symbols
  obtain ⟨x, hx⟩ := h.rules c hc
  refine Coded.Atom.exists_reads hy.isGround fun s hs => ?_
  rcases hs with rfl | hs
  · exact hx.conclusion.exists_name (.inl hpred)
  · rcases hargs s hs with hs | ⟨f, hff, hs⟩
    · exact hx.conclusion.exists_name (.inr hs)
    · obtain ⟨y, hy⟩ := h.facts f (hf f hff)
      exact hy.exists_name (.inr hs)

theorem Supported.mem_atoms (h : Supported r) (ha : (a, sup) ∈ r.supports) : a ∈ r.atoms :=
  h.keys ▸ List.mem_map_of_mem ha

/-- The premises of a support stand among the facts. -/
theorem Supported.premises_held (h : Supported r) {earlier later : Supports} (heq : r.supports = earlier ++ later)
    {premises : List Coded.Atom} {g : Nat} (hheld : ∀ p ∈ premises, ∃ s, (p, s) ∈ earlier ∧ s.generation < g) :
    ∀ p ∈ premises, p ∈ r.atoms := by
  intro p hp
  obtain ⟨s, hs, -⟩ := hheld p hp
  exact h.mem_atoms (heq ▸ List.mem_append_left _ hs)

/-- A fact is a contradiction if it reads as an atom with the predicate of the settings. -/
theorem Readable.bottom_iff (h : Readable r) {x : Atom} (hx : a.Reads r.symbols [] x) :
    r.bottom = some a.predicate ↔ r.settings.bottom? = some x.predicate := by
  have hb := h.bottom
  cases hrb : r.bottom with
  | none =>
    rw [hrb] at hb
    simp [Option.map_eq_none_iff.1 hb.symm]
  | some b =>
    rw [hrb, Option.map_some, eq_comm, Option.map_eq_some_iff] at hb
    obtain ⟨name, hname, hread⟩ := hb
    rw [hname, Option.some.injEq, Option.some.injEq]
    constructor
    · rintro rfl
      exact Option.some.inj (hread.trans hx.predicate)
    · rintro rfl
      exact SymbolTable.nameOf?_inj h.distinct hread.symm hx.predicate

/-! ## Holding a fact -/

theorem Readable.insert (h : Readable r) (ha : ∃ x, a.Reads r.symbols [] x) (sup : Support) :
    Readable (r.insert a sup).2 := by
  by_cases hmem : a ∈ r.atoms
  · rw [insert_of_mem hmem]
    exact h
  · have hatoms := atoms_insert hmem sup
    rw [insert_of_not_mem hmem] at hatoms ⊢
    refine ⟨h.distinct, fun b hb => ?_, h.rules, h.bottom⟩
    rw [hatoms] at hb
    rcases List.mem_append.1 hb with hb | hb
    · exact h.facts b hb
    · rw [List.mem_singleton.1 hb]
      exact ha

theorem Supported.insert (h : Supported r) (ha : a ∉ r.atoms → Justified r.rules r.supports a sup) :
    Supported (r.insert a sup).2 := by
  by_cases hmem : a ∈ r.atoms
  · rw [insert_of_mem hmem]
    exact h
  · have hatoms := atoms_insert hmem sup
    rw [insert_of_not_mem hmem, put_of_not_mem (h.keys ▸ hmem)] at hatoms ⊢
    refine ⟨?_, ?_, fun earlier b t later heq => ?_⟩
    · rw [List.map_append, h.maps]
      rfl
    · rw [hatoms]
      simpa using List.Nodup.concat hmem h.nodup
    · -- the new entry is the last one, or the entry stood before
      rcases List.eq_nil_or_concat later with rfl | ⟨later, e, rfl⟩
      · obtain ⟨rfl, he⟩ := List.append_inj' heq rfl
        obtain ⟨rfl, rfl⟩ := Prod.mk.inj (List.cons.inj he).1
        exact ha hmem
      · rw [List.concat_eq_append, ← List.cons_append, ← List.append_assoc] at heq
        obtain ⟨heq, -⟩ := List.append_inj' heq rfl
        exact h.justified earlier b t later heq

theorem contradiction_insert_eq (h : r.contradiction = r.atoms.find? r.isBottom) (a : Coded.Atom) (sup : Support) :
    (r.insert a sup).2.contradiction = (r.insert a sup).2.atoms.find? (r.insert a sup).2.isBottom := by
  by_cases hmem : a ∈ r.atoms
  · rw [insert_of_mem hmem]
    exact h
  · have hatoms := atoms_insert hmem sup
    have hbottom : (r.insert a sup).2.isBottom = r.isBottom := by
      funext b
      rw [isBottom, (insert_frame r a sup).bottom, isBottom]
    rw [hatoms, hbottom, List.find?_append, ← h, insert_of_not_mem hmem]
    cases hc : r.contradiction with
    | none => cases hb : r.isBottom a <;> simp [isConsistent, hc, hb]
    | some b => simp [isConsistent, hc]

/-! ## Changes -/

theorem coherent_empty (settings : Settings) (journal : Journal) : Coherent (empty settings journal) := by
  unfold empty
  cases hb : settings.bottom? with
  | none =>
    refine { distinct := SymbolTable.distinct_empty 1, facts := ?_, rules := ?_, bottom := ?_, maps := rfl,
             nodup := List.nodup_nil, justified := ?_, premises := ?_, variants := List.nodup_nil,
             generations := ?_, contradiction := rfl }
    · simp [atoms]
    · simp
    · simp [hb]
    · simp
    · simp
    · simp; omega
  | some name =>
    have hname := (SymbolTable.empty 1).nameOf?_intern name
    refine { distinct := (SymbolTable.distinct_empty 1).intern name, facts := ?_, rules := ?_, bottom := ?_,
             maps := rfl, nodup := List.nodup_nil, justified := ?_, premises := ?_, variants := List.nodup_nil,
             generations := ?_, contradiction := rfl }
    · simp [atoms]
    · simp
    · simp [hb, hname]
    · simp
    · simp
    · simp; omega

theorem Coherent.keeps (h : Coherent r) (hk : Keeps r s) : Coherent s where
  distinct := hk.distinct h.distinct
  facts a ha := by
    rw [hk.atoms] at ha
    obtain ⟨x, hx⟩ := h.facts a ha
    exact ⟨x, hx.mono hk.table List.prefix_rfl⟩
  rules c hc := by
    rw [hk.rules] at hc
    obtain ⟨x, hx⟩ := h.rules c hc
    exact ⟨x, hx.mono hk.table⟩
  bottom := by
    have hb := h.bottom
    rw [hk.bottom, hk.settings]
    cases hrb : r.bottom with
    | none => rw [hrb] at hb; exact hb
    | some b =>
      rw [hrb] at hb
      cases hs : r.settings.bottom? with
      | none => rw [hs] at hb; cases hb
      | some name =>
        rw [hs] at hb
        exact congrArg some (hk.table.nameOf? (Option.some.inj hb))
  maps := by rw [hk.supports, hk.known, h.maps]
  nodup := by rw [hk.atoms]; exact h.nodup
  justified := by rw [hk.supports, hk.rules]; exact h.justified
  premises := by rw [hk.rules]; exact h.premises
  variants := by rw [hk.rules]; exact h.variants
  generations := by rw [hk.supports, hk.generation]; exact h.generations
  contradiction := by
    have hbottom : s.isBottom = r.isBottom := by
      funext b
      rw [isBottom, hk.bottom, isBottom]
    rw [hk.contradiction, hk.atoms, hbottom, h.contradiction]

/-- Stating a fact. -/
theorem Coherent.addSeed (h : Coherent r) (ha : ∃ x, a.Reads r.symbols [] x) : Coherent (r.insert a .seed).2 := by
  have hrules := (insert_frame r a .seed).rules
  refine { h.toReadable.insert ha .seed, h.toSupported.insert fun _ => .stated with
           premises := ?_, variants := ?_, generations := ?_,
           contradiction := contradiction_insert_eq h.contradiction a .seed }
  · rw [hrules]
    exact h.premises
  · rw [hrules]
    exact h.variants
  · intro g
    rw [generation_insert, ← h.generations g]
    by_cases hmem : a ∈ r.atoms
    · rw [insert_of_mem hmem]
    · rw [insert_of_not_mem hmem, put_of_not_mem (h.keys ▸ hmem)]
      simp [Support.seed, Support.isSeed, or_and_right, exists_or]

/-- Adding a rule that is no variant of another. -/
theorem Coherent.addNew (h : Coherent r) {c : Coded.Rule} {u : SymbolTable} {x : Rule} (ht : r.symbols.Extends u)
    (hd : u.Distinct) (hc : c.Reads u x) (hp : c.premises ≠ []) (hv : ∀ old ∈ r.rules, old.toClause ≠ c.toClause) :
    Coherent { r with symbols := u, rules := r.rules ++ [c] } := by
  have hk := h.keeps (keeps_symbols r ht fun _ => hd)
  refine { hk with rules := ?_, justified := ?_, premises := ?_, variants := ?_ }
  · intro d hd
    rcases List.mem_append.1 hd with hd | hd
    · exact hk.rules d hd
    · rw [List.mem_singleton.1 hd]
      exact ⟨x, hc⟩
  · intro earlier b t later heq
    exact (h.justified earlier b t later heq).mono (List.subset_append_left _ _) (List.Subset.refl _)
  · intro d hd
    rcases List.mem_append.1 hd with hd | hd
    · exact h.premises d hd
    · rw [List.mem_singleton.1 hd]
      exact hp
  · rw [List.map_append, List.map_singleton]
    have hmem : c.toClause ∉ r.rules.map (·.toClause) := by
      intro hm
      obtain ⟨old, hold, heq⟩ := List.mem_map.1 hm
      exact hv old hold heq
    simpa using List.Nodup.concat hmem h.variants

/-! ## Rounds -/

theorem Readable.holdAll (g : Nat) {ps : List Application} (h : Readable r)
    (hp : ∀ p ∈ ps, ∃ x, p.conclusion.Reads r.symbols [] x) : Readable (holdAll g r ps) := by
  induction ps generalizing r with
  | nil => exact h
  | cons p ps ih =>
    refine ih (h.insert (hp p List.mem_cons_self) _) fun q hq => ?_
    rw [(insert_frame _ _ _).symbols]
    exact hp q (List.mem_cons_of_mem _ hq)

theorem supports_subset_insert (h : Supported r) (a : Coded.Atom) (sup : Support) :
    r.supports ⊆ (r.insert a sup).2.supports := by
  by_cases hmem : a ∈ r.atoms
  · rw [insert_of_mem hmem]
    exact List.Subset.refl _
  · rw [insert_of_not_mem hmem, put_of_not_mem (h.keys ▸ hmem)]
    exact List.subset_append_left _ _

theorem Supported.holdAll {g : Nat} {ps : List Application} (h : Supported r)
    (hp : ∀ p ∈ ps, Justified r.rules r.supports p.conclusion ⟨p.premises, some p.rule, g⟩) :
    Supported (holdAll g r ps) := by
  induction ps generalizing r with
  | nil => exact h
  | cons p ps ih =>
    refine ih (h.insert fun _ => hp p List.mem_cons_self) fun q hq => ?_
    rw [(insert_frame _ _ _).rules]
    exact (hp q (List.mem_cons_of_mem _ hq)).mono (List.Subset.refl _) (supports_subset_insert h _ _)

theorem contradiction_holdAll_eq (g : Nat) (ps : List Application) (h : r.contradiction = r.atoms.find? r.isBottom) :
    (holdAll g r ps).contradiction = (holdAll g r ps).atoms.find? (holdAll g r ps).isBottom := by
  induction ps generalizing r with
  | nil => exact h
  | cons p ps ih => exact ih (contradiction_insert_eq h _ _)

theorem supports_holdAll (g : Nat) {ps : List Application} (h : r.supports.map (·.1) = r.atoms)
    (hn : (r.atoms ++ ps.map (·.conclusion)).Nodup) :
    (holdAll g r ps).supports = r.supports ++ ps.map fun p => (p.conclusion, ⟨p.premises, some p.rule, g⟩) := by
  induction ps generalizing r with
  | nil => simp [Reasoner.holdAll]
  | cons p ps ih =>
    have hmem : p.conclusion ∉ r.atoms := fun hp => (List.nodup_append.1 hn).2.2 _ hp _ (by simp) rfl
    have hatoms := atoms_insert hmem ⟨p.premises, some p.rule, g⟩
    have hsup : (r.insert p.conclusion ⟨p.premises, some p.rule, g⟩).2.supports =
        r.supports ++ [(p.conclusion, ⟨p.premises, some p.rule, g⟩)] := by
      rw [insert_of_not_mem hmem, put_of_not_mem (h ▸ hmem)]
    rw [holdAll_cons, ih (by rw [hsup, hatoms, List.map_append, h]; rfl) (by rw [hatoms]; simpa using hn), hsup]
    simp

theorem Coherent.premises_ne_nil (h : Coherent r) {p : Application} (hp : p ∈ r.applications) : p.premises ≠ [] := by
  obtain ⟨hrule, -, -, hy, -⟩ := h.application hp
  have hlen := hy.length
  intro hnil
  rw [hnil] at hlen
  exact h.premises p.rule hrule (List.length_eq_zero_iff.1 hlen.symm)

/-- What a round holds is justified by what was held before it. -/
theorem Coherent.justified_application (h : Coherent r) {p : Application} (hp : p ∈ r.applications) :
    Justified r.rules r.supports p.conclusion ⟨p.premises, some p.rule, r.generation + 1⟩ := by
  obtain ⟨hrule, -, hheld, -, happly⟩ := h.application hp
  refine .derived hrule (h.premises_ne_nil hp) (fun q hq => ?_) happly
  obtain ⟨sup, hsup⟩ := h.exists_support (hheld q hq)
  exact ⟨sup, hsup, Nat.lt_succ_of_le (h.generation_le hsup)⟩

theorem mem_applications_of_fresh {p : Application} (hp : p ∈ r.fresh) : p ∈ r.applications :=
  (admitted_sublist _ _ _).subset hp

theorem Supported.nodup_fresh (h : Supported r) : (r.atoms ++ r.fresh.map (·.conclusion)).Nodup :=
  nodup_admitted _ h.nodup _

theorem Coherent.atoms_stepped (h : Coherent r) : r.stepped.atoms = r.atoms ++ r.fresh.map (·.conclusion) :=
  atoms_holdAll _ h.nodup_fresh

theorem Coherent.supports_stepped (h : Coherent r) : r.stepped.supports =
    r.supports ++ r.fresh.map fun p => (p.conclusion, ⟨p.premises, some p.rule, r.generation + 1⟩) :=
  supports_holdAll _ h.keys h.nodup_fresh

/-- A round that ends without a contradiction has held all that rules give. -/
theorem Coherent.conclusion_mem_stepped (h : Coherent r) (hnone : r.stepped.contradiction = none) {p : Application}
    (hp : p ∈ r.applications) : p.conclusion ∈ r.stepped.atoms := by
  have hfind := contradiction_holdAll_eq (r.generation + 1) r.fresh h.contradiction
  have hatoms := h.atoms_stepped
  change r.stepped.contradiction = r.stepped.atoms.find? r.stepped.isBottom at hfind
  rw [hnone, hatoms, eq_comm, List.find?_eq_none] at hfind
  rw [hatoms]
  refine mem_admitted (fun q hq hb => ?_) p hp
  refine hfind q.conclusion (List.mem_append_right _ (List.mem_map_of_mem hq)) (isBottom_iff.2 ?_)
  rw [r.stepped_frame.bottom, hb]

/-- The facts of a productive round are the first of their round. -/
theorem Coherent.generations_stepped (h : Coherent r) (g : Nat) :
    (∃ e ∈ r.stepped.supports, e.2.isSeed = false ∧ e.2.generation = g) ↔ 1 ≤ g ∧ g ≤ r.stepped.generation := by
  rw [h.supports_stepped]
  by_cases hnil : r.fresh = []
  · simpa [Reasoner.stepped, hnil] using h.generations g
  · obtain ⟨p, hp⟩ := List.exists_mem_of_ne_nil _ hnil
    have hseed : p.premises.isEmpty = false :=
      List.isEmpty_eq_false_iff.2 (h.premises_ne_nil (mem_applications_of_fresh hp))
    have hgen : r.stepped.generation = r.generation + 1 := if_neg hnil
    rw [hgen]
    constructor
    · rintro ⟨e, he, hs, rfl⟩
      rcases List.mem_append.1 he with he | he
      · have := (h.generations e.2.generation).1 ⟨e, he, hs, rfl⟩
        omega
      · obtain ⟨q, -, rfl⟩ := List.mem_map.1 he
        exact ⟨by simp, Nat.le_refl _⟩
    · rintro ⟨h1, h2⟩
      rcases Nat.lt_or_ge r.generation g with hlt | hle
      · obtain rfl : r.generation + 1 = g := by omega
        exact ⟨_, List.mem_append_right _ (List.mem_map.2 ⟨p, hp, rfl⟩), hseed, rfl⟩
      · obtain ⟨e, he, hs, hg⟩ := (h.generations g).2 ⟨h1, hle⟩
        exact ⟨e, List.mem_append_left _ he, hs, hg⟩

/-- A round. -/
theorem Coherent.stepped (h : Coherent r) : Coherent r.stepped := by
  have hreads : ∀ p ∈ r.fresh, ∃ x, p.conclusion.Reads r.symbols [] x := by
    intro p hp
    obtain ⟨hrule, -, hheld, hy, -⟩ := h.application (mem_applications_of_fresh hp)
    exact h.exists_reads hrule hheld hy
  have hjust : ∀ p ∈ r.fresh, Justified r.rules r.supports p.conclusion ⟨p.premises, some p.rule, r.generation + 1⟩ :=
    fun p hp => h.justified_application (mem_applications_of_fresh hp)
  have hread : Readable r.stepped := by
    have := h.toReadable.holdAll (r.generation + 1) hreads
    exact ⟨this.distinct, this.facts, this.rules, this.bottom⟩
  have hsup : Supported r.stepped := by
    have := h.toSupported.holdAll hjust
    exact ⟨this.maps, this.nodup, this.justified⟩
  have hrules := r.stepped_frame.rules
  exact { hread, hsup with
          premises := hrules ▸ h.premises
          variants := hrules ▸ h.variants
          generations := h.generations_stepped
          contradiction := contradiction_holdAll_eq (r.generation + 1) r.fresh h.contradiction }

/-! ## All requests -/

theorem Coherent.search (h : Coherent r) (hs : Search r s) : Coherent s := by
  induction hs with
  | rest hk => exact h.keeps hk
  | round _ _ ht ih => exact ih.stepped.keeps ht

theorem Coherent.addFact (h : Coherent r) (x : Atom) : Coherent (r.addFact x).2 := by
  cases hg : x.isGround with
  | false => rw [addFact_of_not_ground hg]; exact h
  | true =>
    obtain ⟨c, u, he⟩ := Atom.exists_encode hg r.symbols
    obtain ⟨hext, hdist, hreads⟩ := Atom.encode_reads he
    have hk := h.keeps (keeps_symbols r hext hdist)
    exact (hk.addSeed ⟨x, hreads⟩).keeps (addFact_of_encode he)

theorem Coherent.addRule (h : Coherent r) (rule : Rule) : Coherent (r.addRule rule).2 := by
  cases hax : rule.isAxiom with
  | true =>
    cases hg : rule.conclusion.isGround with
    | false => rw [addRule_of_refused hax hg]; exact h
    | true => rw [addRule_of_stated hax hg]; exact h.addFact _
  | false =>
    obtain ⟨hext, hdist, hreads⟩ := rule.encode_reads h.distinct
    by_cases hv : ∃ old ∈ r.rules, old.toClause = (rule.encode r.symbols).1.toClause
    · rw [addRule_of_variant hax hv]
      exact h.keeps (keeps_symbols r hext fun _ => hdist)
    · have hv : ∀ old ∈ r.rules, old.toClause ≠ (rule.encode r.symbols).1.toClause :=
        fun old hold heq => hv ⟨old, hold, heq⟩
      rw [addRule_of_new hax hv]
      refine h.addNew hext hdist hreads ?_ hv
      rw [Rule.isAxiom, List.isEmpty_eq_false_iff] at hax
      intro hnil
      have hlen := rule.encode_premises (t := r.symbols)
      rw [hnil] at hlen
      exact hax (List.length_eq_zero_iff.1 hlen.symm)

theorem Coherent.perform (h : Coherent r) (q : Request) : Coherent (r.perform q) := by
  cases q with
  | addRule rule => exact h.addRule rule
  | addFact a => exact h.addFact a
  | query target => exact h.search (search_query r target)
  | saturate => exact h.search (search_saturate r)
  | round => exact h.search (search_round r)

theorem Coherent.performAll (h : Coherent r) (qs : List Request) : Coherent (r.performAll qs) := by
  induction qs generalizing r with
  | nil => exact h
  | cons q qs ih => exact ih (h.perform q)

theorem coherent_create (settings : Settings) (journal : Journal) (rules : List Rule) :
    Coherent (create settings journal rules).2 :=
  create_induction settings journal rules (coherent_empty settings journal) (fun _ _ hk h => h.keeps hk)
    fun _ h rule _ => h.addRule rule

theorem coherent_after (settings : Settings) (journal : Journal) (rules : List Rule) (qs : List Request) :
    Coherent (after settings journal rules qs) := (coherent_create settings journal rules).performAll qs

/-! ## The invariant in full -/

/-- What holds of the two maps of facts, the rules and the count of rounds: the maps have the same facts in the same
order and agree on their rounds; facts are ground and all their symbols have names; each was stated, or is what one of
the rules gives from facts held before, of earlier rounds; the rounds of derived facts are those from the first to the
last. -/
structure Invariant (r : Reasoner) : Prop where
  maps : r.known = r.supports.map fun e => (e.1, e.2.generation)
  nodup : r.atoms.Nodup
  ground : ∀ a ∈ r.atoms, a.isGround
  issued : ∀ a ∈ r.atoms, ∀ s, s = a.predicate ∨ .sym s ∈ a.args → ∃ name, r.symbols.nameOf? s = some name
  justified : ∀ earlier a s later, r.supports = earlier ++ (a, s) :: later → Justified r.rules earlier a s
  generations : ∀ g, (∃ e ∈ r.supports, e.2.isSeed = false ∧ e.2.generation = g) ↔ 1 ≤ g ∧ g ≤ r.generation

theorem invariant_after (settings : Settings) (journal : Journal) (rules : List Rule) (qs : List Request) :
    Invariant (after settings journal rules qs) := by
  have h := coherent_after settings journal rules qs
  refine ⟨h.maps.symm, h.nodup, fun a ha => h.isGround ha, fun a ha s hs => ?_, h.justified, h.generations⟩
  obtain ⟨x, hx⟩ := h.facts a ha
  exact hx.exists_name hs

end Reasoner

end Entail
