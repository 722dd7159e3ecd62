import Entail.Proofs.Generations

/-!
# The two ways of matching compared

* `Reasoner.withMatching` : a reasoner with the other way of matching; it is created alike (`create_withMatching`);
* `round_withMatching` : rules with at most one premise are tried on the same selections in both ways, so a round does
  the same;
* `Within n d e` : after `n` rounds of each, the facts of `d` are facts of `e`, of no later rounds there;
* `Within.stepped` : if `e` matches exhaustively, one more round keeps this, unless `e` meets a contradiction;
* `matching_after` : the two ways of matching after any number of rounds.
-/

namespace Entail.Reasoner

open Coded (Application)

variable {r s d e : Reasoner} {a : Coded.Atom} {n : Nat}

/-! ## The other way of matching -/

def withMatching (r : Reasoner) (b : Bool) : Reasoner :=
  { r with settings := { r.settings with exhaustiveMatching := b } }

/-- The reasoner that is created with rules and then goes through rounds. -/
def afterRounds (settings : Settings) (journal : Journal) (rules : List Rule) (n : Nat) : Reasoner :=
  after settings journal rules (List.replicate n .round)

theorem insert_withMatching (r : Reasoner) (b : Bool) (a : Coded.Atom) (sup : Support) :
    (r.withMatching b).insert a sup = ((r.insert a sup).1, (r.insert a sup).2.withMatching b) := by
  by_cases ha : a ∈ r.atoms
  · rw [insert_of_mem ha, insert_of_mem (r := r.withMatching b) ha]
  · rw [insert_of_not_mem ha, insert_of_not_mem (r := r.withMatching b) ha]
    rfl

theorem addFact_withMatching (r : Reasoner) (b : Bool) (x : Atom) :
    (r.withMatching b).addFact x = ((r.addFact x).1, (r.addFact x).2.withMatching b) := by
  cases hg : x.isGround with
  | false => simp only [addFact, Atom.encode_of_not_ground hg]
  | true =>
    obtain ⟨c, u, he⟩ := Atom.exists_encode hg r.symbols
    have he' : x.encode (r.withMatching b).symbols = .ok (c, u) := he
    have hins : ({ r.withMatching b with symbols := u } : Reasoner).insert c .seed = _ :=
      insert_withMatching { r with symbols := u } b c .seed
    simp only [addFact, he, he', hins]
    generalize ({ r with symbols := u } : Reasoner).insert c .seed = p
    obtain ⟨isNew, s⟩ := p
    have hcon : (s.withMatching b).isConsistent = s.isConsistent := rfl
    simp only [hcon]
    split_ifs <;> rfl

theorem addRule_withMatching (r : Reasoner) (b : Bool) (rule : Rule) :
    (r.withMatching b).addRule rule = ((r.addRule rule).1, (r.addRule rule).2.withMatching b) := by
  have henc : rule.encode (r.withMatching b).symbols = rule.encode r.symbols := rfl
  have hrules : (r.withMatching b).rules = r.rules := rfl
  simp only [addRule, henc, hrules]
  split_ifs
  · exact addFact_withMatching r b _
  all_goals rfl

theorem addRules_withMatching (r : Reasoner) (b : Bool) (rules : List Rule) :
    (r.withMatching b).addRules rules = ((r.addRules rules).1, (r.addRules rules).2.withMatching b) := by
  induction rules generalizing r with
  | nil => rfl
  | cons rule rules ih =>
    rw [addRules, addRules, addRule_withMatching]
    generalize r.addRule rule = l
    obtain ⟨out, s⟩ := l
    cases out with
    | ok _ => exact ih s
    | error f => rfl

theorem create_withMatching (settings : Settings) (b : Bool) (journal : Journal) (rules : List Rule) :
    (create { settings with exhaustiveMatching := b } journal rules).2 =
      (create settings journal rules).2.withMatching b := by
  have hempty : empty { settings with exhaustiveMatching := b } journal = (empty settings journal).withMatching b := by
    have hbottom : ({ settings with exhaustiveMatching := b } : Settings).bottom? = settings.bottom? := rfl
    simp only [empty, hbottom]
    cases settings.bottom? <;> rfl
  rw [create, create, hempty, addRules_withMatching]
  generalize (empty settings journal).addRules rules = l
  obtain ⟨out, s⟩ := l
  cases out <;> rfl

/-! ## Rules with one premise -/

theorem selections_withMatching (r : Reasoner) (b : Bool) {k : Nat} (hk : k ≤ 1) :
    (r.withMatching b).selections k = r.selections k := by
  have hsame : Selection.unrestricted k r.atoms = Selection.increasing k r.atoms := by
    obtain rfl | rfl : k = 0 ∨ k = 1 := by omega
    · cases r.atoms <;> rfl
    · induction r.atoms with
      | nil => rfl
      | cons x xs ih =>
        rw [Selection.increasing, ← ih]
        cases xs <;> rfl
  have hatoms : (r.withMatching b).atoms = r.atoms := rfl
  simp only [selections, hatoms, hsame, ite_self]

theorem commit_withMatching (g : Nat) (r : Reasoner) (b : Bool) (ps : List Application) :
    commit g (r.withMatching b) ps = ((commit g r ps).1, (commit g r ps).2.withMatching b) := by
  induction ps generalizing r with
  | nil => rfl
  | cons p ps ih =>
    rw [commit, commit, insert_withMatching]
    generalize r.insert p.conclusion ⟨p.premises, some p.rule, g⟩ = l
    obtain ⟨isNew, s⟩ := l
    have hcon : (s.withMatching b).isConsistent = s.isConsistent := rfl
    cases isNew with
    | false => exact ih s
    | true =>
      simp only [hcon, ih]
      split_ifs <;> rfl

theorem round_withMatching (r : Reasoner) (b : Bool) (h : ∀ c ∈ r.rules, c.premises.length ≤ 1) :
    (r.withMatching b).round = (r.round.1, r.round.2.withMatching b) := by
  have hattempts : (r.withMatching b).attempts = r.attempts :=
    List.flatMap_congr fun c hc => by rw [selections_withMatching r b (h c hc)]
  have happlications : (r.withMatching b).applications = r.applications := by
    rw [applications, hattempts, applications]
  have hcommit := commit_withMatching (r.generation + 1) r b r.applications
  have hadvance : (r.withMatching b).advance = (r.advance.1, r.advance.2.withMatching b) := by
    have hgen : (r.withMatching b).generation = r.generation := rfl
    simp only [advance, hattempts, happlications, hgen, hcommit]
    rfl
  have hcheck : ∀ s : Reasoner, (s.withMatching b).checkConsistent = s.checkConsistent := fun _ => rfl
  rw [round, round, hcheck, hadvance]
  cases r.checkConsistent with
  | error f => rfl
  | ok _ =>
    simp only [hcheck]
    cases r.advance.2.checkConsistent <;> rfl

theorem premises_addRule (h : ∀ c ∈ r.rules, c.premises.length ≤ 1) {rule : Rule} (hrule : rule.premises.length ≤ 1) :
    ∀ c ∈ (r.addRule rule).2.rules, c.premises.length ≤ 1 := by
  cases hax : rule.isAxiom with
  | true =>
    cases hg : rule.conclusion.isGround with
    | false =>
      rw [addRule_of_refused hax hg]
      exact h
    | true =>
      rw [addRule_of_stated hax hg, (addFact_same _ _).2.1]
      exact h
  | false =>
    by_cases hv : ∃ old ∈ r.rules, old.toClause = (rule.encode r.symbols).1.toClause
    · rw [addRule_of_variant hax hv]
      exact h
    · rw [addRule_of_new hax fun old hold heq => hv ⟨old, hold, heq⟩]
      intro c hc
      rcases List.mem_append.1 hc with hc | hc
      · exact h c hc
      · rwa [List.mem_singleton.1 hc, Rule.encode_premises]

theorem premises_create (settings : Settings) (journal : Journal) {rules : List Rule}
    (h : ∀ rule ∈ rules, rule.premises.length ≤ 1) :
    ∀ c ∈ (create settings journal rules).2.rules, c.premises.length ≤ 1 :=
  create_induction (P := fun r => ∀ c ∈ r.rules, c.premises.length ≤ 1) settings journal rules (by simp [empty])
    (fun _ _ hk hr => hk.rules ▸ hr) fun _ hr rule hrule => premises_addRule hr (h rule hrule)

theorem round_frame (r : Reasoner) : Frame r r.round.2 := by
  cases hc : r.checkConsistent with
  | error f =>
    rw [round_of_inconsistent hc]
    exact .refl r
  | ok _ =>
    have hnone := checkConsistent_eq_ok.1 hc
    have hs := r.stepped_frame
    rw [round_of_consistent hnone, advance_eq hnone]
    exact ⟨hs.settings, hs.symbols, hs.rules, hs.bottom⟩

theorem rounds_withMatching (b : Bool) (n : Nat) (h : ∀ c ∈ r.rules, c.premises.length ≤ 1) :
    (r.withMatching b).performAll (List.replicate n .round) =
      (r.performAll (List.replicate n .round)).withMatching b := by
  induction n generalizing r with
  | zero => rfl
  | succ n ih =>
    have hround : (r.withMatching b).perform .round = (r.perform .round).withMatching b :=
      congrArg Prod.snd (round_withMatching r b h)
    rw [List.replicate_succ, performAll, performAll, List.foldl_cons, List.foldl_cons, hround]
    exact ih (r.round_frame.rules ▸ h)

/-! ## Facts that come in no later -/

/-- After `n` rounds of each, the facts of the first are facts of the second, of no later rounds there. The second has
counted at most `n` rounds, and the first all of them unless it has stopped finding anything. -/
structure Within (n : Nat) (d e : Reasoner) : Prop where
  symbols : d.symbols = e.symbols
  rules : d.rules = e.rules
  bottom : d.bottom = e.bottom
  atoms : d.atoms ⊆ e.atoms
  generation_le : e.generation ≤ n
  productive : d.fresh = [] ∨ d.generation = n
  no_later : ∀ a s t, (a, s) ∈ d.supports → (a, t) ∈ e.supports → t.generation ≤ s.generation

theorem Within.contradiction_eq_none (h : Within n d e) (hd : Coherent d) (he : Coherent e)
    (hnone : e.contradiction = none) : d.contradiction = none := by
  rw [he.contradiction, List.find?_eq_none] at hnone
  rw [hd.contradiction, List.find?_eq_none]
  intro a ha hb
  refine hnone a (h.atoms ha) ?_
  rwa [isBottom_iff, ← h.bottom, ← isBottom_iff]

theorem Within.stepped (h : Within n d e) (hd : Coherent d) (he : Coherent e)
    (hx : e.settings.exhaustiveMatching = true) (hnone : e.stepped.contradiction = none) :
    Within (n + 1) d.stepped e.stepped := by
  have hdf := d.stepped_frame
  have hef := e.stepped_frame
  have hle : e.stepped.generation ≤ n + 1 := by
    have := h.generation_le
    simp only [Reasoner.stepped]
    split_ifs <;> omega
  have hatoms : e.atoms ⊆ e.stepped.atoms := he.atoms_stepped ▸ List.subset_append_left _ _
  refine ⟨?_, ?_, ?_, fun a ha => ?_, hle, ?_, fun a s t has hat => ?_⟩
  · rw [hdf.symbols, hef.symbols, h.symbols]
  · rw [hdf.rules, hef.rules, h.rules]
  · rw [hdf.bottom, hef.bottom, h.bottom]
  · rw [hd.atoms_stepped] at ha
    rcases List.mem_append.1 ha with ha | ha
    · exact hatoms (h.atoms ha)
    · -- what one finds from a selection, the other finds from the same facts
      obtain ⟨p, hp, rfl⟩ := List.mem_map.1 ha
      obtain ⟨hrule, -, hheld, hy, -⟩ := hd.application (mem_applications_of_fresh hp)
      have hsel := mem_selections_of_exhaustive hx (fun f hf => h.atoms (hheld f hf)) hy.length
      exact he.conclusion_mem_stepped hnone (he.application_of_yields (h.rules ▸ hrule) hsel hy)
  · by_cases hnil : d.fresh = []
    · exact .inl (by rw [stepped_of_fresh_eq_nil hnil, hnil])
    · refine .inr ?_
      rw [← h.productive.resolve_left hnil]
      exact if_neg hnil
  · have hold := hd.supports_stepped
    rw [hold] at has
    rcases List.mem_append.1 has with has | has
    · obtain ⟨t', ht'⟩ := he.exists_support (h.atoms (hd.mem_atoms has))
      have hsame : t = t' :=
        he.stepped.support_unique hat (he.supports_stepped ▸ List.mem_append_left _ ht')
      exact hsame ▸ h.no_later a s t' has ht'
    · obtain ⟨p, hp, hpe⟩ := List.mem_map.1 has
      rw [← (Prod.mk.inj hpe).2, h.productive.resolve_left (List.ne_nil_of_mem hp)]
      exact (he.stepped.generation_le hat).trans hle

theorem contradiction_of_round (h : r.round.2.contradiction = none) : r.contradiction = none := by
  cases hc : r.checkConsistent with
  | error f => rwa [round_of_inconsistent hc] at h
  | ok _ => exact checkConsistent_eq_ok.1 hc

theorem Within.round (h : Within n d e) (hd : Coherent d) (he : Coherent e)
    (hx : e.settings.exhaustiveMatching = true) (hnone : e.round.2.contradiction = none) :
    Within (n + 1) d.round.2 e.round.2 := by
  have hnone' := contradiction_of_round hnone
  have hdnone := h.contradiction_eq_none hd he hnone'
  rw [round_of_consistent hnone', advance_eq hnone'] at hnone ⊢
  rw [round_of_consistent hdnone, advance_eq hdnone]
  have hs := h.stepped hd he hx hnone
  exact ⟨hs.symbols, hs.rules, hs.bottom, hs.atoms, hs.generation_le, hs.productive, hs.no_later⟩

theorem performAll_replicate_succ (r : Reasoner) (n : Nat) :
    r.performAll (List.replicate (n + 1) .round) = (r.performAll (List.replicate n .round)).round.2 := by
  rw [List.replicate_succ', performAll, List.foldl_append]
  rfl

theorem Within.rounds (h : Within 0 d e) (hd : Coherent d) (he : Coherent e)
    (hx : e.settings.exhaustiveMatching = true) (n : Nat)
    (hnone : (e.performAll (List.replicate n .round)).contradiction = none) :
    Within n (d.performAll (List.replicate n .round)) (e.performAll (List.replicate n .round)) := by
  induction n with
  | zero => exact h
  | succ n ih =>
    rw [performAll_replicate_succ] at hnone
    rw [performAll_replicate_succ, performAll_replicate_succ]
    exact (ih (contradiction_of_round hnone)).round (hd.performAll _) (he.performAll _)
      (by rw [settings_performAll, hx]) hnone

theorem within_withMatching (r : Reasoner) (b : Bool) (h0 : r.generation = 0) (h : Coherent r) :
    Within 0 r (r.withMatching b) :=
  ⟨rfl, rfl, rfl, List.Subset.refl _, h0.le, .inr h0, fun _ _ _ hs ht => (h.support_unique hs ht) ▸ le_rfl⟩

/-! ## After any number of rounds -/

theorem Coherent.contradictionAtom_eq_none (h : Coherent r) :
    r.contradictionAtom = .ok none ↔ r.contradiction = none := by
  rw [contradictionAtom]
  cases hc : r.contradiction with
  | none => exact iff_of_true rfl rfl
  | some a =>
    obtain ⟨x, hx⟩ := h.facts a (List.mem_of_find?_eq_some (h.contradiction.symm.trans hc))
    rw [Option.mapM_some, nameFact_eq_ok hx]
    exact iff_of_false (by simp) (by simp)

/-- Two reasoners are created alike, one that matches increasingly and one that matches exhaustively, and go through `n`
rounds. Unless the exhaustive one has met a contradiction, the other has met none either, and its facts are facts of the
exhaustive one, of no later rounds there. If no rule has two premises, nothing but the way of matching tells the two
apart. -/
theorem matching_after (settings : Settings) (journal : Journal) (rules : List Rule) (n : Nat) :
    ((afterRounds { settings with exhaustiveMatching := true } journal rules n).contradictionAtom = .ok none →
      (afterRounds { settings with exhaustiveMatching := false } journal rules n).contradictionAtom = .ok none ∧
      ∀ x, (afterRounds { settings with exhaustiveMatching := false } journal rules n).contains x →
        (afterRounds { settings with exhaustiveMatching := true } journal rules n).contains x ∧
        ∃ g g', (afterRounds { settings with exhaustiveMatching := true } journal rules n).generationOf x = some g ∧
          (afterRounds { settings with exhaustiveMatching := false } journal rules n).generationOf x = some g' ∧
          g ≤ g') ∧
    ((∀ rule ∈ rules, rule.premises.length ≤ 1) →
      afterRounds { settings with exhaustiveMatching := true } journal rules n =
        (afterRounds { settings with exhaustiveMatching := false } journal rules n).withMatching true) := by
  have hcreate := create_withMatching { settings with exhaustiveMatching := false } true journal rules
  have hd := coherent_after { settings with exhaustiveMatching := false } journal rules (List.replicate n .round)
  have he := coherent_after { settings with exhaustiveMatching := true } journal rules (List.replicate n .round)
  refine ⟨fun hnone => ?_, fun hrules => ?_⟩
  · rw [afterRounds, he.contradictionAtom_eq_none] at hnone
    have hwithin : Within n (afterRounds { settings with exhaustiveMatching := false } journal rules n)
        (afterRounds { settings with exhaustiveMatching := true } journal rules n) := by
      have hcoherent := coherent_create { settings with exhaustiveMatching := false } journal rules
      have hstart := within_withMatching _ true (generation_create _ journal rules) hcoherent
      rw [← hcreate] at hstart
      refine hstart.rounds hcoherent (coherent_create _ journal rules) ?_ n hnone
      exact congrArg Settings.exhaustiveMatching (settings_after _ journal rules [])
    refine ⟨hd.contradictionAtom_eq_none.2 (hwithin.contradiction_eq_none hd he hnone), fun x hx => ?_⟩
    obtain ⟨a, s, has, hread, hgen, -⟩ := hd.exists_fact hx
    obtain ⟨t, hat⟩ := he.exists_support (hwithin.atoms (hd.mem_atoms has))
    have hread' : a.Reads (afterRounds { settings with exhaustiveMatching := true } journal rules n).symbols [] x :=
      hwithin.symbols ▸ hread
    exact ⟨he.contains_of_mem (he.mem_atoms hat) hread', _, _, he.generationOf_eq hat hread', hgen,
      hwithin.no_later a s t has hat⟩
  · have hpremises := premises_create { settings with exhaustiveMatching := false } journal hrules
    rw [afterRounds, after, afterRounds, after, ← rounds_withMatching true n hpremises, ← hcreate]

/-- Two links in an order in which increasing matching does not join them; and rules of one premise, of which two rounds
make a chain of three facts. -/
theorem matching_joined :
    (afterRounds { exhaustiveMatching := true } .empty joined 1).contradictionAtom = .ok none ∧
    (afterRounds { exhaustiveMatching := false } .empty joined 1).contains ⟨"link", [.const "a", .const "b"]⟩ ∧
    (afterRounds { exhaustiveMatching := true } .empty joined 1).contains ⟨"link", [.const "a", .const "b"]⟩ ∧
    (∀ rule ∈ chain, rule.premises.length ≤ 1) ∧
    (afterRounds { exhaustiveMatching := false } .empty chain 2).contains ⟨"c", []⟩ ∧
    afterRounds { exhaustiveMatching := true } .empty chain 2 =
      (afterRounds { exhaustiveMatching := false } .empty chain 2).withMatching true := by
  have hnone : (afterRounds { exhaustiveMatching := true } .empty joined 1).contradictionAtom = .ok none := by rfl
  have hlink : (afterRounds { exhaustiveMatching := false } .empty joined 1).contains
      ⟨"link", [.const "a", .const "b"]⟩ := by rfl
  have hone : ∀ rule ∈ chain, rule.premises.length ≤ 1 := by decide
  have hfirst := ((matching_after {} .empty joined 1).1 hnone).2 _ hlink
  exact ⟨hnone, hlink, hfirst.1, hone, by rfl, (matching_after {} .empty chain 2).2 hone⟩

end Entail.Reasoner
