import Entail.Proofs.Certificates
import Mathlib.Data.List.FinRange
import Mathlib.Data.List.Lex
import Mathlib.Data.List.Sort

/-!
# What a round adds, and in which order

* `Selection.Places` : all admissible lists of places in lexicographic order, which are those of `increasing` and
  `unrestricted` (`places_increasing`, `places_unrestricted`) and no others (`Places.unique`);
* `Reasoner.found` : what rules give, rule by rule, on the facts at such places; that is what a round finds
  (`exists_places`);
* `Reasoner.firsts` : the first application for each conclusion that is not known; `upTo` : a list up to the first item
  of a kind; a round admits the first applications up to the first contradiction (`admitted_eq_upTo`);
* `Reasoner.Adds` : a round holds the conclusions of some applications and does nothing else to facts, rules and the
  number of the round; so it is with what is found first (`ExactRound`), after all requests (`exactRound_after`).
-/

namespace Entail

open Coded (Application)

/-! ## Places -/

namespace Selection

variable {α β : Type} {n k : Nat}

theorem increasing_map (f : α → β) (k : Nat) (xs : List α) :
    increasing k (xs.map f) = (increasing k xs).map (List.map f) := by
  induction xs generalizing k with
  | nil => cases k <;> rfl
  | cons x xs ih =>
    cases k with
    | zero => rfl
    | succ k => simp only [List.map_cons, increasing, ih, List.map_append, List.map_map, Function.comp_def]

theorem unrestricted_map (f : α → β) (k : Nat) (xs : List α) :
    unrestricted k (xs.map f) = (unrestricted k xs).map (List.map f) := by
  induction k with
  | zero => rfl
  | succ k ih =>
    simp only [unrestricted, ih, List.flatMap_map, List.map_flatMap, List.map_map, Function.comp_def, List.map_cons]

theorem pairwise_increasing [LT α] {xs : List α} (h : xs.Pairwise (· < ·)) (k : Nat) :
    (increasing k xs).Pairwise (· < ·) := by
  induction xs generalizing k with
  | nil => cases k <;> simp [increasing]
  | cons x xs ih =>
    obtain ⟨hx, hxs⟩ := List.pairwise_cons.1 h
    cases k with
    | zero => simp [increasing]
    | succ k =>
      rw [increasing, List.pairwise_append, List.pairwise_map]
      refine ⟨(ih hxs k).imp fun hlt => .cons hlt, ih hxs (k + 1), fun is his js hjs => ?_⟩
      obtain ⟨is, -, rfl⟩ := List.mem_map.1 his
      -- what stands behind takes its first item from the rest, where all is greater
      obtain ⟨hsub, hlen⟩ := mem_increasing.1 hjs
      obtain _ | ⟨j, js⟩ := js
      · cases hlen
      · exact .rel (hx j (hsub.subset List.mem_cons_self))

theorem pairwise_unrestricted [LT α] {xs : List α} (h : xs.Pairwise (· < ·)) (k : Nat) :
    (unrestricted k xs).Pairwise (· < ·) := by
  induction k with
  | zero => simp [unrestricted]
  | succ k ih =>
    rw [unrestricted, List.pairwise_flatMap]
    refine ⟨fun x _ => ?_, h.imp fun hlt is his js hjs => ?_⟩
    · rw [List.pairwise_map]
      exact ih.imp fun hlt => .cons hlt
    · obtain ⟨is, -, rfl⟩ := List.mem_map.1 his
      obtain ⟨js, -, rfl⟩ := List.mem_map.1 hjs
      exact .rel hlt

/-- All lists of `k` of `n` places in lexicographic order; only those that increase, unless the choice is exhaustive. -/
structure Places (exhaustive : Bool) (n k : Nat) (places : List (List (Fin n))) : Prop where
  order : places.Pairwise (· < ·)
  mem_iff : ∀ is, is ∈ places ↔ is.length = k ∧ (exhaustive = false → is.Pairwise (· < ·))

theorem Places.unique {exhaustive : Bool} {places places' : List (List (Fin n))} (h : Places exhaustive n k places)
    (h' : Places exhaustive n k places') : places = places' :=
  h.order.eq_of_mem_iff h'.order fun is => (h.mem_iff is).trans (h'.mem_iff is).symm

theorem sublist_finRange_iff {is : List (Fin n)} : is.Sublist (List.finRange n) ↔ is.Pairwise (· < ·) := by
  constructor
  · intro h
    exact (List.pairwise_lt_finRange n).sublist h
  · intro h
    have hnodup : is.Nodup := h.imp fun hlt => Fin.ne_of_lt hlt
    refine List.sublist_of_subperm_of_pairwise ?_ h (List.pairwise_lt_finRange n)
    exact List.subperm_of_subset hnodup fun i _ => List.mem_finRange i

theorem places_increasing (n k : Nat) : Places false n k (increasing k (List.finRange n)) := by
  refine ⟨pairwise_increasing (List.pairwise_lt_finRange n) k, fun is => ?_⟩
  rw [mem_increasing, sublist_finRange_iff, and_comm]
  simp

theorem places_unrestricted (n k : Nat) : Places true n k (unrestricted k (List.finRange n)) := by
  refine ⟨pairwise_unrestricted (List.pairwise_lt_finRange n) k, fun is => ?_⟩
  rw [mem_unrestricted]
  simp

end Selection

/-! ## Lists up to an item -/

section
variable {α : Type} {q : α → Bool}

/-- The list up to the first item of a kind, which is the last then; all of it, if there is none. -/
def upTo (q : α → Bool) (xs : List α) : List α := xs.take (xs.findIdx q + 1)

theorem upTo_cons (q : α → Bool) (x : α) (xs : List α) : upTo q (x :: xs) = if q x then [x] else x :: upTo q xs := by
  unfold upTo
  cases hx : q x with
  | true => simp [List.findIdx_cons, hx]
  | false => simp [List.findIdx_cons, hx]

/-- An item of the kind can only be the last. -/
theorem exists_eq_of_mem_upTo {xs : List α} {y : α} (hy : y ∈ upTo q xs) (hq : q y) :
    ∃ earlier, upTo q xs = earlier ++ [y] ∧ ∀ z ∈ earlier, q z = false := by
  induction xs with
  | nil => cases hy
  | cons x xs ih =>
    rw [upTo_cons] at hy ⊢
    split_ifs at hy ⊢ with hx
    · obtain rfl := List.mem_singleton.1 hy
      exact ⟨[], rfl, by simp⟩
    · have hyx : y ≠ x := fun hyx => hx (hyx ▸ hq)
      obtain ⟨earlier, heq, hall⟩ := ih ((List.mem_cons.1 hy).resolve_left hyx)
      refine ⟨x :: earlier, by rw [heq, List.cons_append], fun z hz => ?_⟩
      rcases List.mem_cons.1 hz with rfl | hz
      · exact Bool.eq_false_iff.2 hx
      · exact hall z hz

end

namespace Reasoner

variable {r : Reasoner} {p : Application}

/-! ## What is found -/

/-- What rules give on the facts at some places, in the order of rules and places. -/
def found (r : Reasoner) (places : Nat → List (List (Fin r.atoms.length))) : List Application :=
  r.rules.flatMap fun c => (places c.premises.length).filterMap fun is => (c.apply (is.map r.atoms.get)).toOption

/-- A round tries rules on facts in the lexicographic order of their places. -/
theorem exists_places (r : Reasoner) :
    ∃ places, (∀ k, Selection.Places r.settings.exhaustiveMatching r.atoms.length k (places k)) ∧
      r.applications = r.found places := by
  obtain ⟨places, hplaces, hsel⟩ : ∃ places : Nat → List (List (Fin r.atoms.length)),
      (∀ k, Selection.Places r.settings.exhaustiveMatching r.atoms.length k (places k)) ∧
        ∀ k, r.selections k = (places k).map (List.map r.atoms.get) := by
    cases hx : r.settings.exhaustiveMatching with
    | true =>
      refine ⟨fun k => Selection.unrestricted k (List.finRange _), Selection.places_unrestricted _, fun k => ?_⟩
      rw [← Selection.unrestricted_map, List.map_get_finRange, selections, if_pos hx]
    | false =>
      refine ⟨fun k => Selection.increasing k (List.finRange _), Selection.places_increasing _, fun k => ?_⟩
      rw [← Selection.increasing_map, List.map_get_finRange, selections, if_neg (by simp [hx])]
  refine ⟨places, hplaces, ?_⟩
  rw [applications, attempts, found, List.filterMap_flatMap]
  refine List.flatMap_congr fun c _ => ?_
  rw [hsel, List.map_map, List.filterMap_map]
  rfl

/-- The applications whose conclusion is neither known nor that of an earlier one. -/
def firsts (known : List Coded.Atom) (ps : List Application) : List Application :=
  (ps.zipIdx.filter fun e => e.1.conclusion ∉ known ∧ e.1.conclusion ∉ (ps.take e.2).map (·.conclusion)).map (·.1)

theorem firsts_cons (known : List Coded.Atom) (p : Application) (ps : List Application) :
    firsts known (p :: ps) =
      if p.conclusion ∈ known then firsts known ps else p :: firsts (known ++ [p.conclusion]) ps := by
  -- behind `p` the conclusion of `p` counts as known
  have hrest : ((ps.zipIdx 1).filter fun e => e.1.conclusion ∉ known ∧
      e.1.conclusion ∉ ((p :: ps).take e.2).map (·.conclusion)).map (·.1) = firsts (known ++ [p.conclusion]) ps := by
    rw [firsts, ← Nat.zero_add 1, List.zipIdx_succ, List.filter_map, List.map_map]
    simp only [Function.comp_def, List.take_succ_cons, List.map_cons, List.mem_cons, List.mem_append,
      List.not_mem_nil, or_false, not_or, and_assoc]
  rw [firsts, List.zipIdx_cons, List.filter_cons]
  split_ifs with hp hmem hmem
  · simp [hmem] at hp
  · rw [List.map_cons, hrest]
  · rw [hrest]
    have hknown : ∀ a, a ∈ known ++ [p.conclusion] ↔ a ∈ known := by
      intro a
      simp only [List.mem_append, List.mem_singleton, or_iff_left_iff_imp]
      rintro rfl
      exact hmem
    simp only [firsts, hknown]
  · simp [hmem] at hp

theorem admitted_eq_upTo (bottom : Option Symbol) (known : List Coded.Atom) (ps : List Application) :
    admitted bottom known ps = upTo (fun p => bottom = some p.conclusion.predicate) (firsts known ps) := by
  induction ps generalizing known with
  | nil => rfl
  | cons p ps ih =>
    rw [admitted, firsts_cons]
    split_ifs with hmem hb
    · exact ih known
    · rw [upTo_cons, if_pos (by simpa using hb)]
    · rw [upTo_cons, if_neg (by simpa using hb), ih]

/-! ## The round -/

/-- Of what is found, the first application for each new conclusion, up to the first contradiction. -/
def additions (r : Reasoner) (ps : List Application) : List Application :=
  upTo (fun p => r.isBottom p.conclusion) (firsts r.atoms ps)

theorem additions_applications (r : Reasoner) : r.additions r.applications = r.fresh :=
  (admitted_eq_upTo r.bottom r.atoms r.applications).symm

/-- A contradiction that a round holds is the last. -/
theorem exists_eq_of_mem_fresh (hp : p ∈ r.fresh) (hb : r.isBottom p.conclusion) :
    ∃ earlier, r.fresh = earlier ++ [p] ∧ ∀ q ∈ earlier, r.isBottom q.conclusion = false := by
  rw [← additions_applications] at hp ⊢
  exact exists_eq_of_mem_upTo (q := fun p : Application => r.isBottom p.conclusion) hp hb

/-- A round holds the conclusions of applications to facts that it began with, each for the premises and the rule of its
application and with the number of the round, and leaves all else of facts and rules as it is. It counts them, or fails
with the last, if that is a contradiction. -/
structure Adds (r : Reasoner) (new : List Application) : Prop where
  known : r.round.2.known = r.known ++ new.map fun p => (p.conclusion, r.generation + 1)
  supports : r.round.2.supports =
    r.supports ++ new.map fun p => (p.conclusion, ⟨p.premises, some p.rule, r.generation + 1⟩)
  nodup : (r.atoms ++ new.map (·.conclusion)).Nodup
  premises : ∀ p ∈ new, ∀ f ∈ p.premises, f ∈ r.atoms ∧ f ∉ new.map (·.conclusion)
  frame : Frame r r.round.2
  generation : r.round.2.generation = if new = [] then r.generation else r.generation + 1
  counted : (∀ p ∈ new, r.isBottom p.conclusion = false) → r.round.1 = .ok new.length
  contradicted : ∀ p ∈ new, r.isBottom p.conclusion →
    (∃ earlier, new = earlier ++ [p] ∧ ∀ q ∈ earlier, r.isBottom q.conclusion = false) ∧
      r.round.2.contradiction = some p.conclusion ∧
      ∃ a d, p.conclusion.Reads r.symbols [] a ∧ r.settings.bottom? = some a.predicate ∧
        r.round.1 = .error (.contradiction a (some d))

theorem Coherent.known_stepped (h : Coherent r) :
    r.stepped.known = r.known ++ r.fresh.map fun p => (p.conclusion, r.generation + 1) := by
  rw [← h.stepped.maps, h.supports_stepped, List.map_append, h.maps, List.map_map]
  rfl

/-- The contradiction after a round that began without one is the first among what it held. -/
theorem Coherent.contradiction_stepped (h : Coherent r) (hc : r.contradiction = none) :
    r.stepped.contradiction = (r.fresh.map (·.conclusion)).find? r.isBottom := by
  have hbottom : r.stepped.isBottom = r.isBottom := by
    funext a
    rw [isBottom, r.stepped_frame.bottom, isBottom]
  rw [h.stepped.contradiction, h.atoms_stepped, hbottom, List.find?_append, ← h.contradiction, hc]
  rfl

theorem Coherent.contradiction_of_mem_fresh (h : Coherent r) (hc : r.contradiction = none) (hp : p ∈ r.fresh)
    (hb : r.isBottom p.conclusion) : r.stepped.contradiction = some p.conclusion := by
  obtain ⟨earlier, heq, hall⟩ := exists_eq_of_mem_fresh hp hb
  have hearlier : (earlier.map (·.conclusion)).find? r.isBottom = none := by
    rw [List.find?_eq_none]
    intro a ha
    obtain ⟨q, hq, rfl⟩ := List.mem_map.1 ha
    simp [hall q hq]
  rw [h.contradiction_stepped hc, heq, List.map_append, List.find?_append, hearlier]
  exact List.find?_cons_of_pos hb

/-- A round that holds a contradiction fails with it, as it is written. -/
theorem Coherent.round_fst_of_contradiction (h : Coherent r) (hc : r.contradiction = none) {a : Coded.Atom}
    (ha : r.stepped.contradiction = some a) : ∃ x d, a.Reads r.symbols [] x ∧ r.settings.bottom? = some x.predicate ∧
      r.round.1 = .error (.contradiction x (some d)) := by
  have hk := keeps_advance hc
  have hsymbols : r.advance.2.symbols = r.symbols := by
    rw [advance_eq hc]
    exact r.stepped_frame.symbols
  have hadvance : r.advance.2.contradiction = some a := hk.contradiction.trans ha
  obtain ⟨hnone, -⟩ | ⟨b, x, d, hb, -, hbottom, hx, herr, -⟩ := (h.stepped.keeps hk).checkConsistent_cases
  · rw [hadvance] at hnone
    cases hnone
  · obtain rfl : a = b := Option.some.inj (hadvance.symm.trans hb)
    rw [hk.bottom, r.stepped_frame.bottom] at hbottom
    rw [hsymbols] at hx
    refine ⟨x, d, hx, (h.bottom_iff hx).1 hbottom, ?_⟩
    rw [round_of_consistent hc, herr]
    rfl

theorem Coherent.adds_fresh (h : Coherent r) (hc : r.contradiction = none) : Adds r r.fresh := by
  have hround := round_of_consistent hc
  have hk : Keeps r.stepped r.round.2 := by
    rw [hround]
    exact keeps_advance hc
  have hs := r.stepped_frame
  have hsymbols : r.round.2.symbols = r.symbols := by
    rw [hround, advance_eq hc]
    exact hs.symbols
  refine { known := hk.known.trans h.known_stepped, supports := hk.supports.trans h.supports_stepped,
           nodup := h.nodup_fresh, premises := fun p hp f hf => ?_,
           frame := ⟨hk.settings.trans hs.settings, hsymbols, hk.rules.trans hs.rules, hk.bottom.trans hs.bottom⟩,
           generation := hk.generation, counted := fun hno => ?_, contradicted := fun p hp hb => ?_ }
  · have hold : f ∈ r.atoms := (h.application (mem_applications_of_fresh hp)).2.2.1 f hf
    exact ⟨hold, fun hnew => (List.nodup_append.1 h.nodup_fresh).2.2 f hold f hnew rfl⟩
  · have hnone : r.advance.2.contradiction = none := by
      rw [(keeps_advance hc).contradiction, h.contradiction_stepped hc, List.find?_eq_none]
      intro a ha
      obtain ⟨q, hq, rfl⟩ := List.mem_map.1 ha
      simp [hno q hq]
    rw [hround, checkConsistent_eq_ok.2 hnone, advance_fst hc]
    rfl
  · have hsome := h.contradiction_of_mem_fresh hc hp hb
    exact ⟨exists_eq_of_mem_fresh hp hb, hk.contradiction.trans hsome, h.round_fst_of_contradiction hc hsome⟩

/-- A round does exactly this: it tries the rules in order, each on the facts in the lexicographic order of their
places, and adds what is found first. -/
def ExactRound (r : Reasoner) : Prop :=
  ∃ places, (∀ k, Selection.Places r.settings.exhaustiveMatching r.atoms.length k (places k)) ∧
    r.Adds (r.additions (r.found places))

theorem exactRound_after (settings : Settings) (journal : Journal) (rules : List Rule) (qs : List Request)
    (h : (after settings journal rules qs).isConsistent) : ExactRound (after settings journal rules qs) := by
  obtain ⟨places, hplaces, hfound⟩ := exists_places (after settings journal rules qs)
  refine ⟨places, hplaces, ?_⟩
  rw [← hfound, additions_applications]
  exact (coherent_after settings journal rules qs).adds_fresh (Option.isNone_iff_eq_none.1 h)

/-- The round that joins two links: it adds where they lead. -/
theorem exactRound_joined :
    (after exhaustive .empty joined []).isConsistent ∧
    (after exhaustive .empty joined []).round.1 = .ok 1 ∧
    (after exhaustive .empty joined []).round.2.contains ⟨"reach", [.const "a", .const "c"]⟩ ∧
    ExactRound (after exhaustive .empty joined []) :=
  ⟨by rfl, by rfl, by rfl, exactRound_after exhaustive .empty joined [] (by rfl)⟩

end Reasoner

end Entail
