import Entail.Proofs.Yaml.Positions
import Entail.Yaml.Lexeme
import Mathlib.Data.List.Basic

/-!
# Quoted scalars, piece by piece

* `foldedGap g` : what the spaces and line breaks between two runs of a quoted scalar read as (`quotedGap_eq`);
* `Quotes mark t o` : the text `t` in front of a closing mark reads as `o`, or cannot be read;
* `Quotes.nil`, `Quotes.piece`, `Quotes.gap`, `Quotes.fold` : such texts are put together of pieces and gaps;
* `Quotes.scalar` : reading them as a scalar.
-/

namespace Entail.Yaml

variable {c : Cursor} {g t u x y : List Char} {mark : Char}

/-! ## Gaps -/

/-- The characters of gaps that are written inside quotes. -/
def isRawGap (c : Char) : Bool := c = ' ' || (isBreak c && c ≠ '\r')

/-- What a gap inside quotes reads as: line breaks swallow the spaces around them. -/
def foldedGap (g : List Char) : List Char :=
  match g.filter isBreak with
  | [] => g
  | b :: bs => foldBreaks (readBreak b) (bs.map readBreak)

def StartsFull (u : List Char) : Prop := ∃ x v, u = x :: v ∧ isGap x = false

theorem lineBreak?_of_startsFull (h : StartsFull c.rest) : c.lineBreak? = none := by
  obtain ⟨a, v, hrest, ha⟩ := h
  exact Cursor.lineBreak?_of_not_isBreak (by rw [Cursor.peek_of_cons hrest]; exact isBreak_eq_false ha)

theorem isGap_of_isRawGap {c : Char} (h : isRawGap c = true) : isGap c = true := by
  rw [isRawGap, Bool.or_eq_true, Bool.and_eq_true, decide_eq_true_eq] at h
  rcases h with rfl | ⟨hb, -⟩
  · decide
  · exact isGap_of_isBreak hb

theorem isBreak_of_isRawGap {c : Char} (h : isRawGap c = true) (hc : c ≠ ' ') : isBreak c = true ∧ c ≠ '\r' := by
  simpa [isRawGap, hc] using h

theorem separates_of_isRawGap {c : Char} (h : isRawGap c = true) : separates (c :: t) = false := by
  have hgap := isGap_of_isRawGap h
  apply separates_eq_false
  · rintro rfl
    exact absurd hgap (by decide)
  · rintro rfl
    exact absurd hgap (by decide)

/-- Spaces, and behind them nothing or a line break. -/
theorem exists_blanks (hg : ∀ x ∈ g, isRawGap x = true) :
    ∃ n, g = spaces n ∨ ∃ b g', g = spaces n ++ b :: g' ∧ isBreak b = true ∧ b ≠ '\r' ∧ ∀ x ∈ g', isRawGap x = true := by
  induction g with
  | nil => exact ⟨0, .inl rfl⟩
  | cons a g ih =>
    obtain ⟨ha, hg⟩ := List.forall_mem_cons.1 hg
    by_cases hspace : a = ' '
    · obtain ⟨n, rfl | ⟨b, g', rfl, hb⟩⟩ := ih hg
      · exact ⟨n + 1, .inl (by rw [hspace, spaces_succ])⟩
      · exact ⟨n + 1, .inr ⟨b, g', by rw [hspace, spaces_succ, List.cons_append], hb⟩⟩
    · obtain ⟨hb, hr⟩ := isBreak_of_isRawGap ha hspace
      exact ⟨0, .inr ⟨a, g, rfl, hb, hr, hg⟩⟩

theorem filter_spaces (n : Nat) : (spaces n).filter isBreak = [] :=
  List.filter_eq_nil_iff.2 fun x hx => by rw [mem_spaces hx]; decide

theorem foldedGap_spaces (n : Nat) : foldedGap (spaces n) = spaces n := by rw [foldedGap, filter_spaces]

theorem foldedGap_breaks {b : Char} (n : Nat) (hb : isBreak b = true) :
    foldedGap (spaces n ++ b :: g) = foldBreaks (readBreak b) ((g.filter isBreak).map readBreak) := by
  rw [foldedGap, List.filter_append, filter_spaces, List.nil_append, List.filter_cons_of_pos hb]

theorem not_isBreak_spaces (n : Nat) : (spaces (n + 1)).getLast?.any isBreak = false := by
  rw [spaces, List.getLast?_replicate]
  rfl

/-- Blanks in front of a line break or of text. -/
theorem skip_blanks {n : Nat} (h : c.rest = spaces n ++ u) (hu : ∀ x ∈ u.head?, x ≠ ' ' ∧ x ≠ '\t') :
    (c.run fun x => x = ' ' || x = '\t') = spaces n := by
  refine Cursor.run_append h (fun x hx => by rw [mem_spaces hx]; rfl) fun x hx => ?_
  simpa using hu x hx

theorem not_blank_of_isGap_eq_false {a : Char} (h : isGap a = false) : a ≠ ' ' ∧ a ≠ '\t' :=
  ⟨ne_of_isGap_eq_false h rfl, ne_of_isGap_eq_false h rfl⟩

theorem not_blank_of_isBreak {a : Char} (h : isBreak a = true) : a ≠ ' ' ∧ a ≠ '\t' := by
  constructor
  · rintro rfl
    exact absurd h (by decide)
  · rintro rfl
    exact absurd h (by decide)

/-- The rest of a gap behind a line break. A line must not start like one that separates documents. -/
theorem quotedBreaks_eq (hg : ∀ x ∈ g, isRawGap x = true) (hu : StartsFull u) (h : c.rest = g ++ u) (n : Nat)
    (hn : g.length < n) :
    quotedBreaks n c = if g.getLast?.all isBreak && separates u then .error .quotation
      else .ok ((g.filter isBreak).map readBreak, c.skip g.length) := by
  induction n generalizing g c with
  | zero => omega
  | succ n ih =>
    obtain ⟨a, v, rfl, ha⟩ := hu
    have hblank := not_blank_of_isGap_eq_false ha
    rw [quotedBreaks, Cursor.atSeparator_eq, h]
    obtain ⟨k, rfl | ⟨b, g', rfl, hb, hr, hg'⟩⟩ := exists_blanks hg
    · -- no line break: the gap ends with the spaces
      have hskip : (c.skipWhile fun x => x = ' ' || x = '\t') = c.skip k := by
        rw [Cursor.skipWhile, skip_blanks h (by simpa using hblank), length_spaces]
      have hline : (c.skip k).lineBreak? = none :=
        lineBreak?_of_startsFull ⟨a, v, Cursor.rest_skip_spaces h, ha⟩
      rw [hskip, filter_spaces, length_spaces]
      simp only [hline]
      cases k with
      | zero => cases hs : separates (a :: v) <;> simp [spaces, hs]
      | succ k =>
        have hlast : (spaces (k + 1)).getLast?.all isBreak = false := by rw [spaces, List.getLast?_replicate]; rfl
        have hsep : separates (spaces (k + 1) ++ a :: v) = false := separates_of_isRawGap (by decide)
        rw [hlast, hsep]
        rfl
    · have hsep : separates (spaces k ++ b :: g' ++ a :: v) = false := by
        cases k with
        | zero => exact separates_of_isRawGap (hg b (by simp [spaces]))
        | succ k => exact separates_of_isRawGap (by decide)
      have hrest : c.rest = spaces k ++ (b :: g' ++ a :: v) := by rw [h, List.append_assoc]
      have hskip : (c.skipWhile fun x => x = ' ' || x = '\t') = c.skip k := by
        rw [Cursor.skipWhile, skip_blanks hrest (by simpa using not_blank_of_isBreak hb), length_spaces]
      have hpeek : (c.skip k).rest = b :: (g' ++ a :: v) := Cursor.rest_skip_spaces hrest
      have hlast : (spaces k ++ b :: g').getLast?.all isBreak = g'.getLast?.all isBreak := by
        cases g' with
        | nil => simp [hb]
        | cons d g' => rw [List.getLast?_append_cons, List.getLast?_cons_cons]
      rw [hsep, hskip, hlast]
      simp only [Bool.false_eq_true, if_false, Cursor.lineBreak?_of_isBreak hpeek hb hr]
      rw [ih hg' (Cursor.rest_next_of_cons hpeek) (by simp [length_spaces] at hn ⊢; omega), Cursor.next_skip,
        Cursor.skip_skip, List.filter_append, filter_spaces, List.nil_append, List.filter_cons_of_pos hb]
      have hlength : k + 1 + g'.length = (spaces k ++ b :: g').length := by simp [length_spaces]; omega
      rw [hlength]
      split
      · rfl
      · rfl

/-- A gap inside quotes. -/
theorem quotedGap_eq (hc : c.Fits) (hg : ∀ x ∈ g, isRawGap x = true) (hne : g ≠ []) (hu : StartsFull u)
    (h : c.rest = g ++ u) :
    quotedGap c = if g.getLast?.any isBreak && separates u then .error .quotation
      else .ok (foldedGap g, c.skip g.length) := by
  obtain ⟨a, v, rfl, ha⟩ := id hu
  obtain ⟨k, rfl | ⟨b, g', rfl, hb, hr, hg'⟩⟩ := exists_blanks hg
  · have hpeek : (c.skip k).rest = a :: v := Cursor.rest_skip_spaces h
    have hline : (c.skip k).lineBreak? = none := lineBreak?_of_startsFull ⟨a, v, hpeek, ha⟩
    have hend : (c.skip k).peek ≠ endMark := by
      rw [Cursor.peek_of_cons hpeek]
      exact ne_of_isGap_eq_false ha rfl
    have hlast : (spaces k).getLast?.any isBreak = false := by
      cases k with
      | zero => rfl
      | succ k => exact not_isBreak_spaces k
    rw [quotedGap, skip_blanks h (by simpa using not_blank_of_isGap_eq_false ha), length_spaces, hlast]
    simp only [hline, hend, if_false, Bool.false_and, Bool.false_eq_true, foldedGap_spaces]
  · have hrest : c.rest = spaces k ++ (b :: g' ++ a :: v) := by rw [h, List.append_assoc]
    have hpeek : (c.skip k).rest = b :: (g' ++ a :: v) := Cursor.rest_skip_spaces hrest
    have hend : (c.skip k).peek ≠ endMark := by
      rw [Cursor.peek_of_cons hpeek]
      rintro rfl
      exact absurd hb (by decide)
    have hlast : (spaces k ++ b :: g').getLast?.any isBreak = g'.getLast?.all isBreak := by
      cases g' with
      | nil => simp [hb]
      | cons d g' =>
        rw [List.getLast?_append_cons, List.getLast?_cons_cons, List.getLast?_eq_some_getLast (List.cons_ne_nil _ _)]
        rfl
    have hleft : g'.length < (c.skip k).next.left + 1 := by
      rw [(hc.skip k).next.left_eq, Cursor.rest_next_of_cons hpeek, List.length_append]
      omega
    have hlength : k + 1 + g'.length = (spaces k ++ b :: g').length := by simp [length_spaces]; omega
    rw [quotedGap, skip_blanks hrest (by simpa using not_blank_of_isBreak hb), length_spaces, hlast]
    simp only [hend, if_false, Cursor.lineBreak?_of_isBreak hpeek hb hr, foldedGap_breaks k hb]
    rw [quotedBreaks_eq hg' hu (Cursor.rest_next_of_cons hpeek) _ hleft, Cursor.next_skip, Cursor.skip_skip, hlength]
    split
    · rfl
    · rfl

/-! ## Runs and gaps -/

/-- What is read behind a run: the closing mark, or a gap and further runs. -/
def quotedRest (mark : Char) (fuel : Nat) (c : Cursor) : Except Fault (List Char × Cursor) :=
  if c.peek = mark then .ok ([], c.next)
  else do
    let (gap, c) ← quotedGap c
    let r ← quotedRuns mark fuel c
    return (gap ++ r.1, r.2)

theorem quotedRuns_succ (mark : Char) (fuel : Nat) (c : Cursor) :
    quotedRuns mark (fuel + 1) c = (do
      let (run, c) ← quotedRun mark (c.left + 1) c
      let r ← quotedRest mark fuel c
      return (run ++ r.1, r.2)) := by
  rw [quotedRuns]
  cases quotedRun mark (c.left + 1) c with
  | error f => rfl
  | ok r =>
    obtain ⟨run, c'⟩ := r
    simp only [quotedRest, bind, Except.bind]
    split
    · simp [pure, Except.pure]
    · cases quotedGap c' with
      | error f => rfl
      | ok g =>
        obtain ⟨gap, c''⟩ := g
        simp only
        cases quotedRuns mark fuel c'' with
        | error f => rfl
        | ok r => simp [pure, Except.pure, List.append_assoc]

/-- A reading gives a text and ends at a cursor, or fails. -/
def Gives (o : Option (List Char)) (e : Cursor) (x : Except Fault (List Char × Cursor)) : Prop :=
  match o with
  | some s => x = .ok (s, e)
  | none => ∃ f, x = .error f

theorem Gives.map {o : Option (List Char)} {e : Cursor} {x : Except Fault (List Char × Cursor)} (h : Gives o e x)
    (y : List Char) : Gives (o.map (y ++ ·)) e (do let r ← x; return (y ++ r.1, r.2)) := by
  cases o with
  | none =>
    obtain ⟨f, rfl⟩ := h
    exact ⟨f, rfl⟩
  | some s =>
    obtain rfl : x = .ok (s, e) := h
    rfl

/-- The text in front of a closing mark that no second one follows is a run and what is read behind it. -/
structure QuotesAt (mark : Char) (t : List Char) (o : Option (List Char)) (c : Cursor) (word : List Char) (k : Nat)
    (o' : Option (List Char)) : Prop where
  run : ∀ n, t.length < n → quotedRun mark n c = .ok (word, c.skip k)
  rest : ∀ fuel, t.length ≤ fuel → Gives o' (c.skip (t.length + 1)) (quotedRest mark fuel (c.skip k))
  all : o = o'.map (word ++ ·)

def Quotes (mark : Char) (t : List Char) (o : Option (List Char)) : Prop :=
  ∀ c tail, c.Fits → c.rest = t ++ mark :: tail → tail.head? ≠ some mark → ∃ word k o', QuotesAt mark t o c word k o'

def IsQuote (mark : Char) : Prop := mark = '"' ∨ mark = '\''

theorem IsQuote.isGap (h : IsQuote mark) : isGap mark = false := by
  rcases h with rfl | rfl
  · decide
  · decide

namespace Quotes

variable {o : Option (List Char)}

theorem runs (h : Quotes mark t o) {tail : List Char} (hc : c.Fits) (hrest : c.rest = t ++ mark :: tail)
    (htail : tail.head? ≠ some mark) (fuel : Nat) (hfuel : t.length < fuel) :
    Gives o (c.skip (t.length + 1)) (quotedRuns mark fuel c) := by
  obtain ⟨run, k, o', hat⟩ := h c tail hc hrest htail
  obtain ⟨fuel, rfl⟩ : ∃ n, fuel = n + 1 := ⟨fuel - 1, by omega⟩
  have hrun : quotedRun mark (c.left + 1) c = .ok (run, c.skip k) := by
    apply hat.run
    rw [hc.left_eq, hrest, List.length_append]
    omega
  rw [quotedRuns_succ, hrun, hat.all]
  exact (hat.rest fuel (by omega)).map run

/-- Nothing stands in front of the closing mark. -/
theorem nil (hmark : IsQuote mark) : Quotes mark [] (some []) := by
  intro c tail hc hrest htail
  have hpeek : c.peek = mark := Cursor.peek_of_cons hrest
  have hahead : c.ahead 1 ≠ mark := by
    rw [Cursor.ahead, hrest]
    cases tail with
    | nil => rcases hmark with rfl | rfl <;> decide
    | cons a tail => exact fun h => htail (congrArg some h)
  refine ⟨[], 0, some [], fun n hn => ?_, fun fuel _ => ?_, rfl⟩
  · obtain ⟨n, rfl⟩ : ∃ m, n = m + 1 := ⟨n - 1, by simp at hn; omega⟩
    rw [quotedRun]
    rcases hmark with rfl | rfl
    · simp [hpeek, isQuotedText]
      rfl
    · simp [hpeek, hahead, isQuotedText]
      rfl
  · change quotedRest mark fuel c = _
    rw [quotedRest, if_pos hpeek]
    rfl

/-- A piece of a run in front of a text that can be read. -/
theorem piece (hx : x ≠ [])
    (hpiece : ∀ (c : Cursor) (tail : List Char), c.Fits → c.rest = x ++ (t ++ mark :: tail) →
      ∀ n, quotedRun mark (n + 1) c = (quotedRun mark n (c.skip x.length)).map fun r => (y ++ r.1, r.2))
    (h : Quotes mark t o) : Quotes mark (x ++ t) (o.map (y ++ ·)) := by
  intro c tail hc hrest htail
  rw [List.append_assoc] at hrest
  obtain ⟨run, k, o', hat⟩ := h (c.skip x.length) tail (hc.skip _) (Cursor.rest_skip_append hrest) htail
  have hlength : 0 < x.length := List.length_pos_of_ne_nil hx
  refine ⟨y ++ run, x.length + k, o', fun n hn => ?_, fun fuel hfuel => ?_, ?_⟩
  · rw [List.length_append] at hn
    obtain ⟨n, rfl⟩ : ∃ m, n = m + 1 := ⟨n - 1, by omega⟩
    rw [hpiece c tail hc hrest n, hat.run n (by omega), Cursor.skip_skip]
    rfl
  · rw [List.length_append] at hfuel
    have hgives := hat.rest fuel (by omega)
    rwa [Cursor.skip_skip, Cursor.skip_skip, ← Nat.add_assoc, ← List.length_append] at hgives
  · rw [hat.all, Option.map_map]
    congr 1
    funext s
    exact (List.append_assoc y run s).symm

/-- What follows a gap must start a run, or close the scalar. -/
theorem startsFull (hmark : IsQuote mark) (ht : ∀ a ∈ t.head?, isGap a = false) (tail : List Char) :
    StartsFull (t ++ mark :: tail) := by
  cases t with
  | nil => exact ⟨mark, tail, rfl, hmark.isGap⟩
  | cons a t => exact ⟨a, t ++ mark :: tail, rfl, ht a rfl⟩

/-- Whether a text starts like a separator does not depend on what follows the closing mark. -/
theorem separates_append (hmark : IsQuote mark) (t tail : List Char) :
    separates (t ++ mark :: tail) = separates (t ++ [mark]) := by
  match t with
  | [] | [_] | [_, _] => rcases hmark with rfl | rfl <;> simp [separates]
  | [_, _, _] | _ :: _ :: _ :: _ :: _ => simp [separates]

/-- A gap, or none, in front of a text that goes on with a run. -/
theorem gap (hmark : IsQuote mark) (hg : ∀ a ∈ g, isRawGap a = true) (ht : ∀ a ∈ t.head?, isGap a = false)
    (h : Quotes mark t o) :
    Quotes mark (g ++ t)
      (if g.getLast?.any isBreak && separates (t ++ [mark]) then none else o.map (foldedGap g ++ ·)) := by
  rcases g with - | ⟨a, g'⟩
  · change Quotes mark t (o.map ([] ++ ·))
    cases o <;> exact h
  intro c tail hc hrest htail
  rw [List.append_assoc] at hrest
  have hgap : isGap a = true := isGap_of_isRawGap (hg a (List.mem_cons_self ..))
  have hpeek : c.peek = a := Cursor.peek_of_cons hrest
  have hfull := startsFull hmark ht tail
  have hquoted : ∀ q, isGap q = false → a ≠ q := fun q hq heq => by rw [heq, hq] at hgap; cases hgap
  have hrun : ∀ n, quotedRun mark (n + 1) c = .ok ([], c) := by
    intro n
    have h1 : a ≠ '\'' := hquoted _ (by decide)
    have h2 : a ≠ '"' := hquoted _ (by decide)
    have h3 : a ≠ '\\' := hquoted _ (by decide)
    rw [quotedRun]
    simp [hpeek, isQuotedText, hgap, h1, h2, h3]
  have hmarked : a ≠ mark := hquoted _ hmark.isGap
  have hread : ∀ fuel, (a :: g' ++ t).length ≤ fuel →
      Gives (if (a :: g').getLast?.any isBreak && separates (t ++ [mark]) then none
        else o.map (foldedGap (a :: g') ++ ·)) (c.skip ((a :: g' ++ t).length + 1)) (quotedRest mark fuel c) := by
    intro fuel hfuel
    rw [quotedRest, hpeek, if_neg hmarked, quotedGap_eq hc hg (List.cons_ne_nil _ _) hfull hrest,
      separates_append hmark t tail]
    cases (a :: g').getLast?.any isBreak && separates (t ++ [mark]) with
    | true => exact ⟨_, rfl⟩
    | false =>
      rw [List.length_append, List.length_cons] at hfuel
      have hruns := h.runs (hc.skip (a :: g').length) (Cursor.rest_skip_append hrest) htail fuel (by omega)
      rw [Cursor.skip_skip, ← Nat.add_assoc, ← List.length_append] at hruns
      exact hruns.map (foldedGap (a :: g'))
  refine ⟨[], 0, _, fun n hn => ?_, hread, ?_⟩
  · obtain ⟨n, rfl⟩ : ∃ m, n = m + 1 := ⟨n - 1, by omega⟩
    exact hrun n
  · simp

/-! ## Pieces of runs -/

theorem toNat_lt_codePointBound (a : Char) : a.toNat < codePointBound := by
  have hvalid : a.toNat.isValidChar := a.valid
  unfold Nat.isValidChar at hvalid
  unfold codePointBound
  omega

/-- A character that stands for itself. -/
theorem text {a : Char} (ha : isQuotedText a = true) (h : Quotes mark t o) : Quotes mark (a :: t) (o.map (a :: ·)) := by
  refine piece (x := [a]) (y := [a]) (List.cons_ne_nil _ _) (fun c tail _ hrest n => ?_) h
  rw [quotedRun]
  simp only [Cursor.peek_of_cons hrest, ha, if_true]
  rfl

/-- An apostrophe between apostrophes is written twice. -/
theorem doubled (h : Quotes '\'' t o) : Quotes '\'' ('\'' :: '\'' :: t) (o.map ('\'' :: ·)) := by
  refine piece (x := ['\'', '\'']) (y := ['\'']) (List.cons_ne_nil _ _) (fun c tail _ hrest n => ?_) h
  have hahead : c.ahead 1 = '\'' := by rw [Cursor.ahead, hrest]; rfl
  rw [quotedRun]
  simp [Cursor.peek_of_cons hrest, hahead, isQuotedText]

/-- A mark of the other quotes, or a backslash between apostrophes. -/
theorem other {a : Char} (ha : (mark = '"' ∧ a = '\'') ∨ (mark = '\'' ∧ (a = '"' ∨ a = '\\'))) (h : Quotes mark t o) :
    Quotes mark (a :: t) (o.map (a :: ·)) := by
  refine piece (x := [a]) (y := [a]) (List.cons_ne_nil _ _) (fun c tail _ hrest n => ?_) h
  rw [quotedRun]
  rcases ha with ⟨rfl, rfl⟩ | ⟨rfl, rfl | rfl⟩ <;> simp [Cursor.peek_of_cons hrest, isQuotedText, Cursor.skip_one]

/-- What is written behind a backslash. -/
theorem escaped {y : List Char} {a : Char} (hx : ∀ (c : Cursor) (tail : List Char), c.Fits →
      c.rest = a :: x ++ (t ++ '"' :: tail) → escape c = .ok (y, c.skip (x.length + 1)))
    (h : Quotes '"' t o) : Quotes '"' ('\\' :: a :: x ++ t) (o.map (y ++ ·)) := by
  refine piece (x := '\\' :: a :: x) (List.cons_ne_nil _ _) (fun c tail hc hrest n => ?_) h
  have hescape := hx c.next tail hc.next (Cursor.rest_next_of_cons hrest)
  have hrun : quotedRun '"' (n + 1) c = (do
      let (text, c) ← escape c.next
      let r ← quotedRun '"' n c
      return (text ++ r.1, r.2)) := by
    rw [quotedRun]
    simp [Cursor.peek_of_cons hrest, isQuotedText]
  rw [hrun, hescape]
  rfl

/-- A character that is written as a letter. -/
theorem letter {a b : Char} (ha : escapedChar? a = some b) (h : Quotes '"' t o) :
    Quotes '"' ('\\' :: a :: t) (o.map (b :: ·)) := by
  refine escaped (x := []) (y := [b]) (fun c tail _ hrest => ?_) h
  rw [escape, Cursor.peek_of_cons hrest, ha]
  rfl

/-- A character that is written as its code. -/
theorem code {a b : Char} {ds : List Char} (ha : codeWidth? a = some ds.length) (ha' : escapedChar? a = none)
    (hds : Text.ofDigits? 16 ds = some b.toNat) (h : Quotes '"' t o) :
    Quotes '"' ('\\' :: a :: ds ++ t) (o.map (b :: ·)) := by
  refine escaped (y := [b]) (fun c tail _ hrest => ?_) h
  have hnext : c.next.rest = ds ++ (t ++ '"' :: tail) := Cursor.rest_next_of_cons hrest
  have hdigits : c.next.rest.take ds.length = ds := by rw [hnext, List.take_left]
  have hbound : ¬ codePointBound ≤ b.toNat := Nat.not_le.2 (toNat_lt_codePointBound b)
  have hvalid : b.toNat.isValidChar := b.valid
  rw [escape, Cursor.peek_of_cons hrest, ha, ha']
  simp only [hdigits, hds, Nat.lt_irrefl, if_false, hbound, hvalid, if_true, Char.ofNat_toNat]
  rfl

/-- A line that is broken behind a backslash reads as if it were not. -/
theorem fold (n : Nat) (ht : ∀ a ∈ t.head?, isGap a = false) (h : Quotes '"' t o) :
    Quotes '"' ('\\' :: '\n' :: spaces (n + 1) ++ t) o := by
  have hfold := escaped (x := spaces (n + 1)) (y := []) (a := '\n') (fun c tail hc hrest => ?_) h
  · simpa using hfold
  · have hnext : c.next.rest = spaces (n + 1) ++ (t ++ '"' :: tail) := Cursor.rest_next_of_cons hrest
    have hleft : (spaces (n + 1)).length < c.next.left + 1 := by
      rw [hc.next.left_eq, hnext, List.length_append]
      omega
    have hraw : ∀ a ∈ spaces (n + 1), isRawGap a = true := fun a ha => by rw [mem_spaces ha]; decide
    have hlast : (spaces (n + 1)).getLast?.all isBreak = false := by rw [spaces, List.getLast?_replicate]; rfl
    have hbreak := Cursor.lineBreak?_of_isBreak hrest (by decide) (by decide)
    rw [escape, Cursor.peek_of_cons hrest, hbreak]
    change quotedBreaks (c.next.left + 1) c.next = _
    rw [quotedBreaks_eq hraw (startsFull (.inl rfl) ht tail) hnext _ hleft, hlast, filter_spaces]
    rfl

/-! ## Scalars -/

/-- A text between marks is read as a scalar. -/
theorem scalar (h : Quotes mark t o) {tail : List Char} (hc : c.Fits) (hrest : c.rest = mark :: t ++ mark :: tail)
    (htail : tail.head? ≠ some mark) : Gives o (c.skip (t.length + 2)) (quotedScalar c) := by
  have hnext : c.next.rest = t ++ mark :: tail := Cursor.rest_next_of_cons hrest
  rw [quotedScalar, Cursor.peek_of_cons hrest]
  refine h.runs hc.next hnext htail _ ?_
  rw [hc.left_eq, hrest, List.length_append, List.length_cons]
  omega

end Quotes

end Entail.Yaml
