import Entail.Yaml.Style

/-!
# Moving through a text

* `Cursor.Fits c` : the cursor counts what lies before it and what is left;
* `Cursor.rest_skip`, `Cursor.line_skip`, `Cursor.column_skip`, `Cursor.column_skip_line` : where a cursor stands
  behind a piece of the text;
* `readBreak`, `Cursor.lineBreak?_of_isBreak` : what a line break reads as;
* `separates t`, `StartsToken u` : whether a text starts like a line that separates documents, or with a token.
-/

namespace Entail.Yaml

/-! ## Characters -/

theorem isGap_of_isBreak {c : Char} (h : isBreak c = true) : isGap c = true := by
  simp [isGap, isSpaceOrEnd, isBreakOrEnd, h]

theorem isBreak_eq_false {c : Char} (h : isGap c = false) : isBreak c = false := by
  cases hb : isBreak c with
  | false => rfl
  | true => rw [isGap_of_isBreak hb] at h; exact h

theorem ne_of_isGap_eq_false {c x : Char} (h : isGap c = false) (hx : isGap x = true) : c ≠ x := by
  rintro rfl
  rw [h] at hx
  cases hx

def readBreak (c : Char) : Char := if c = '\u0085' then '\n' else c

def separates (t : List Char) : Bool :=
  (t.take 3 = ['-', '-', '-'] && isGap (t.getD 3 endMark)) || (t.take 3 = ['.', '.', '.'] && isGap (t.getD 3 endMark))

theorem separates_eq_false {c : Char} {t : List Char} (h : c ≠ '-') (h' : c ≠ '.') : separates (c :: t) = false := by
  simp [separates, h, h']

/-- A text that goes on with a token, or is at its end. -/
def StartsToken (u : List Char) : Prop := ∀ a ∈ u.head?, a ≠ ' ' ∧ a ≠ '#' ∧ isBreak a = false ∧ a ≠ '\ufeff'

theorem startsToken_nil : StartsToken [] := nofun

theorem startsToken_cons {a : Char} {u : List Char} (h : a ≠ ' ' ∧ a ≠ '#' ∧ isBreak a = false ∧ a ≠ '\ufeff') :
    StartsToken (a :: u) := by
  intro b hb
  obtain rfl : a = b := by simpa using hb
  exact h

theorem mem_spaces {n : Nat} {c : Char} (h : c ∈ spaces n) : c = ' ' := List.eq_of_mem_replicate h

theorem length_spaces (n : Nat) : (spaces n).length = n := List.length_replicate

theorem spaces_succ (n : Nat) : spaces (n + 1) = ' ' :: spaces n := rfl

namespace Cursor

variable {c : Cursor} {x : Char} {t u : List Char}

/-! ## Counting -/

/-- What lies before the cursor and what is left of the text make up its size. -/
def Fits (c : Cursor) : Prop := c.index + c.rest.length = c.size

theorem Fits.left_eq (h : c.Fits) : c.left = c.rest.length := by
  unfold Fits at h
  unfold left
  omega

/-- Moving on takes one character off the text and counts it. -/
theorem next_of_cons (h : c.rest = x :: t) : ∃ line column, c.next = ⟨t, c.index + 1, line, column, c.size⟩ := by
  unfold next
  rw [h]
  simp only
  split
  · exact ⟨_, _, rfl⟩
  · split
    · exact ⟨_, _, rfl⟩
    · exact ⟨_, _, rfl⟩

theorem next_of_nil (h : c.rest = []) : c.next = c := by
  unfold next
  rw [h]

theorem rest_next (c : Cursor) : c.next.rest = c.rest.tail := by
  cases h : c.rest with
  | nil => rw [next_of_nil h, h, List.tail_nil]
  | cons x t =>
    obtain ⟨line, column, hnext⟩ := next_of_cons h
    rw [hnext, List.tail_cons]

theorem rest_next_of_cons (h : c.rest = x :: t) : c.next.rest = t := by rw [rest_next, h, List.tail_cons]

theorem index_next (h : c.rest = x :: t) : c.next.index = c.index + 1 := by
  obtain ⟨line, column, hnext⟩ := next_of_cons h
  rw [hnext]

theorem Fits.next (h : c.Fits) : c.next.Fits := by
  cases hr : c.rest with
  | nil => rwa [next_of_nil hr]
  | cons x t =>
    obtain ⟨line, column, hnext⟩ := next_of_cons hr
    unfold Fits at h ⊢
    rw [hnext]
    rw [hr, List.length_cons] at h
    simp only
    omega

theorem skip_succ (n : Nat) (c : Cursor) : c.skip (n + 1) = c.next.skip n := rfl

theorem skip_zero (c : Cursor) : c.skip 0 = c := rfl

theorem skip_one (c : Cursor) : c.skip 1 = c.next := rfl

theorem skip_skip (m n : Nat) (c : Cursor) : (c.skip m).skip n = c.skip (m + n) := by
  induction m generalizing c with
  | zero => rw [Nat.zero_add]; rfl
  | succ m ih => rw [Nat.add_right_comm, skip_succ, skip_succ, ih]

theorem next_skip (n : Nat) (c : Cursor) : (c.skip n).next = c.skip (n + 1) := by rw [← skip_one, skip_skip]

theorem rest_skip (n : Nat) (c : Cursor) : (c.skip n).rest = c.rest.drop n := by
  induction n generalizing c with
  | zero => rfl
  | succ n ih => rw [skip_succ, ih, rest_next, List.drop_tail]

theorem rest_skip_append (h : c.rest = t ++ u) : (c.skip t.length).rest = u := by rw [rest_skip, h, List.drop_left]

theorem rest_skip_spaces {n : Nat} (h : c.rest = spaces n ++ u) : (c.skip n).rest = u := by
  have hrest := rest_skip_append h
  rwa [length_spaces] at hrest

theorem Fits.skip (n : Nat) (h : c.Fits) : (c.skip n).Fits := by
  induction n generalizing c with
  | zero => exact h
  | succ n ih => exact ih h.next

theorem index_skip (h : c.rest = t ++ u) : (c.skip t.length).index = c.index + t.length := by
  induction t generalizing c with
  | nil => rfl
  | cons x t ih =>
    rw [List.length_cons, skip_succ, ih (rest_next_of_cons h), index_next h]
    omega

/-! ## What comes next -/

theorem peek_of_cons (h : c.rest = x :: t) : c.peek = x := by rw [peek, ahead, h]; rfl

theorem peek_of_nil (h : c.rest = []) : c.peek = endMark := by rw [peek, ahead, h]; rfl

theorem peek_eq (c : Cursor) : c.peek = c.rest.headD endMark := by
  cases h : c.rest with
  | nil => exact peek_of_nil h
  | cons x t => exact peek_of_cons h

/-- A run of characters of a class ends before a character that is not of the class. -/
theorem run_append {p : Char → Bool} (h : c.rest = t ++ u) (ht : ∀ x ∈ t, p x = true)
    (hu : ∀ x ∈ u.head?, p x = false) : c.run p = t := by
  rw [run, h, List.takeWhile_append_of_pos ht]
  cases u with
  | nil => simp
  | cons x u => rw [List.takeWhile_cons_of_neg (by simpa using hu x rfl), List.append_nil]

theorem skipWhile_append {p : Char → Bool} (h : c.rest = t ++ u) (ht : ∀ x ∈ t, p x = true)
    (hu : ∀ x ∈ u.head?, p x = false) : c.skipWhile p = c.skip t.length := by
  rw [skipWhile, run_append h ht hu]

theorem skipWhile_of_peek {p : Char → Bool} (h : p c.peek = false) : c.skipWhile p = c := by
  have hrun : c.run p = [] := by
    unfold run
    cases hr : c.rest with
    | nil => rfl
    | cons x t =>
      rw [peek_of_cons hr] at h
      exact List.takeWhile_cons_of_neg (by simpa using h)
  rw [skipWhile, hrun]
  rfl

theorem atSeparator_eq (c : Cursor) : c.atSeparator = separates c.rest := rfl

/-! ## Line breaks -/

theorem lineBreak?_of_isBreak (h : c.rest = x :: t) (hx : isBreak x = true) (hr : x ≠ '\r') :
    c.lineBreak? = some (readBreak x, c.next) := by
  have hpeek := peek_of_cons h
  simp only [isBreak, Bool.or_eq_true, decide_eq_true_eq] at hx
  unfold lineBreak? readBreak
  rw [hpeek]
  rcases hx with (((rfl | rfl) | rfl) | rfl) | rfl
  · simp
  · exact absurd rfl hr
  · simp
  · simp
  · simp

theorem lineBreak?_of_not_isBreak (h : isBreak c.peek = false) : c.lineBreak? = none := by
  simp only [isBreak, Bool.or_eq_false_iff, decide_eq_false_iff_not] at h
  obtain ⟨⟨⟨⟨h1, h2⟩, h3⟩, h4⟩, h5⟩ := h
  simp [lineBreak?, h1, h2, h3, h4, h5]

/-! ## Lines and columns -/

theorem next_of_not_isBreak (h : c.rest = x :: t) (hx : isBreak x = false) :
    c.next.line = c.line ∧ (x ≠ '\ufeff' → c.next.column = c.column + 1) := by
  unfold next
  rw [h]
  simp only [hx, Bool.false_and, Bool.false_eq_true, if_false]
  split
  next hb => exact ⟨rfl, fun hx => absurd hb hx⟩
  · exact ⟨rfl, fun _ => rfl⟩

theorem line_skip (h : c.rest = t ++ u) (ht : ∀ x ∈ t, isBreak x = false) : (c.skip t.length).line = c.line := by
  induction t generalizing c with
  | nil => rfl
  | cons x t ih =>
    obtain ⟨hx, ht⟩ := List.forall_mem_cons.1 ht
    rw [List.length_cons, skip_succ, ih (rest_next_of_cons h) ht, (next_of_not_isBreak h hx).1]

theorem column_skip (h : c.rest = t ++ u) (ht : ∀ x ∈ t, isBreak x = false ∧ x ≠ '\ufeff') :
    (c.skip t.length).column = c.column + t.length := by
  induction t generalizing c with
  | nil => rfl
  | cons x t ih =>
    obtain ⟨hx, ht⟩ := List.forall_mem_cons.1 ht
    rw [List.length_cons, skip_succ, ih (rest_next_of_cons h) ht, (next_of_not_isBreak h hx.1).2 hx.2]
    omega

/-- Without line breaks the column does not decrease. -/
theorem column_le_skip (h : c.rest = t ++ u) (ht : ∀ x ∈ t, isBreak x = false) :
    c.column ≤ (c.skip t.length).column := by
  induction t generalizing c with
  | nil => exact Nat.le_refl _
  | cons x t ih =>
    obtain ⟨hx, ht⟩ := List.forall_mem_cons.1 ht
    have hle := ih (rest_next_of_cons h) ht
    have hnext : c.column ≤ c.next.column := by
      unfold next
      split
      · exact Nat.le_refl _
      next y r hr =>
        obtain ⟨rfl, rfl⟩ : x = y ∧ t ++ u = r := List.cons.inj (h.symm.trans hr)
        simp only [hx, Bool.false_and, Bool.false_eq_true, if_false]
        split
        · exact Nat.le_refl _
        · exact Nat.le_succ _
    rw [List.length_cons, skip_succ]
    omega

theorem column_spaces {n : Nat} (h : c.rest = spaces n ++ u) : (c.skip n).column = c.column + n := by
  have hcolumn := column_skip h fun x hx => by rw [mem_spaces hx]; decide
  rwa [length_spaces] at hcolumn

theorem column_next_of_lineFeed (h : c.rest = '\n' :: t) : c.next.column = 0 := by
  unfold next
  rw [h]
  rfl

/-- Behind a line feed and spaces, the column is the number of the spaces. -/
theorem column_skip_line {n : Nat} (h : c.rest = '\n' :: spaces n ++ u) : (c.skip (n + 1)).column = n := by
  have hrest : c.next.rest = spaces n ++ u := rest_next_of_cons h
  rw [skip_succ, column_spaces hrest, column_next_of_lineFeed h, Nat.zero_add]

end Cursor

end Entail.Yaml
