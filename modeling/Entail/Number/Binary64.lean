import Entail.Text.Numeral

/-!
# Double-precision numbers, exactly

A `Binary64` holds sign, mantissa and exponent as integers, so that reading, comparing and printing are exact
integer arithmetic.

* `ofRatio` : the number nearest to a quotient of naturals, a tie going to the even mantissa;
* `ofDecimal`, `ofText?` : the number nearest to a decimal, and to its written form;
* `toRatio?`, `toInt?` : the exact value back, as a quotient and, where it is one, as an integer;
* `plus`, `times` : exact and then rounded once. A sum of opposite numbers is the positive zero; where infinities cancel
  or meet a zero the result is no number. `ofInt?` is the double nearest to an integer, if the range has one.
-/

namespace Entail.Number

/-- A double: `mantissa * 2 ^ exponent` with a sign, an infinity, or no number. -/
inductive Binary64 where
  | finite (negative : Bool) (mantissa : Nat) (exponent : Int)
  | infinite (negative : Bool)
  | nan
  deriving DecidableEq

namespace Binary64

def leastExponent : Int := -1074

def greatestExponent : Int := 971

/-- Mantissas stay below this. -/
def mantissaBound : Nat := 9007199254740992

def powerOfTwo (e : Int) : Nat := Nat.pow 2 e.toNat

def zero (negative : Bool) : Binary64 := .finite negative 0 leastExponent

/-- The quotient of naturals `num / (den * 2 ^ e)` as numerator and denominator. -/
def scaleDown (num den : Nat) (e : Int) : Nat × Nat :=
  if 0 ≤ e then (num, den * powerOfTwo e) else (num * powerOfTwo (-e), den)

/-- The natural nearest to a quotient, a tie going to the even one. -/
def roundDiv (num den : Nat) : Nat :=
  let q := num / den
  let r := num % den
  if 2 * r < den then q else if den < 2 * r then q + 1 else q + q % 2

/-- The exponent whose mantissas of 53 bits reach a quotient. -/
def exponentFor (num den : Nat) : Int :=
  let e := max leastExponent ((num.log2 : Int) - (den.log2 : Int) - 53)
  let s := scaleDown num den e
  if s.1 / s.2 < mantissaBound then e else e + 1

def ofRatio (negative : Bool) (num den : Nat) : Binary64 :=
  if num = 0 then zero negative
  else
    let e := exponentFor num den
    let s := scaleDown num den e
    let m := roundDiv s.1 s.2
    let (m, e) := if m = mantissaBound then (mantissaBound / 2, e + 1) else (m, e)
    if e ≤ greatestExponent then .finite negative m e else .infinite negative

/-- The double nearest to `digits * 10 ^ power`; outside the range of doubles the power is not worked out. -/
def ofDecimal (negative : Bool) (digits : Nat) (power : Int) : Binary64 :=
  let top := ((Text.decimal digits).length : Int) + power
  if digits = 0 ∨ top < -330 then zero negative
  else if 310 < top then .infinite negative
  else if 0 ≤ power then ofRatio negative (digits * Nat.pow 10 power.toNat) 1
  else ofRatio negative digits (Nat.pow 10 (-power).toNat)

/-- The absolute value as a quotient of naturals. -/
def toRatio? : Binary64 → Option (Nat × Nat)
  | .finite _ m e => some (if 0 ≤ e then (m * powerOfTwo e, 1) else (m, powerOfTwo (-e)))
  | _ => none

def toInt? : Binary64 → Option Int
  | .finite negative m e =>
    let n := if 0 ≤ e then m * powerOfTwo e else m / powerOfTwo (-e)
    if 0 ≤ e ∨ m % powerOfTwo (-e) = 0 then some (if negative then -(n : Int) else n) else none
  | _ => none

/-- Whether the number is at most a natural; no number is not. -/
def atMost (n : Nat) : Binary64 → Bool
  | .finite negative m e =>
    negative || (match (finite negative m e).toRatio? with | some q => q.1 ≤ n * q.2 | none => false)
  | .infinite negative => negative
  | .nan => false

def isZero : Binary64 → Bool
  | .finite _ 0 _ => true
  | _ => false

def negate : Binary64 → Binary64
  | .finite s m e => .finite (!s) m e
  | .infinite s => .infinite (!s)
  | .nan => .nan

def spanDigits (s : List Char) : List Char × List Char := s.span Char.isDigit

/-- Reads an exponent part, which may be missing. -/
def exponentOfText? : List Char → Option Int
  | [] => some 0
  | c :: s =>
    if c = 'e' ∨ c = 'E' then
      let (negative, s) := match s with
        | '-' :: t => (true, t)
        | '+' :: t => (false, t)
        | t => (false, t)
      if s = [] then none
      else (Text.ofDigits? 10 s).map fun n => if negative then -(n : Int) else n
    else none

/-- Reads digits with at most one point among them and an exponent after them. -/
def ofUnsignedText? (negative : Bool) (s : List Char) : Option Binary64 :=
  match s.map Char.toLower with
  | ['i', 'n', 'f'] | ['i', 'n', 'f', 'i', 'n', 'i', 't', 'y'] => some (.infinite negative)
  | ['n', 'a', 'n'] => some .nan
  | s =>
    let (whole, s) := spanDigits s
    let (places, s) := match s with
      | '.' :: t => spanDigits t
      | t => ([], t)
    if whole = [] ∧ places = [] then none
    else do
      let e ← exponentOfText? s
      let n ← Text.ofDigits? 10 (whole ++ places)
      return ofDecimal negative n (e - places.length)

/-- Reads a decimal with an optional sign and blank characters around it, in the digits of any script. -/
def ofText? (s : List Char) : Option Binary64 :=
  match Text.bareNumeral s with
  | '-' :: t => ofUnsignedText? true t
  | '+' :: t => ofUnsignedText? false t
  | t => ofUnsignedText? false t

/-! ## Arithmetic -/

def toSignedRatio (negative : Bool) (q : Nat × Nat) : Int × Nat := (if negative then -(q.1 : Int) else q.1, q.2)

def sumOfRatios (s t : Bool) (x y : Nat × Nat) : Binary64 :=
  let (m, a) := toSignedRatio s x
  let (n, b) := toSignedRatio t y
  let total := m * b + n * a
  if total = 0 then zero (s && t) else ofRatio (total < 0) total.natAbs (a * b)

def isNegative : Binary64 → Bool
  | .finite negative _ _ | .infinite negative => negative
  | .nan => false

def plus (a b : Binary64) : Binary64 :=
  match a, b, a.toRatio?, b.toRatio? with
  | _, _, some x, some y => sumOfRatios a.isNegative b.isNegative x y
  | .nan, _, _, _ | _, .nan, _, _ => .nan
  | .infinite s, .infinite t, _, _ => if s = t then .infinite s else .nan
  | .infinite s, _, _, _ => .infinite s
  | _, b, _, _ => b

def times (a b : Binary64) : Binary64 :=
  let negative := a.isNegative != b.isNegative
  match a, b, a.toRatio?, b.toRatio? with
  | _, _, some x, some y => ofRatio negative (x.1 * y.1) (x.2 * y.2)
  | .nan, _, _, _ | _, .nan, _, _ => .nan
  | a, b, _, _ => if a.isZero || b.isZero then .nan else .infinite negative

/-- The double nearest to an integer; beyond the range there is none. -/
def ofInt? (n : Int) : Option Binary64 :=
  match ofRatio (n < 0) n.natAbs 1 with
  | .infinite _ => none
  | x => some x

end Binary64

end Entail.Number
