import Entail.Number.Binary64

/-!
# The shortest decimal that reads back

`Binary64.shortest` : of the decimals that read back as a given double, one with the fewest digits, and of
those the nearest. `Binary64.text` : its written form, positional for exponents from -4 to 15.
-/

namespace Entail.Number

structure Decimal where
  digits : Nat
  power : Int
  deriving DecidableEq

namespace Decimal

/-- The same decimal without zeros at its end. -/
def normalise : Nat → Decimal → Decimal
  | 0, d => d
  | fuel + 1, d => if d.digits ≠ 0 ∧ d.digits % 10 = 0 then normalise fuel ⟨d.digits / 10, d.power + 1⟩ else d

end Decimal

namespace Binary64

/-- The least number of places, up to a bound, that makes `num * 10 ^ places` reach `den`. -/
def placesToReach : Nat → Nat → Nat → Nat
  | 0, _, _ => 0
  | fuel + 1, num, den => if den ≤ num then 0 else placesToReach fuel (num * 10) den + 1

/-- The power of ten of the leading digit of a positive quotient. -/
def leadingPower (num den : Nat) : Int :=
  if den ≤ num then ((Text.decimal (num / den)).length : Int) - 1 else -(placesToReach 400 num den : Int)

/-- The largest natural below `num / (den * 10 ^ power)`, and twice what is left over, in units of which
`span` make one. -/
def floorAt (num den : Nat) (power : Int) : Nat × Nat × Nat :=
  if 0 ≤ power then
    let d := den * Nat.pow 10 power.toNat
    (num / d, 2 * (num % d), d)
  else
    let n := num * Nat.pow 10 (-power).toNat
    (n / den, 2 * (n % den), den)

/-- A decimal of the given last place that reads back as `v`, the nearer of the two neighbours if both do and
the even one in a tie. -/
def candidateAt? (v : Binary64) (num den : Nat) (power : Int) : Option Decimal :=
  let (low, rest, span) := floorAt num den power
  let readsBack := fun n => ofDecimal false n power == v
  let nearer := if rest < span ∨ (rest = span ∧ low % 2 = 0) then low else low + 1
  let other := if nearer = low then low + 1 else low
  if readsBack nearer then some ⟨nearer, power⟩ else if readsBack other then some ⟨other, power⟩ else none

/-- Tries more and more digits until a decimal reads back; seventeen always do. -/
def shortestFrom (v : Binary64) (num den : Nat) (lead : Int) : Nat → Nat → Decimal
  | 0, _ => ⟨0, 0⟩
  | fuel + 1, count =>
    match candidateAt? v num den (lead - count) with
    | some d => d.normalise 20
    | none => shortestFrom v num den lead fuel (count + 1)

/-- The shortest decimal that reads back as `mantissa * 2 ^ exponent`. -/
def shortest (mantissa : Nat) (exponent : Int) : Decimal :=
  let v : Binary64 := .finite false mantissa exponent
  match v.toRatio? with
  | some (num, den) => shortestFrom v num den (leadingPower num den) 18 0
  | none => ⟨0, 0⟩

/-- Digits with a point before the exponent's place, in positional notation. -/
def positional (digits : List Char) (exponent : Int) : List Char :=
  if exponent < 0 then '0' :: '.' :: List.replicate ((-exponent).toNat - 1) '0' ++ digits
  else
    let whole := exponent.toNat + 1
    if digits.length ≤ whole then digits ++ List.replicate (whole - digits.length) '0' ++ ['.', '0']
    else digits.take whole ++ '.' :: digits.drop whole

/-- One digit, the others after a point, and an exponent with its sign and at least two digits. -/
def scientific (digits : List Char) (exponent : Int) : List Char :=
  let places := match digits with
    | c :: [] => [c]
    | c :: r => c :: '.' :: r
    | [] => []
  places ++ 'e' :: (if exponent < 0 then '-' else '+') :: Text.decimalPadded 2 exponent.natAbs

/-- The written form: positional where the leading digit's exponent is at least -4 and below 16. -/
def text : Binary64 → List Char
  | .nan => ['n', 'a', 'n']
  | .infinite negative => (if negative then ['-'] else []) ++ ['i', 'n', 'f']
  | .finite negative m e =>
    (if negative then ['-'] else []) ++
      if m = 0 then ['0', '.', '0']
      else
        let d := shortest m e
        let digits := Text.decimal d.digits
        let exponent := d.power + digits.length - 1
        if -4 ≤ exponent ∧ exponent < 16 then positional digits exponent else scientific digits exponent

end Binary64

end Entail.Number
