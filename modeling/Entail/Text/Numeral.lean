import Entail.Text.Characters

/-!
# Numerals

* `decimal`, `signed` : a number in base ten without leading zeros; `hexadecimal` : one in base sixteen with a fixed
  width; `digitValue?`, `ofDigits?` : the value of a digit, and of a run of them;
* `plainNumeral` : a numeral in the digits of any script with those of ASCII, and with the blank characters beyond
  ASCII as spaces;
* `Base64.decode?` : bytes that are written in the digits of base 64, four digits for three bytes. Characters that are
  no digits are passed over; padding with `=` after the second or third digit of a group ends the text, and without it
  the groups must be full.
-/

namespace Entail.Text

/-! ## Base ten and base sixteen -/

def decimal (n : Nat) : List Char := Nat.toDigits 10 n

def signed : Int → List Char
  | .ofNat n => decimal n
  | .negSucc n => '-' :: decimal (n + 1)

/-- A number in base ten, with zeros in front up to the given width. -/
def decimalPadded (width n : Nat) : List Char :=
  List.replicate (width - (decimal n).length) '0' ++ decimal n

def hexDigit (upper : Bool) (n : Nat) : Char :=
  if n < 10 then Char.ofNat (48 + n) else Char.ofNat ((if upper then 55 else 87) + n)

/-- The last digits of a number in base sixteen. -/
def hexadecimal (upper : Bool) : Nat → Nat → List Char
  | 0, _ => []
  | width + 1, n => hexadecimal upper width (n / 16) ++ [hexDigit upper (n % 16)]

/-- The value of a digit, letters of either case counting from ten. -/
def digitValue? (base : Nat) (c : Char) : Option Nat :=
  let v :=
    if '0' ≤ c ∧ c ≤ '9' then c.toNat - 48
    else if 'a' ≤ c ∧ c ≤ 'z' then c.toNat - 87
    else if 'A' ≤ c ∧ c ≤ 'Z' then c.toNat - 55
    else base
  if v < base then some v else none

def ofDigits? (base : Nat) (s : List Char) : Option Nat :=
  s.foldl (fun acc c => do return (← acc) * base + (← digitValue? base c)) (some 0)

/-! ## Digits of all scripts -/

/-- The code points of the zeros of all scripts; the digits up to nine follow each. -/
def zeros : List Nat :=
  [0x660, 0x6f0, 0x7c0, 0x966, 0x9e6, 0xa66, 0xae6, 0xb66, 0xbe6, 0xc66, 0xce6, 0xd66, 0xde6, 0xe50, 0xed0, 0xf20,
   0x1040, 0x1090, 0x17e0, 0x1810, 0x1946, 0x19d0, 0x1a80, 0x1a90, 0x1b50, 0x1bb0, 0x1c40, 0x1c50, 0xa620, 0xa8d0,
   0xa900, 0xa9d0, 0xa9f0, 0xaa50, 0xabf0, 0xff10, 0x104a0, 0x10d30, 0x11066, 0x110f0, 0x11136, 0x111d0, 0x112f0,
   0x11450, 0x114d0, 0x11650, 0x116c0, 0x11730, 0x118e0, 0x11950, 0x11c50, 0x11d50, 0x11da0, 0x16a60, 0x16ac0,
   0x16b50, 0x1d7ce, 0x1d7d8, 0x1d7e2, 0x1d7ec, 0x1d7f6, 0x1e140, 0x1e2f0, 0x1e950, 0x1fbf0]

/-- The value of a digit beyond ASCII. -/
def foreignDigit? (c : Char) : Option Nat :=
  (zeros.find? fun z => z ≤ c.toNat && c.toNat < z + 10).map fun z => c.toNat - z

/-- A character of a numeral in ASCII; one that has no place in numerals becomes a question mark. -/
def plainNumeralChar (c : Char) : Char :=
  if c.toNat < 0x7f then c
  else if isBlank c then ' '
  else
    match foreignDigit? c with
    | some n => Char.ofNat (48 + n)
    | none => '?'

def plainNumeral (s : List Char) : List Char := s.map plainNumeralChar

/-- The blank characters of ASCII that may stand around a numeral. -/
def isNumeralBlank (c : Char) : Bool := c = ' ' || (0x9 ≤ c.toNat && c.toNat ≤ 0xd)

/-- A numeral in ASCII without blanks around it. -/
def bareNumeral (s : List Char) : List Char := trimWhere isNumeralBlank (plainNumeral s)

/-! ## Base 64 -/

namespace Base64

def digit? (c : Char) : Option Nat :=
  if 'A' ≤ c ∧ c ≤ 'Z' then some (c.toNat - 65)
  else if 'a' ≤ c ∧ c ≤ 'z' then some (c.toNat - 71)
  else if '0' ≤ c ∧ c ≤ '9' then some (c.toNat + 4)
  else if c = '+' then some 62
  else if c = '/' then some 63
  else none

/-- The digits of a text up to the padding that ends it. `place` is the number of digits in the present group, and
`pads` counts the padding behind the last digit. -/
def digits? : Nat → Nat → List Char → Option (List Nat)
  | place, _, [] => if place = 0 then some [] else none
  | place, pads, c :: rest =>
    if c = '=' then
      if place < 2 then digits? place pads rest
      else if 4 ≤ place + pads + 1 then some []
      else digits? place (pads + 1) rest
    else
      match digit? c with
      | some d => (digits? ((place + 1) % 4) 0 rest).map (d :: ·)
      | none => digits? place pads rest

/-- The bytes of groups of four digits, of which the last may lack one or two. -/
def bytes : List Nat → List UInt8
  | a :: b :: c :: d :: rest =>
    UInt8.ofNat (a * 4 + b / 16) :: UInt8.ofNat (b % 16 * 16 + c / 4) :: UInt8.ofNat (c % 4 * 64 + d) :: bytes rest
  | [a, b, c] => [UInt8.ofNat (a * 4 + b / 16), UInt8.ofNat (b % 16 * 16 + c / 4)]
  | [a, b] => [UInt8.ofNat (a * 4 + b / 16)]
  | _ => []

def decode? (s : List Char) : Option (List UInt8) := (digits? 0 0 s).map bytes

end Base64

end Entail.Text
