import Entail.Calendar
import Entail.Number.Binary64

/-!
# Document values

A `Value` is what a structured document holds: scalars, lists, mappings, sets and pairs. A mapping keeps its entries
in the order in which their keys first occur, and no two of its keys are the same. A collection that holds itself,
directly or through others, is a knot: it stands in a table beside the value and is known by its place there.

* `Value.Knots` : the table of the knots, which `Knots.opened` looks a value up in;
* `Value.isVoid` : the values that count as absent where a default is allowed;
* `Value.sameKey` : when two scalars are the same key, across kinds of number;
* `Value.put`, `Value.lookup?` : a mapping's entries by key;
* `Value.hash?` : the hash of a number, whatever its kind; `Value.inTableOrder` : the items of a set in the order of
  their places in a table, where items among which one is no number stay as they are;
* `Document` : what is to be written, and `Document.toValue` the value that reading it gives.
-/

namespace Entail

open Number (Binary64)

inductive Value where
  | null
  | bool (b : Bool)
  | int (n : Int)
  | float (x : Binary64)
  | str (s : String)
  | bytes (bs : List UInt8)
  | date (d : Date)
  | moment (m : Moment)
  | list (items : List Value)
  | map (entries : List (Value × Value))
  | set (items : List Value)
  | pair (first second : Value)
  | knot (place : Nat)

namespace Value

/-- The collections that values know by their places. None of them is itself a knot. -/
abbrev Knots := Array Value

def Knots.opened (ks : Knots) : Value → Value
  | .knot n => ks.getD n .null
  | v => v

/-- Null, false, zero, and empty text and collections. A knot holds something. -/
def isVoid : Value → Bool
  | .null => true
  | .bool b => !b
  | .int n => n == 0
  | .float x => x.isZero
  | .str s => s == ""
  | .bytes bs => bs.isEmpty
  | .list items | .set items => items.isEmpty
  | .map entries => entries.isEmpty
  | .date _ | .moment _ | .pair _ _ | .knot _ => false

/-- The value itself, or the empty list for one that counts as absent. -/
def orEmptyList (v : Value) : Value := if v.isVoid then .list [] else v

/-- The exact number that a boolean, an integer or a double with an integer value stands for. -/
def integer? : Value → Option Int
  | .bool b => some (if b then 1 else 0)
  | .int n => some n
  | .float x => x.toInt?
  | _ => none

def sameKey : Value → Value → Bool
  | .null, .null => true
  | .str s, .str t => s == t
  | .bytes s, .bytes t => s == t
  | .date d, .date e => d == e
  | .moment m, .moment n => m.sameInstant n
  | a, b =>
    match a.integer?, b.integer?, a, b with
    | some m, some n, _, _ => m == n
    | none, none, .float x, .float y => x == y
    | _, _, _, _ => false

/-- Replaces the value of a key, which keeps its place, or adds the key at the end. -/
def put (entries : List (Value × Value)) (k v : Value) : List (Value × Value) :=
  match entries with
  | [] => [(k, v)]
  | (k', v') :: rest => if k'.sameKey k then (k', v) :: rest else (k', v') :: put rest k v

def lookup? (entries : List (Value × Value)) (key : String) : Option Value :=
  (entries.find? fun e => match e.1 with | .str s => s == key | _ => false).map (·.2)

/-- The value of a text key, null if the key is missing. -/
def lookup (entries : List (Value × Value)) (key : String) : Value := (lookup? entries key).getD .null

/-! ## The order of numbers in a set

A set keeps its items in a table, each at an open place that its hash leads to, and shows them in the order of their
places. Numbers that are equal have the same hash: it is the remainder of the number by a prime, for a quotient the
remainder that its denominator takes back to that of its numerator. -/

/-- The prime by which hashes are remainders, one less than a power of two. -/
def hashBits : Nat := 61

def hashPrime : Nat := Nat.pow 2 hashBits - 1

/-- The hash of a number with the given sign whose absolute value has a remainder. The hash `-1` is not used. -/
def signedHash (negative : Bool) (residue : Nat) : Int :=
  if !negative then residue else if residue = 1 then -2 else -(residue : Int)

/-- The remainder of `mantissa * 2 ^ exponent`; by the prime, powers of two come round with their exponents. -/
def scaledResidue (mantissa : Nat) (exponent : Int) : Nat :=
  mantissa * Nat.pow 2 (exponent % hashBits).toNat % hashPrime

def hash? : Value → Option Int
  | .bool b => some (if b then 1 else 0)
  | .int n => some (signedHash (n < 0) (n.natAbs % hashPrime))
  | .float (.finite negative mantissa exponent) => some (signedHash negative (scaledResidue mantissa exponent))
  | .float (.infinite negative) => some (signedHash negative 314159)
  | _ => none

/-- The number of places for some items: more than twice as many from five items on. -/
def placesFor (items : Nat) : Nat := if items < 5 then 8 else Nat.pow 2 ((2 * items).log2 + 1)

/-- Looks for an open place, at a place and the nine behind it if there are so many, else at the place alone, and
then at the place that the hash leads to next. What is left of the hash is soon nothing, and from then on the places
come round one by one. -/
def openPlace (isTaken : Nat → Bool) (places : Nat) : Nat → Nat → Nat → Nat
  | 0, _, place => place
  | fuel + 1, left, place =>
    match (List.range' place (if place + 9 < places then 10 else 1)).find? fun p => !isTaken p with
    | some p => p
    | none => openPlace isTaken places fuel (left / 32) ((place * 5 + 1 + left / 32) % places)

def putPlaced (places : Nat) (table : List (Nat × Value)) (hash : Int) (v : Value) : List (Nat × Value) :=
  let left := (hash % Nat.pow 2 64).toNat
  (openPlace (fun p => table.any (·.1 = p)) places (places + 13) left (left % places), v) :: table

def inTableOrder (items : List Value) : List Value :=
  match items.mapM fun v => v.hash?.map fun h => (h, v) with
  | none => items
  | some hashed =>
    let table := hashed.foldl (fun table e => putPlaced (placesFor items.length) table e.1 e.2) []
    (table.mergeSort fun a b => a.1 ≤ b.1).map (·.2)

end Value

/-! ## Documents to be written -/

inductive Document where
  | text (s : String)
  | list (items : List Document)
  | fields (entries : List (String × Document))

namespace Document

mutual

def toValue : Document → Value
  | .text s => .str s
  | .list items => .list (itemValues items)
  | .fields entries => .map (entryValues entries)

def itemValues : List Document → List Value
  | [] => []
  | d :: rest => d.toValue :: itemValues rest

def entryValues : List (String × Document) → List (Value × Value)
  | [] => []
  | (k, d) :: rest => (.str k, d.toValue) :: entryValues rest

end

end Document

end Entail
