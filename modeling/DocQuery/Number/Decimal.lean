import DocQuery.Number.Double

/-!
# Written decimals

`Decimal` is a number as it stands in a text: its digits before and after the point and its exponent, with nothing
rounded. `Decimal.toNumber?` is its value. Digits are collected into a significand as long as it stays below
`2 ^ 64`. A number with neither point nor exponent is an integer if 64 bits hold it; any other is the double of the
significand, multiplied or divided by a power of ten. Each of these three operands is rounded by itself, so the last
digit of a long decimal need not be the nearest one.
-/

namespace DocQuery

/-- A number of a document: an integer, or a double. An integral double is still a double. -/
inductive Number where
  | int (n : Int)
  | float (x : Double)
deriving DecidableEq, Repr, Inhabited

/-- A number as it is written. -/
structure Decimal where
  negative : Bool
  whole : List Nat
  fraction : Option (List Nat)
  exponent : Option Int
deriving DecidableEq, Repr

namespace Decimal

/-! ## Reading -/

def digitValue (c : Char) : Nat := c.toNat - '0'.toNat

/-- The leading digits of a text, and what follows them. -/
def spanDigits (cs : List Char) : List Nat × List Char :=
  ((cs.takeWhile Char.isDigit).map digitValue, cs.dropWhile Char.isDigit)

/-- The natural number with the given digits. -/
def natOfDigits (ds : List Nat) : Nat := ds.foldl (fun n d => 10 * n + d) 0

/-- An exponent after its mark: an optional sign and at least one digit, and nothing else. -/
def readExponent? (cs : List Char) : Option Int :=
  let (negative, cs) := match cs with
    | '+' :: rest => (false, rest)
    | '-' :: rest => (true, rest)
    | _ => (false, cs)
  match spanDigits cs with
  | ([], _) => none
  | (ds, []) => some (if negative then -(natOfDigits ds : Int) else natOfDigits ds)
  | (_, _ :: _) => none

/-- The part from the exponent mark on, which may be absent. -/
def readTail? : List Char → Option (Option Int)
  | [] => some none
  | c :: rest => if c = 'e' ∨ c = 'E' then (readExponent? rest).map some else none

/-- The part from the point on, which may be absent. A point is followed by a digit. -/
def readFraction? (negative : Bool) (whole : List Nat) : List Char → Option Decimal
  | '.' :: rest =>
    match spanDigits rest with
    | ([], _) => none
    | (ds, rest) => (readTail? rest).map (⟨negative, whole, some ds, ·⟩)
  | rest => (readTail? rest).map (⟨negative, whole, none, ·⟩)

/-- A whole text as a decimal. The part before the point has a digit, and no zero in front of another digit. -/
def ofChars? (cs : List Char) : Option Decimal :=
  let (negative, cs) := match cs with
    | '-' :: rest => (true, rest)
    | _ => (false, cs)
  match spanDigits cs with
  | ([], _) => none
  | (0 :: _ :: _, _) => none
  | (whole, rest) => readFraction? negative whole rest

/-! ## Value -/

/-- Appends digits to a significand up to the first one that 64 bits cannot hold; the digits from there on remain. -/
def absorb (significand : Nat) : List Nat → Nat × List Nat
  | [] => (significand, [])
  | d :: ds =>
    if 10 * significand + d < 0x10000000000000000 then absorb (10 * significand + d) ds
    else (significand, d :: ds)

/-- The greatest power of ten that is a finite double. -/
def greatestPower : Nat := 308

/-- `x * 10 ^ e`, with the power of ten rounded first. A power beyond `greatestPower` is applied in parts; a result
that is not finite is none. -/
def timesPowerOfTen? (x : Double) (e : Int) : Option Double :=
  if x.isZero then some x
  else if e.natAbs ≤ greatestPower then do
    let power ← Double.ofRatio? (Nat.pow 10 e.natAbs) 1
    if 0 ≤ e then x.mul? power else x.div? power
  else if 0 ≤ e then none
  else do
    let power ← Double.ofRatio? (Nat.pow 10 greatestPower) 1
    let smaller ← x.div? power
    timesPowerOfTen? smaller (e + greatestPower)
termination_by e.natAbs
decreasing_by simp only [greatestPower] at *; omega

/-- The double of `significand * 10 ^ e`. -/
def double? (negative : Bool) (significand : Nat) (e : Int) : Option Number := do
  let x ← Double.ofRatio? significand 1
  let y ← timesPowerOfTen? x e
  return .float (y.withSign negative)

/-- The value of a decimal. A negative zero is a double, since no integer has its sign. -/
def toNumber? (d : Decimal) : Option Number :=
  let (significand, dropped) := absorb 0 d.whole
  match d.fraction, d.exponent with
  | none, none =>
    if dropped ≠ [] then double? d.negative significand dropped.length
    else if !d.negative then some (.int significand)
    else if 0 < significand ∧ significand ≤ 0x8000000000000000 then some (.int (-significand))
    else double? true significand 0
  | fraction, exponent =>
    let fraction := fraction.getD []
    let (significand, unread) := absorb significand fraction
    let places : Int := dropped.length - (fraction.length - unread.length : Nat)
    double? d.negative significand (places + exponent.getD 0)

end Decimal

end DocQuery
