/-!
# Finite doubles

A finite double is a sign and the bits of its absolute value, read as a natural number: the order of the bits is the
order of the values, and the step from one value to the next is a step of one bit. `Double.ofRatio?` rounds a
quotient of naturals to the nearest double, a half going to the even neighbour, and is the only rounding there is:
product and quotient are the exact ones, rounded once.
-/

namespace DocQuery

/-- The leading bit of a normal mantissa, `2 ^ 52`: the bits above it are the exponent. -/
def Double.leadingBit : Nat := 0x10000000000000

/-- The bits of infinity, which has the greatest exponent. -/
def Double.infinityBits : Nat := 2047 * Double.leadingBit

/-- A finite double: its sign and the bits of its absolute value, below those of infinity. -/
structure Double where
  negative : Bool
  bits : Nat
  finite : bits < Double.infinityBits
deriving DecidableEq, Repr

namespace Double

instance : Inhabited Double := ⟨⟨false, 0, by decide⟩⟩

/-- The double with the same absolute value and the given sign. -/
def withSign (x : Double) (negative : Bool) : Double := { x with negative }

def isZero (x : Double) : Bool := x.bits == 0

/-! ## The exact value

The absolute value is `mantissa * 2 ^ exponent`. Below the leading bit, the bits are the mantissa of a subnormal
number. -/

def mantissa (x : Double) : Nat :=
  if x.bits < leadingBit then x.bits else leadingBit + x.bits % leadingBit

def exponent (x : Double) : Int := (max (x.bits / leadingBit) 1 : Nat) - 1075

/-! ## Rounding -/

/-- The quotient `a / b` rounded to the nearest natural, a half to the even one. -/
def roundHalfEven (a b : Nat) : Nat :=
  if 2 * (a % b) < b ∨ (2 * (a % b) = b ∧ a / b % 2 = 0) then a / b else a / b + 1

/-- The ratio `num / den * 2 ^ e` as a numerator and a denominator. -/
def shifted (num den : Nat) (e : Int) : Nat × Nat :=
  if 0 ≤ e then (num * Nat.pow 2 e.toNat, den) else (num, den * Nat.pow 2 (-e).toNat)

/-- The exponent of the last place of `num / den`: the mantissa gets 53 digits, or fewer next to zero. -/
def lastPlace (num den : Nat) : Int :=
  if num = 0 then -1074
  else
    let guess : Int := max ((num.log2 : Int) - den.log2 - 53) (-1074)
    let (a, b) := shifted num den (-guess)
    if a / b < 2 * leadingBit then guess else guess + 1

/-- The bits of the double nearest to `num / den`, had the exponent no upper end. A mantissa that rounds up to the
next power of two carries into the exponent, as it should. -/
def roundedBits (num den : Nat) : Nat :=
  let place := lastPlace num den
  let (a, b) := shifted num den (-place)
  roundHalfEven a b + (place + 1074).toNat * leadingBit

/-- The double nearest to `num / den`, if that is finite. -/
def ofRatio? (num den : Nat) : Option Double :=
  if h : roundedBits num den < infinityBits then some ⟨false, roundedBits num den, h⟩ else none

/-! ## Arithmetic on absolute values -/

/-- The rounded product of the absolute values, if that is finite. -/
def mul? (x y : Double) : Option Double :=
  let (a, b) := shifted (x.mantissa * y.mantissa) 1 (x.exponent + y.exponent)
  ofRatio? a b

/-- The rounded quotient of the absolute values, if that is finite; `y` is not zero. -/
def div? (x y : Double) : Option Double :=
  let (a, b) := shifted x.mantissa y.mantissa (x.exponent - y.exponent)
  ofRatio? a b

end Double

end DocQuery
