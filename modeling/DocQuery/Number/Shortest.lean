import DocQuery.Number.Double

/-!
# The shortest decimal of a double

Every real number in an interval around a double rounds to it. On the grid of multiples of `10 ^ e` the two
neighbours of the double are the only candidates, and the coarsest grid that has one of them in the interval gives
the decimal with the fewest digits; of two hits the nearer wins, and of two equally near the even one.

`DecimalFormat` holds what a format decides on top of that: which exponents are written positionally.
-/

namespace DocQuery

/-- The number `digits * 10 ^ exponent`. -/
structure ShortDecimal where
  digits : Nat
  exponent : Int
deriving DecidableEq, Repr

namespace Double

/-! ## Grid neighbours

Lengths are counted in quarters of the last place of the double, so that the ends of the interval are integers: the
double is `4 * mantissa` of them, and a value half a place above it `4 * mantissa + 2`. Below a power of two the
doubles lie twice as dense. -/

/-- The lower end of the interval that rounds to `x`, in quarters of a place. -/
def lowerEnd (x : Double) : Nat :=
  4 * x.mantissa - (if x.mantissa = leadingBit ∧ -1074 < x.exponent then 1 else 2)

/-- The upper end of the interval that rounds to `x`, in quarters of a place. -/
def upperEnd (x : Double) : Nat := 4 * x.mantissa + 2

/-- Quarters of a place and multiples of `10 ^ e` on one scale: a quarter is `place` and a multiple `grid` long. -/
def scales (x : Double) (e : Int) : Nat × Nat :=
  let quarter := x.exponent - 2
  (Nat.pow 2 quarter.toNat * Nat.pow 10 (-e).toNat, Nat.pow 2 (-quarter).toNat * Nat.pow 10 e.toNat)

/-- Whether `d * 10 ^ e` rounds to `x`. The ends of the interval do if the mantissa is even. -/
def reaches (x : Double) (e : Int) (d : Nat) : Bool :=
  let (place, grid) := x.scales e
  if x.mantissa % 2 = 0 then
    decide (x.lowerEnd * place ≤ d * grid ∧ d * grid ≤ x.upperEnd * place)
  else
    decide (x.lowerEnd * place < d * grid ∧ d * grid < x.upperEnd * place)

/-- The multiple of `10 ^ e` nearest to `x` among those that round to `x`. -/
def nearestOn? (x : Double) (e : Int) : Option Nat :=
  let (place, grid) := x.scales e
  let below := 4 * x.mantissa * place / grid
  let nearest := roundHalfEven (4 * x.mantissa * place) grid
  if x.reaches e nearest then some nearest
  else if x.reaches e below then some below
  else if x.reaches e (below + 1) then some (below + 1)
  else none

/-- The finest grid that is ever needed is that of `10 ^ (-324)`; the search takes `steps` coarser ones first. -/
def searchDown (x : Double) : Nat → ShortDecimal
  | 0 => ⟨(x.nearestOn? (-324)).getD 0, -324⟩
  | steps + 1 =>
    match x.nearestOn? (steps + 1 - 324) with
    | some d => ⟨d, steps + 1 - 324⟩
    | none => x.searchDown steps

/-- The decimal with the fewest digits that rounds to the absolute value of `x`. -/
def shortest (x : Double) : ShortDecimal := if x.isZero then ⟨0, 0⟩ else x.searchDown 633

end Double

/-! ## Text -/

/-- What a number format decides. A number `d.ddd * 10 ^ E` is written positionally if `least ≤ E < bound`. -/
structure DecimalFormat where
  least : Int
  bound : Int
deriving Repr

namespace DecimalFormat

/-- The text of the positive number with the given significant digits, whose last one counts `10 ^ e`. -/
def positional (digits : String) (e : Int) : String :=
  let n := digits.length
  if 0 ≤ e then digits ++ "".pushn '0' e.toNat ++ ".0"
  else
    let places := (-e).toNat
    if places < n then
      let split := n - places
      String.ofList (digits.toList.take split) ++ "." ++ String.ofList (digits.toList.drop split)
    else "0." ++ "".pushn '0' (places - n) ++ digits

/-- One digit, the point, the other digits if there are any, and the exponent with its sign. -/
def scientific (digits : String) (e : Int) : String :=
  let lead := String.ofList (digits.toList.take 1)
  let rest := String.ofList (digits.toList.drop 1)
  let point := if rest.isEmpty then "" else "."
  let sign := if e < 0 then "-" else "+"
  lead ++ point ++ rest ++ "e" ++ sign ++ toString e.natAbs

/-- The text of a double in its fewest digits. A zero keeps its sign. -/
def render (f : DecimalFormat) (x : Double) : String :=
  let short := x.shortest
  let digits := toString short.digits
  let magnitude := short.exponent + digits.length - 1
  let text :=
    if f.least ≤ magnitude ∧ magnitude < f.bound then positional digits short.exponent
    else scientific digits magnitude
  if x.negative then "-" ++ text else text

end DecimalFormat

end DocQuery
