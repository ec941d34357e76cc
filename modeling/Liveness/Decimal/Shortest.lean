/-! The fewest decimal digits that read back as a given binary number.

A positive binary number `m · 2 ^ q` of a floating-point format stands for an interval
of reals: those that round to it. Its shortest decimal is the one with fewest
digits in that interval and, among several, the one nearest to `m · 2 ^ q`.

The search tries grids `10 ^ j` from coarse to fine. On each it looks only at the two
grid points around the number, because if any point of the grid lies in the interval
then one of those two does. All comparisons are between natural numbers: one unit is a
quarter of `2 ^ q`, in which both ends of the interval are whole. -/
namespace Liveness.Decimal

/-- The number `mantissa · 2 ^ exponent` of a binary floating-point format. -/
structure Binary where
  mantissa : Nat
  exponent : Int
  /-- The next smaller number of the format is only half as far away as the next larger. -/
  narrowBelow : Bool := false
deriving DecidableEq, Repr

/-- The number `digits · 10 ^ exponent`. -/
structure Scaled where
  digits : Nat
  exponent : Int
deriving DecidableEq, Repr

namespace Binary

/-- The lower end of the interval, in quarters of `2 ^ exponent`. -/
def lower (x : Binary) : Nat := 4 * x.mantissa - if x.narrowBelow then 1 else 2

/-- The upper end of the interval, in quarters of `2 ^ exponent`. -/
def upper (x : Binary) : Nat := 4 * x.mantissa + 2

/-- A quarter of `2 ^ exponent` is `unit x j / cell x j` steps of the grid `10 ^ j`. -/
def unit (x : Binary) (j : Int) : Nat := Nat.pow 2 x.exponent.toNat * Nat.pow 10 (-j).toNat

def cell (x : Binary) (j : Int) : Nat := 4 * Nat.pow 2 (-x.exponent).toNat * Nat.pow 10 j.toNat

/-- Whether `c · 10 ^ j` reads back as the number. Rounding goes to even mantissas, so
the ends belong to the interval of those. -/
def readsBack (x : Binary) (j : Int) (c : Nat) : Bool :=
  let here := c * x.cell j
  if x.mantissa % 2 == 0 then
    x.lower * x.unit j ≤ here && here ≤ x.upper * x.unit j
  else
    x.lower * x.unit j < here && here < x.upper * x.unit j

/-- The multiple of `10 ^ j` that reads back as the number and is nearest to it; the
larger one if two are equally near. -/
def onGrid? (x : Binary) (j : Int) : Option Nat :=
  let value := 4 * x.mantissa * x.unit j
  let below := value / x.cell j
  let above := below + 1
  match x.readsBack j below, x.readsBack j above with
  | true, true =>
    if value - below * x.cell j < above * x.cell j - value then some below else some above
  | true, false => some below
  | false, true => some above
  | false, false => none

/-- Whether the number is below `10 ^ k`. -/
def belowPow (x : Binary) (k : Int) : Bool := 4 * x.mantissa * x.unit k < x.cell k

/-- The least `k` with the number below `10 ^ k`, found near the estimate that its binary
logarithm gives. -/
def magnitude (x : Binary) : Int :=
  let estimate := ((x.mantissa.log2 : Int) + x.exponent) * 30103 / 100000
  ([-1, 0, 1, 2] : List Int).findSome? (fun d =>
    if x.belowPow (estimate + d) then some (estimate + d) else none) |>.getD (estimate + 3)

/-- All digits of the number. -/
def exact (x : Binary) : Scaled :=
  if 0 ≤ x.exponent then ⟨x.mantissa * Nat.pow 2 x.exponent.toNat, 0⟩
  else ⟨x.mantissa * Nat.pow 5 (-x.exponent).toNat, x.exponent⟩

/-- The shortest decimal that reads back as the number. Seventeen digits always suffice
for a double. -/
def shortest (x : Binary) : Scaled :=
  (List.range 17).findSome? (fun n =>
    let j := x.magnitude - (n + 1 : Nat)
    (x.onGrid? j).map fun c => ⟨c, j⟩) |>.getD x.exact

end Binary
end Liveness.Decimal
