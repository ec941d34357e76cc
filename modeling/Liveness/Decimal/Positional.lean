import Liveness.Decimal.Shortest

/-! Number literals as text.

A literal is a double, kept as its sixty-four bits. Its text has the fewest digits that
read back as the same double, always in positional notation: no exponent however large
or small the number, and no fraction point on a whole number. Only zero and the
infinities show a sign that carries no magnitude, and a NaN shows none. -/
namespace Liveness.Decimal

/-- A double by its bits: not a number, an infinity, or a finite magnitude. -/
inductive Double where
  | nan
  | infinite (negative : Bool)
  | finite (negative : Bool) (magnitude : Binary)
deriving DecidableEq, Repr

/-- Reads the sign bit, the eleven exponent bits and the fifty-two fraction bits. -/
def Double.ofBits (bits : UInt64) : Double :=
  let negative := bits >>> 63 == 1
  let exponent := ((bits >>> 52) &&& 0x7ff).toNat
  let fraction := (bits &&& 0xfffffffffffff).toNat
  if exponent == 0x7ff then
    if fraction == 0 then .infinite negative else .nan
  else if exponent == 0 then .finite negative ⟨fraction, -1074, false⟩
  else .finite negative
    ⟨0x10000000000000 + fraction, (exponent : Int) - 1075, fraction == 0 && 1 < exponent⟩

def zeros (n : Nat) : List Char := List.replicate n '0'

/-- The characters of `digits · 10 ^ exponent` without an exponent; trailing zeros of the
fraction are dropped, and the point with them if nothing remains. -/
def Scaled.positional (x : Scaled) : List Char :=
  let ds := Nat.toDigits 10 x.digits
  if 0 ≤ x.exponent then ds ++ zeros x.exponent.toNat
  else
    let places := (-x.exponent).toNat
    let padded := zeros (places + 1 - ds.length) ++ ds
    let whole := padded.take (padded.length - places)
    let fraction := (padded.drop (padded.length - places)).reverse.dropWhile (· == '0') |>.reverse
    if fraction.isEmpty then whole else whole ++ '.' :: fraction

def Double.text : Double → String
  | .nan => "NaN"
  | .infinite negative => if negative then "-inf" else "inf"
  | .finite negative x =>
    let digits := if x.mantissa == 0 then ['0'] else x.shortest.positional
    String.ofList (if negative then '-' :: digits else digits)

/-- The text of the double with the given bits. -/
def text (bits : UInt64) : String := (Double.ofBits bits).text

end Liveness.Decimal
