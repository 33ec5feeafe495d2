/-! # Decimals `digits × 10 ^ exp` read to the nearest float, ties to even, and finite floats
as `mant × 2 ^ exp` -/

namespace Recalc

/-- The exact number `digits × 10 ^ exp`. -/
structure Decimal where
  digits : Nat
  exp : Int
deriving Repr, DecidableEq, Inhabited

namespace Decimal

/-- The float nearest to the decimal, ties to even; too large gives infinity. -/
def toFloat (d : Decimal) : Float :=
  if d.exp < 0 then Float.ofScientific d.digits true d.exp.natAbs
  else Float.ofScientific d.digits false d.exp.toNat

/-- The value of a run of ASCII digits, most significant first. -/
def digitValue (ds : List Char) : Nat :=
  ds.foldl (fun n c => 10 * n + (c.toNat - '0'.toNat)) 0

end Decimal

/-- A finite float's magnitude `mant × 2 ^ exp`. `lowerNarrow` says the float below is nearer than
the one above, which happens when `mant` is the least significand of a binade above the
subnormals. -/
structure Binary where
  mant : Nat
  exp : Int
  lowerNarrow : Bool
deriving Repr, DecidableEq, Inhabited

/-- What a float is, apart from its sign. -/
inductive Magnitude where
  | nan
  | infinite
  | finite (b : Binary)
deriving Repr, Inhabited

namespace Binary

/-- The sign bit of a float: set for negative numbers, -0.0 and some NaNs. -/
def signBit (x : Float) : Bool :=
  x.toBits >>> 63 == 1

/-- Splits the bits of a float into its magnitude: exponent field 2047 is NaN or infinity, field 0
holds the subnormals and zero. -/
def magnitude (x : Float) : Magnitude :=
  let bits : Nat := x.toBits.toNat
  let field : Nat := (bits / Nat.pow 2 52) % Nat.pow 2 11
  let frac : Nat := bits % Nat.pow 2 52
  if field = 2047 then
    if frac = 0 then .infinite else .nan
  else if field = 0 then
    .finite ⟨frac, -1074, false⟩
  else
    .finite ⟨frac + Nat.pow 2 52, (field : Int) - 1075, frac = 0 && field > 1⟩

end Binary

end Recalc
