import Recalc.Decimal.Basic

/-! # The shortest decimal in a float's rounding interval, nearest the float, compared exactly in
natural numbers, and its layout as text -/

namespace Recalc

/-- Which of two equally near decimals wins. -/
inductive Tie where
  /-- the one whose last digit is even -/
  | even
  /-- the larger one -/
  | up
deriving Repr, DecidableEq, Inhabited

/-- The number of decimal digits of `n`; zero has one. -/
def decimalLength (n : Nat) : Nat :=
  if n < 10 then 1 else decimalLength (n / 10) + 1
termination_by n
decreasing_by omega

/-- Compares `c × 10 ^ k` with `x × 2 ^ s` exactly. -/
def compareScaled (c : Nat) (k : Int) (x : Nat) (s : Int) : Ordering :=
  compare (c * Nat.pow 10 k.toNat * Nat.pow 2 (-s).toNat) (x * Nat.pow 2 s.toNat * Nat.pow 10 (-k).toNat)

namespace Binary

/-- The ends of the rounding interval in units of `2 ^ (exp - 2)`. -/
def lowerEnd (b : Binary) : Nat := 4 * b.mant - (if b.lowerNarrow then 1 else 2)

def upperEnd (b : Binary) : Nat := 4 * b.mant + 2

/-- Whether `c × 10 ^ k` reads back as the float: it lies in the rounding interval. -/
def admits (b : Binary) (c : Nat) (k : Int) : Bool :=
  let closed := b.mant % 2 == 0
  let lo := compareScaled c k b.lowerEnd (b.exp - 2)
  let hi := compareScaled c k b.upperEnd (b.exp - 2)
  (lo == .gt || (closed && lo == .eq)) && (hi == .lt || (closed && hi == .eq))

/-- `⌊mant × 2 ^ exp / 10 ^ k⌋`. -/
def floorAt (b : Binary) (k : Int) : Nat :=
  b.mant * Nat.pow 2 b.exp.toNat * Nat.pow 10 (-k).toNat /
    (Nat.pow 2 (-b.exp).toNat * Nat.pow 10 k.toNat)

/-- The exponent `e` with `10 ^ e ≤ mant × 2 ^ exp < 10 ^ (e + 1)`, for a nonzero `mant`. -/
def leadExp (b : Binary) : Int :=
  let num := b.mant * Nat.pow 2 b.exp.toNat
  let den := Nat.pow 2 (-b.exp).toNat
  if den ≤ num then (decimalLength (num / den) : Int) - 1
  else -(decimalLength ((den + num - 1) / num - 1) : Int)

/-- A decimal with digits `c` on the grid `10 ^ k`, its trailing zero removed when `c` reached
the next power of ten. -/
def gridPoint (c : Nat) (k : Int) : Decimal :=
  if c % 10 = 0 && c ≠ 0 then ⟨c / 10, k + 1⟩ else ⟨c, k⟩

/-- The float's two neighbours on the grid `10 ^ k`, if one of them reads back: the nearer one
when both do, a tie settled by `tie`. -/
def pickAt (b : Binary) (tie : Tie) (k : Int) : Option Decimal :=
  let d := b.floorAt k
  match b.admits d k, b.admits (d + 1) k with
  | false, false => none
  | true, false => some (gridPoint d k)
  | false, true => some (gridPoint (d + 1) k)
  | true, true =>
    -- the midpoint of the two against the float itself, both doubled
    match compareScaled (2 * d + 1) k (8 * b.mant) (b.exp - 2) with
    | .lt => some (gridPoint (d + 1) k)
    | .gt => some (gridPoint d k)
    | .eq =>
      match tie with
      | .up => some (gridPoint (d + 1) k)
      | .even => some (if d % 2 = 0 then gridPoint d k else gridPoint (d + 1) k)

/-- The decimal with the fewest significant digits that reads back as the float, the nearest of
those; zero is `0 × 10 ^ 0`. Seventeen digits always suffice. -/
def shortest (b : Binary) (tie : Tie) : Decimal :=
  if b.mant = 0 then ⟨0, 0⟩
  else
    let e := b.leadExp
    ((List.range 17).findSome? fun (n : Nat) => b.pickAt tie (e - n)).getD ⟨b.floorAt (e - 16), e - 16⟩

end Binary

example : decimalLength 0 = 1 ∧ decimalLength 9 = 1 ∧ decimalLength 10 = 2 ∧
    decimalLength 12345 = 5 := by decide +kernel

/-- 1.0 = 2 ^ 52 × 2 ^ -52 prints as one digit. -/
example : (Binary.shortest ⟨2 ^ 52, -52, true⟩ .even) = ⟨1, 0⟩ := by decide +kernel

/-- The least subnormal prints as 5e-324. -/
example : (Binary.shortest ⟨1, -1074, false⟩ .even) = ⟨5, -324⟩ := by decide +kernel

/-- 2 ^ 50 + 1/4 lies halfway between two 17-digit decimals: the tie decides. -/
example : (Binary.shortest ⟨2 ^ 52 + 1, -2, false⟩ .even) = ⟨11258999068426242, -1⟩ ∧
    (Binary.shortest ⟨2 ^ 52 + 1, -2, false⟩ .up) = ⟨11258999068426243, -1⟩ := by decide +kernel

/-! ## Laying out the shortest decimal as text; one renderer serves every notation -/

/-- How a float is written. Let `n` be the place of the leading digit, counted so that the number
is `0.d₁d₂… × 10 ^ n`. Positional notation is used when `n ≤ maxIntegerDigits` and
`-maxLeadingZeros ≤ n` (a bound of `none` never forbids it); scientific notation otherwise. -/
structure Notation where
  maxIntegerDigits : Option Nat
  maxLeadingZeros : Option Nat
  /-- An integer written positionally ends in `.0`. -/
  pointZero : Bool
  /-- A non-negative exponent carries a `+`. -/
  plusExponent : Bool
  tie : Tie
  infinity : String
  nan : String
deriving Repr, Inhabited

namespace Notation

def zeros (n : Nat) : String :=
  String.ofList (List.replicate n '0')

/-- Lays out a decimal, given as its digit text `ds` (no leading zero unless it is `0`) and the
exponent `k` of its last digit. -/
def layout (fmt : Notation) (ds : String) (k : Int) : String :=
  let len : Int := ds.length
  let n := len + k
  let intOk := fmt.maxIntegerDigits.all fun m => n ≤ m
  let fracOk := fmt.maxLeadingZeros.all fun m => -(m : Int) ≤ n
  if intOk && 0 ≤ k then
    ds ++ zeros k.toNat ++ (if fmt.pointZero then ".0" else "")
  else if intOk && 0 < n then
    String.ofList (ds.toList.take n.toNat) ++ "." ++ String.ofList (ds.toList.drop n.toNat)
  else if fracOk && n ≤ 0 then
    "0." ++ zeros (-n).toNat ++ ds
  else
    let head := String.ofList (ds.toList.take 1)
    let tail := String.ofList (ds.toList.drop 1)
    let mark := if n - 1 < 0 then "-" else if fmt.plusExponent then "+" else ""
    (if tail.isEmpty then head else head ++ "." ++ tail) ++ "e" ++ mark ++ toString (n - 1).natAbs

/-- The text of a float: a minus sign when the sign bit is set (so also for -0.0), then the
infinity text or the laid out shortest decimal; NaN has no sign. -/
def render (fmt : Notation) (x : Float) : String :=
  let sign := if Binary.signBit x then "-" else ""
  match Binary.magnitude x with
  | .nan => fmt.nan
  | .infinite => sign ++ fmt.infinity
  | .finite b =>
    let d := b.shortest fmt.tie
    sign ++ fmt.layout (toString d.digits) d.exp

end Notation

end Recalc
