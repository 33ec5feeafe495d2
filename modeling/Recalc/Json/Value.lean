import Recalc.Decimal.Shortest

/-! # JSON values and their compact text -/

namespace Recalc

/-- A JSON value. Whole numbers and floats are apart, since they are written differently. -/
inductive Json where
  | null
  | bool (b : Bool)
  | nat (n : Nat)
  | num (x : Float)
  | str (s : String)
  | arr (items : List Json)
  | obj (members : List (String × Json))
deriving Inhabited

namespace Json

/-- Floats in JSON text: positional from 1e-5 up to 16 integer digits, an integer keeps `.0`,
exponents are written `e+16` and `e-7`, and a tie between two shortest decimals goes to the even
one. JSON has no infinity or NaN; `render` writes those as `null`. -/
def numberText : Notation :=
  { maxIntegerDigits := some 16, maxLeadingZeros := some 4, pointZero := true,
    plusExponent := true, tie := .even, infinity := "inf", nan := "NaN" }

def hex4 (n : Nat) : String :=
  let digit (d : Nat) : Char := if d < 10 then Char.ofNat (48 + d) else Char.ofNat (87 + d)
  String.ofList [digit (n / 4096 % 16), digit (n / 256 % 16), digit (n / 16 % 16), digit (n % 16)]

/-- The escaped form of one character inside a JSON string: quote and backslash get a backslash,
the control characters below 0x20 their short escape or `\u00xx`, all else stands as it is. -/
def escapeChar (c : Char) : String :=
  if c = '"' then "\\\""
  else if c = '\\' then "\\\\"
  else if c = '\n' then "\\n"
  else if c = '\r' then "\\r"
  else if c = '\t' then "\\t"
  else if c.toNat = 8 then "\\b"
  else if c.toNat = 12 then "\\f"
  else if c.toNat < 0x20 then "\\u" ++ hex4 c.toNat
  else String.singleton c

def quote (s : String) : String :=
  "\"" ++ String.join (s.toList.map escapeChar) ++ "\""

def render : Json → String
  | .null => "null"
  | .bool b => if b then "true" else "false"
  | .nat n => toString n
  | .num x => if x.isFinite then numberText.render x else "null"
  | .str s => quote s
  | .arr items => "[" ++ ",".intercalate (items.map render) ++ "]"
  | .obj members =>
    "\x7b" ++ ",".intercalate (members.map fun m => quote m.1 ++ ":" ++ render m.2) ++ "\x7d"
decreasing_by
  all_goals simp_wf
  · have := List.sizeOf_lt_of_mem ‹_ ∈ items›
    omega
  · have hm := List.sizeOf_lt_of_mem ‹_ ∈ members›
    have : sizeOf (‹String × Json›).2 < sizeOf ‹String × Json› := by
      cases ‹String × Json›
      simp only [Prod.mk.sizeOf_spec]
      omega
    omega

end Json

end Recalc
