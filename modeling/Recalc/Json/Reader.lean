import Recalc.Json.Value

/-! # A strict JSON reader over the UTF-8 bytes of a text, reporting errors at byte indices -/

namespace Recalc.Json

/-- A position in the bytes of a text: the index of the next byte and the bytes from there on. -/
structure Cursor where
  index : Nat
  rest : List UInt8
deriving Inhabited

/-- Syntax faults of JSON text. -/
inductive Fault where
  | eofWhileParsingList
  | eofWhileParsingObject
  | eofWhileParsingString
  | eofWhileParsingValue
  | expectedColon
  | expectedListCommaOrEnd
  | expectedObjectCommaOrEnd
  | expectedSomeIdent
  | expectedSomeValue
  | invalidEscape
  | invalidNumber
  | numberOutOfRange
  | controlCharacterWhileParsingString
  | keyMustBeAString
  | loneLeadingSurrogateInHexEscape
  | trailingComma
  | trailingCharacters
  | unexpectedEndOfHexEscape
deriving Repr, DecidableEq, Inhabited

/-- A number as read: whole numbers that fit in 64 bits stay exact, negative ones down to `-2^63`;
all others are floats. -/
inductive Number where
  | unsigned (n : Nat)
  | signed (i : Int)
  | float (x : Float)
deriving Inhabited

/-- A value met where something else was expected, as a message names it. -/
inductive Found where
  | bool (b : Bool)
  | unsigned (n : Nat)
  | signed (i : Int)
  | float (x : Float)
  | str (s : String)
  | null
  | seq
  | map
deriving Inhabited

/-- Why a JSON text does not give the value wanted. -/
inductive ReadError where
  | fault (f : Fault)
  | invalidType (found : Found) (expected : String)
  | invalidValue (found : Found) (expected : String)
  | unknownField (name : String) (fields : List String)
  | duplicateField (name : String)
deriving Inhabited

/-- An error and the byte index it is reported at. -/
abbrev Located := ReadError × Nat

/-- A result of reading, with the cursor after what was read. -/
abbrev Step (α : Type) := Except Located (α × Cursor)

namespace Cursor

def ofBytes (bytes : List UInt8) : Cursor := ⟨0, bytes⟩

def peek (c : Cursor) : Option UInt8 := c.rest.head?

def bump (c : Cursor) : Cursor := ⟨c.index + 1, c.rest.drop 1⟩

/-- Where an error about what was already read is reported. -/
def here (c : Cursor) : Nat := c.index

/-- Where an error about the byte looked at is reported: one past it, at most the end. -/
def ahead (c : Cursor) : Nat := c.index + min 1 c.rest.length

/-- Whether a byte is a JSON blank: space, line feed, tab or carriage return. -/
def isBlankByte (b : UInt8) : Bool := b == 0x20 || b == 0x0A || b == 0x09 || b == 0x0D

def skipBlank (c : Cursor) : Cursor :=
  let blanks := c.rest.takeWhile isBlankByte
  ⟨c.index + blanks.length, c.rest.drop blanks.length⟩

def failHere {α : Type} (c : Cursor) (f : Fault) : Except Located α := .error (.fault f, c.here)

def failAhead {α : Type} (c : Cursor) (f : Fault) : Except Located α := .error (.fault f, c.ahead)

end Cursor

def isDigitByte (b : UInt8) : Bool := 0x30 ≤ b && b ≤ 0x39

def digitOf (b : UInt8) : Nat := b.toNat - 0x30

def maxUnsigned : Nat := Nat.pow 2 64 - 1

/-- The largest 32-bit signed number, the bound of exponents. -/
def maxExponent : Nat := Nat.pow 2 31 - 1

/-- `10 ^ k` rounded to the nearest float. -/
def powTen (k : Nat) : Float := Float.ofScientific 1 false k

def clampExponent (e : Int) : Int := max (-(Nat.pow 2 31 : Int)) (min (maxExponent : Int) e)

/-- Divides by `10 ^ e` for `e` above 308 in steps of `10 ^ 308`; zero stops early. -/
def shrink (f : Float) (e : Nat) : Float :=
  if e ≤ 308 then f / powTen e
  else if f == 0 then f
  else shrink (f / powTen 308) (e - 308)
termination_by e

/-- The float `significand × 10 ^ exp` as the reader forms it: the significand rounded to a float,
then one multiplication or division by a power of ten (several divisions below `10 ^ -308`).
`none` when the result is infinite. -/
def fromParts (positive : Bool) (significand : Nat) (exp : Int) : Option Float :=
  let f := Float.ofNat significand
  let magnitude : Option Float :=
    if 0 ≤ exp then
      if exp ≤ 308 then
        let g := f * powTen exp.toNat
        if g.isInf then none else some g
      else if f == 0 then some f else none
    else some (shrink f (-exp).toNat)
  magnitude.map fun g => if positive then g else -g

/-- The float for a parsed significand and exponent, or `numberOutOfRange` at the cursor. -/
def finishFloat (c : Cursor) (positive : Bool) (significand : Nat) (exp : Int) : Step Float :=
  match fromParts positive significand exp with
  | some x => .ok (x, c)
  | none => c.failHere .numberOutOfRange

def skipDigits (c : Cursor) : Cursor :=
  let ds := c.rest.takeWhile isDigitByte
  ⟨c.index + ds.length, c.rest.drop ds.length⟩

/-- Reads an exponent's digits after the first, from `exp`; an exponent past the 32-bit range
stops the reading: an error for a nonzero significand and a positive exponent, zero otherwise. -/
def exponentDigits (positive zeroSignificand positiveExp : Bool) (exp : Nat) :
    Nat → List UInt8 → Except Located (Option Nat × Cursor)
  | i, [] => .ok (some exp, ⟨i, []⟩)
  | i, b :: bs =>
    if isDigitByte b then
      let next := exp * 10 + digitOf b
      if next > maxExponent then
        if !zeroSignificand && positiveExp then .error (.fault .numberOutOfRange, i + 1)
        else .ok (none, skipDigits ⟨i + 1, bs⟩)
      else exponentDigits positive zeroSignificand positiveExp next (i + 1) bs
    else .ok (some exp, ⟨i, b :: bs⟩)

/-- Reads an exponent at `c` (which holds `e` or `E`) for a significand and the exponent so far. -/
def readExponent (c : Cursor) (positive : Bool) (significand : Nat) (start : Int) : Step Float :=
  let c := c.bump
  let (positiveExp, c) : Bool × Cursor :=
    match c.peek with
    | some 0x2B => (true, c.bump)
    | some 0x2D => (false, c.bump)
    | _ => (true, c)
  match c.rest with
  | [] => c.failHere .eofWhileParsingValue
  | b :: bs =>
    if isDigitByte b then
      match exponentDigits positive (significand == 0) positiveExp (digitOf b) (c.index + 1) bs with
      | .error e => .error e
      | .ok (none, c') => .ok ((if positive then 0.0 else -0.0), c')
      | .ok (some exp, c') =>
        let total := clampExponent (if positiveExp then start + exp else start - exp)
        finishFloat c' positive significand total
    else .error (.fault .invalidNumber, c.index + 1)

def afterSignificand (c : Cursor) (positive : Bool) (significand : Nat) (exp : Int) : Step Float :=
  match c.peek with
  | some 0x65 | some 0x45 => readExponent c positive significand exp
  | _ => finishFloat c positive significand exp

/-- Reads fraction digits into the significand while it fits in 64 bits, lowering the exponent
by one for each; digits that do not fit are skipped. Gives the significand, how many digits were
taken, and whether some had to be skipped. -/
def fractionDigits (significand taken : Nat) : Nat → List UInt8 → (Nat × Nat × Bool) × Cursor
  | i, [] => ((significand, taken, false), ⟨i, []⟩)
  | i, b :: bs =>
    if isDigitByte b then
      let next := significand * 10 + digitOf b
      if next > maxUnsigned then ((significand, taken, true), skipDigits ⟨i, b :: bs⟩)
      else fractionDigits next (taken + 1) (i + 1) bs
    else ((significand, taken, false), ⟨i, b :: bs⟩)

def readFraction (c : Cursor) (positive : Bool) (significand : Nat) (start : Int) : Step Float :=
  let c := c.bump
  let ((sig, taken, overflowed), c') := fractionDigits significand 0 c.index c.rest
  if overflowed then afterSignificand c' positive sig (start - taken)
  else if taken = 0 then
    match c'.peek with
    | some _ => c'.failAhead .invalidNumber
    | none => c'.failAhead .eofWhileParsingValue
  else afterSignificand c' positive sig (start - taken)

/-- A whole number too long for 64 bits: its remaining digits only raise the exponent. -/
def readLong (c : Cursor) (positive : Bool) (significand : Nat) : Step Float :=
  let c' := skipDigits c
  let exp : Int := c'.index - c.index
  match c'.peek with
  | some 0x2E => readFraction c' positive significand exp
  | _ => afterSignificand c' positive significand exp

/-- The end of a number whose digits are read: a fraction, an exponent, or a whole number. -/
def finishNumber (c : Cursor) (positive : Bool) (significand : Nat) : Step Number :=
  let asFloat (r : Step Float) : Step Number := r.map fun (x, c) => (.float x, c)
  match c.peek with
  | some 0x2E => asFloat (readFraction c positive significand 0)
  | some 0x65 | some 0x45 => asFloat (readExponent c positive significand 0)
  | _ =>
    if positive then .ok (.unsigned significand, c)
    else if significand = 0 || significand > Nat.pow 2 63 then .ok (.float (-(Float.ofNat significand)), c)
    else .ok (.signed (-(significand : Int)), c)

/-- Reads whole-number digits after the first into the significand while it fits in 64 bits. -/
def wholeDigits (positive : Bool) (significand : Nat) : Nat → List UInt8 → Step Number
  | i, [] => finishNumber ⟨i, []⟩ positive significand
  | i, b :: bs =>
    if isDigitByte b then
      let next := significand * 10 + digitOf b
      if next > maxUnsigned then
        (readLong ⟨i, b :: bs⟩ positive significand).map fun (x, c) => (.float x, c)
      else wholeDigits positive next (i + 1) bs
    else finishNumber ⟨i, b :: bs⟩ positive significand

/-- Reads a number at `c`, after its minus sign if it has one: a single zero or a digit run
without a leading zero, then the rest. -/
def readNumber (c : Cursor) (positive : Bool) : Step Number :=
  match c.rest with
  | [] => c.failHere .eofWhileParsingValue
  | b :: bs =>
    let c1 : Cursor := ⟨c.index + 1, bs⟩
    if b == 0x30 then
      match c1.peek with
      | some d => if isDigitByte d then c1.failAhead .invalidNumber else finishNumber c1 positive 0
      | none => finishNumber c1 positive 0
    else if isDigitByte b then wholeDigits positive (digitOf b) c1.index c1.rest
    else .error (.fault .invalidNumber, c1.index)

def readLiteral (c : Cursor) : List UInt8 → Except Located Cursor
  | [] => .ok c
  | e :: es =>
    match c.rest with
    | [] => c.failHere .eofWhileParsingValue
    | b :: bs => if b == e then readLiteral ⟨c.index + 1, bs⟩ es
      else .error (.fault .expectedSomeIdent, c.index + 1)

def hexValue? (b : UInt8) : Option Nat :=
  if 0x30 ≤ b && b ≤ 0x39 then some (b.toNat - 0x30)
  else if 0x41 ≤ b && b ≤ 0x46 then some (b.toNat - 0x37)
  else if 0x61 ≤ b && b ≤ 0x66 then some (b.toNat - 0x57)
  else none

def readHex4 (c : Cursor) : Except Located (Nat × Cursor) :=
  match c.rest with
  | a :: b :: d :: e :: bs =>
    let c' : Cursor := ⟨c.index + 4, bs⟩
    match hexValue? a, hexValue? b, hexValue? d, hexValue? e with
    | some w, some x, some y, some z => .ok (((w * 16 + x) * 16 + y) * 16 + z, c')
    | _, _, _, _ => c'.failHere .invalidEscape
  | _ => .error (.fault .eofWhileParsingString, c.index + c.rest.length)

def utf8Bytes (n : Nat) : List UInt8 :=
  (String.singleton (Char.ofNat n)).toUTF8.toList

/-- Expects `b` next inside a surrogate pair; a missing one ends the escape early. -/
def expectInPair (c : Cursor) (b : UInt8) : Except Located Cursor :=
  match c.rest with
  | [] => c.failHere .eofWhileParsingString
  | x :: _ => if x == b then .ok c.bump else c.bump.failHere .unexpectedEndOfHexEscape

/-- Reads a `\u` escape after the `u`: a character outside the surrogates, or a leading
surrogate followed by a `\u` escape of a trailing one. -/
def readUnicodeEscape (c : Cursor) : Except Located (List UInt8 × Cursor) :=
  match readHex4 c with
  | .error e => .error e
  | .ok (n, c) =>
    if 0xDC00 ≤ n && n ≤ 0xDFFF then c.failHere .loneLeadingSurrogateInHexEscape
    else if n < 0xD800 || n > 0xDBFF then .ok (utf8Bytes n, c)
    else
      match expectInPair c 0x5C with
      | .error e => .error e
      | .ok c =>
        match expectInPair c 0x75 with
        | .error e => .error e
        | .ok c =>
          match readHex4 c with
          | .error e => .error e
          | .ok (m, c) =>
            if m < 0xDC00 || m > 0xDFFF then c.failHere .loneLeadingSurrogateInHexEscape
            else .ok (utf8Bytes (((n - 0xD800) * 0x400 + (m - 0xDC00)) + 0x10000), c)

/-- Reads an escape after its backslash. -/
def readEscape (c : Cursor) : Except Located (List UInt8 × Cursor) :=
  match c.rest with
  | [] => c.failHere .eofWhileParsingString
  | b :: bs =>
    let c' : Cursor := ⟨c.index + 1, bs⟩
    if b == 0x22 then .ok ([0x22], c')
    else if b == 0x5C then .ok ([0x5C], c')
    else if b == 0x2F then .ok ([0x2F], c')
    else if b == 0x62 then .ok ([0x08], c')
    else if b == 0x66 then .ok ([0x0C], c')
    else if b == 0x6E then .ok ([0x0A], c')
    else if b == 0x72 then .ok ([0x0D], c')
    else if b == 0x74 then .ok ([0x09], c')
    else if b == 0x75 then readUnicodeEscape c'
    else c'.failHere .invalidEscape

/-- Reads string contents up to the closing quote, collecting bytes in reverse into `acc`. -/
def stringBytes (acc : List UInt8) (c : Cursor) : Except Located (List UInt8 × Cursor) :=
  match h : c.rest with
  | [] => c.failHere .eofWhileParsingString
  | b :: bs =>
    if b == 0x22 then .ok (acc.reverse, ⟨c.index + 1, bs⟩)
    else if b == 0x5C then
      match readEscape ⟨c.index + 1, bs⟩ with
      | .error e => .error e
      | .ok (out, c') =>
        if c'.rest.length < c.rest.length then stringBytes (out.reverse ++ acc) c'
        else .ok (acc.reverse, c')
    else if b < 0x20 then .error (.fault .controlCharacterWhileParsingString, c.index + 1)
    else stringBytes (b :: acc) ⟨c.index + 1, bs⟩
termination_by c.rest.length
decreasing_by
  all_goals simp only [h, List.length_cons] at *
  all_goals omega

def readString (c : Cursor) : Except Located (String × Cursor) :=
  (stringBytes [] c).map fun (bytes, c') => ((String.fromUTF8? ⟨bytes.toArray⟩).getD "", c')

/-- Reads what stands at `c` only to say what it is, in an error that wanted `expected`. -/
def invalidTypeAt (c : Cursor) (expected : String) : Located :=
  let wrong (found : Found) (c : Cursor) : Located := (.invalidType found expected, c.here)
  let ofNumber (r : Step Number) : Located :=
    match r with
    | .error e => e
    | .ok (.unsigned n, c) => wrong (.unsigned n) c
    | .ok (.signed i, c) => wrong (.signed i) c
    | .ok (.float x, c) => wrong (.float x) c
  let literal (rest : List UInt8) (found : Found) : Located :=
    match readLiteral c.bump rest with
    | .error e => e
    | .ok c => wrong found c
  match c.peek with
  | some 0x6E => literal [0x75, 0x6C, 0x6C] .null
  | some 0x74 => literal [0x72, 0x75, 0x65] (.bool true)
  | some 0x66 => literal [0x61, 0x6C, 0x73, 0x65] (.bool false)
  | some 0x2D => ofNumber (readNumber c.bump false)
  | some 0x22 =>
    match readString c.bump with
    | .error e => e
    | .ok (s, c) => wrong (.str s) c
  | some 0x5B => wrong .seq c
  | some 0x7B => wrong .map c
  | some b => if isDigitByte b then ofNumber (readNumber c true) else (.fault .expectedSomeValue, c.ahead)
  | none => (.fault .expectedSomeValue, c.ahead)

/-- Reads a whole number that fits in 64 bits, named `expected` in errors. -/
def readCount (c : Cursor) (expected : String) : Except Located (Nat × Cursor) :=
  let c := c.skipBlank
  let visit (r : Step Number) : Except Located (Nat × Cursor) :=
    match r with
    | .error e => .error e
    | .ok (.unsigned n, c) => .ok (n, c)
    | .ok (.signed i, c) =>
      if 0 ≤ i then .ok (i.toNat, c) else .error (.invalidValue (.signed i) expected, c.here)
    | .ok (.float x, c) => .error (.invalidType (.float x) expected, c.here)
  match c.peek with
  | none => c.failAhead .eofWhileParsingValue
  | some 0x2D => visit (readNumber c.bump false)
  | some b => if isDigitByte b then visit (readNumber c true) else .error (invalidTypeAt c expected)

/-- The line and column of a byte index: lines count from 1, and the column is the number of bytes
after the last line feed before the index. -/
def position (bytes : List UInt8) (i : Nat) : Nat × Nat :=
  let before := bytes.take i
  (1 + before.count 0x0A, (before.reverse.takeWhile (· != 0x0A)).length)

end Recalc.Json
