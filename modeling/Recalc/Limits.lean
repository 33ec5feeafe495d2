import Recalc.Json.Reader

/-! # Parser limits and their JSON form -/

namespace Recalc

/-- How deep a formula may nest (each parenthesis, unary minus and exponent adds a level, the
whole formula is one) and how many bytes its text may have. -/
structure Limits where
  maxDepth : Nat := 256
  maxLength : Nat := 65536
deriving Repr, DecidableEq, Inhabited

namespace Limits

/-- Why limits are refused. -/
inductive Problem where
  /-- the JSON text does not describe limits; the error stands at that line and column -/
  | unreadable (error : Json.ReadError) (line column : Nat)
  | depthZero
  | lengthZero
deriving Inhabited

/-- Limits under which no formula could be read are refused, the depth checked first. -/
def check (l : Limits) : Except Problem Limits :=
  if l.maxDepth = 0 then .error .depthZero
  else if l.maxLength = 0 then .error .lengthZero
  else .ok l

/-! ## Limits as JSON -/

open Json

def memberNames : List String := ["max_nesting_depth", "max_expression_len"]

def recordName : String := "struct CompilerConfig"

def countName : String := "usize"

/-- Limits from the members read so far, the others at their defaults. -/
def ofMembers (depth length : Option Nat) : Limits :=
  { maxDepth := depth.getD 256, maxLength := length.getD 65536 }

/-- Where an error about a member name is reported: after the blanks that follow the name, and
after a closing brace there. -/
def afterName (c : Cursor) : Nat :=
  let c := c.skipBlank
  if c.peek == some 0x7D then c.index + 1 else c.index

def readColon (c : Cursor) : Except Located Cursor :=
  let c := c.skipBlank
  match c.peek with
  | some 0x3A => .ok c.bump
  | some _ => c.failAhead .expectedColon
  | none => c.failAhead .eofWhileParsingObject

/-- Finds the next member name of an object: after the first, a comma must come before it. -/
def nextName (first : Bool) (c : Cursor) (b : UInt8) : Except Located Cursor :=
  if first then
    if b == 0x22 then .ok c else c.failAhead .keyMustBeAString
  else if b == 0x2C then
    let c := c.bump.skipBlank
    match c.peek with
    | some 0x22 => .ok c
    | some 0x7D => c.failAhead .trailingComma
    | some _ => c.failAhead .keyMustBeAString
    | none => c.failAhead .eofWhileParsingValue
  else c.failAhead .expectedObjectCommaOrEnd

/-- Reads the members of an object up to its closing brace, which is left unread. Each member
takes at least one byte, so `fuel` at the byte count suffices. -/
def readMembers : (fuel : Nat) → (first : Bool) → (depth length : Option Nat) → Cursor →
    Except Located (Limits × Cursor)
  | 0, _, _, _, c => c.failAhead .eofWhileParsingObject
  | fuel + 1, first, depth, length, c =>
    let c := c.skipBlank
    match c.peek with
    | none => c.failAhead .eofWhileParsingObject
    | some 0x7D => .ok (ofMembers depth length, c)
    | some b =>
      match nextName first c b with
      | .error e => .error e
      | .ok c =>
        match readString c.bump with
        | .error e => .error e
        | .ok (name, c) =>
          let seen := if name = "max_nesting_depth" then depth else length
          if !memberNames.contains name then .error (.unknownField name memberNames, afterName c)
          else if seen.isSome then .error (.duplicateField name, afterName c)
          else
            match readColon c with
            | .error e => .error e
            | .ok c =>
              match readCount c countName with
              | .error e => .error e
              | .ok (n, c) =>
                if name = "max_nesting_depth" then readMembers fuel false (some n) length c
                else readMembers fuel false depth (some n) c

/-- Reads the next element of an array, or `none` at its closing bracket, which is left unread;
`first` holds until an element is read. -/
def readElement (first : Bool) (c : Cursor) : Except Located (Option Nat × Bool × Cursor) :=
  let c := c.skipBlank
  match c.peek with
  | none => c.failAhead .eofWhileParsingList
  | some 0x5D => .ok (none, first, c)
  | some b =>
    let value (c : Cursor) := (readCount c countName).map fun (n, c) => (some n, false, c)
    if first then value c
    else if b == 0x2C then
      let c := c.bump.skipBlank
      match c.peek with
      | some 0x5D => c.failAhead .trailingComma
      | some _ => value c
      | none => c.failAhead .eofWhileParsingValue
    else c.failAhead .expectedListCommaOrEnd

def closeArray (c : Cursor) : Except Located Cursor :=
  let c := c.skipBlank
  match c.peek with
  | some 0x5D => .ok c.bump
  | some 0x2C =>
    let c := c.bump.skipBlank
    if c.peek == some 0x5D then c.failAhead .trailingComma else c.failAhead .trailingCharacters
  | some _ => c.failAhead .trailingCharacters
  | none => c.failAhead .eofWhileParsingList

def closeObject (c : Cursor) : Except Located Cursor :=
  let c := c.skipBlank
  match c.peek with
  | some 0x7D => .ok c.bump
  | some 0x2C => c.failAhead .trailingComma
  | some _ => c.failAhead .trailingCharacters
  | none => c.failAhead .eofWhileParsingObject

def readValue (c : Cursor) : Except Located (Limits × Cursor) :=
  let c := c.skipBlank
  match c.peek with
  | none => c.failAhead .eofWhileParsingValue
  | some 0x5B =>
    match readElement true c.bump with
    | .error e => .error e
    | .ok (depth, first, c) =>
      match readElement first c with
      | .error e => .error e
      | .ok (length, _, c) =>
        (closeArray c).map fun c => (ofMembers depth length, c)
  | some 0x7B =>
    let c := c.bump
    match readMembers (c.rest.length + 1) true none none c with
    | .error e => .error e
    | .ok (l, c) => (closeObject c).map fun c => (l, c)
  | some _ => .error (invalidTypeAt c recordName)

def ofJson (text : String) : Except Problem Limits :=
  let bytes := text.toUTF8.toList
  let whole : Except Located Limits :=
    match readValue (Cursor.ofBytes bytes) with
    | .error e => .error e
    | .ok (l, c) =>
      let c := c.skipBlank
      if c.rest.isEmpty then .ok l else c.failAhead .trailingCharacters
  match whole with
  | .error (e, i) =>
    let (line, column) := position bytes i
    .error (.unreadable e line column)
  | .ok l => l.check

/-- Where limits come from: the defaults, limits given as they are (not checked), or JSON text
that is read and checked. -/
inductive Source where
  | defaults
  | given (l : Limits)
  | json (text : String)
deriving Inhabited

def Source.resolve : Source → Except Problem Limits
  | .defaults => .ok {}
  | .given l => .ok l
  | .json text => ofJson text

end Limits

end Recalc
