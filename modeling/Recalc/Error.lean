import Recalc.Formula.Token
import Recalc.Limits
import Recalc.Text.Classes

/-! # Every way an operation can fail, and the message each cause is shown with -/

namespace Recalc

/-- Why an operation fails. -/
inductive Error where
  /-- formula text that cannot be read, with the byte offset of the problem -/
  | malformed (pos : Nat) (problem : Formula.Problem)
  /-- a formula names a variable the registry does not hold -/
  | unknownVariable (name : String)
  /-- a formula nests deeper than the limit -/
  | nestingTooDeep (limit : Nat)
  | duplicateName (name : String)
  /-- a handle whose variable was removed -/
  | removedVariable (id : Nat)
  /-- a formula bound to another registry -/
  | foreignFormula (source : String)
  /-- a formula reading a variable removed since it was compiled -/
  | removedReference (name : String)
  | notConstant (name : String)
  /-- a handle of another registry -/
  | foreignVariable
  /-- registering `name` would make it read itself along `path` (starting with `name`) -/
  | cyclicReference (name : String) (path : List String)
  /-- `name` cannot be removed while the variables `readers` read it -/
  | stillReferenced (name : String) (readers : List String)
  | invalidLimits (problem : Limits.Problem)
deriving Inhabited

namespace Formula

/-- Numbers in formula messages: positional whatever their size, integers without a point, a tie
between two shortest decimals to the larger, infinity as `inf`. -/
def numberText : Notation :=
  { maxIntegerDigits := none, maxLeadingZeros := none, pointZero := false,
    plusExponent := false, tie := .up, infinity := "inf", nan := "NaN" }

def Symbol.describe : Symbol → String
  | .number value => "number " ++ numberText.render value
  | .name text => "identifier '" ++ text ++ "'"
  | .plus => "'+'"
  | .minus => "'-'"
  | .times => "'*'"
  | .divide => "'/'"
  | .caret => "'^'"
  | .openParen => "'('"
  | .closeParen => "')'"

def describeFound : Option Symbol → String
  | some s => s.describe
  | none => "end of input"

def Problem.message : Problem → String
  | .tooLong length limit =>
    s!"expression is {length} bytes, longer than the limit of {limit}"
  | .empty => "empty expression"
  | .unexpectedChar c => "unexpected character '" ++ String.singleton c ++ "'"
  | .expectedDigits => "expected digits"
  | .expectedExponentDigits => "expected exponent digits"
  | .expectedOperand found => "expected a number, variable or '(', found " ++ describeFound found
  | .unclosed openedAt => s!"expected ')' to close '(' at {openedAt}"
  | .trailing found => "unexpected " ++ found.describe ++ " after expression"

end Formula

namespace Json

def Fault.message : Fault → String
  | .eofWhileParsingList => "EOF while parsing a list"
  | .eofWhileParsingObject => "EOF while parsing an object"
  | .eofWhileParsingString => "EOF while parsing a string"
  | .eofWhileParsingValue => "EOF while parsing a value"
  | .expectedColon => "expected `:`"
  | .expectedListCommaOrEnd => "expected `,` or `]`"
  | .expectedObjectCommaOrEnd => "expected `,` or `\x7d`"
  | .expectedSomeIdent => "expected ident"
  | .expectedSomeValue => "expected value"
  | .invalidEscape => "invalid escape"
  | .invalidNumber => "invalid number"
  | .numberOutOfRange => "number out of range"
  | .controlCharacterWhileParsingString =>
    "control character (\\u0000-\\u001F) found while parsing a string"
  | .keyMustBeAString => "key must be a string"
  | .loneLeadingSurrogateInHexEscape => "lone leading surrogate in hex escape"
  | .trailingComma => "trailing comma"
  | .trailingCharacters => "trailing characters"
  | .unexpectedEndOfHexEscape => "unexpected end of hex escape"

def hexDigits (n : Nat) : String :=
  String.ofList (Nat.toDigits 16 n)

/-- One character of a quoted found string: the quote and the backslash behind a backslash, the
line feed, carriage return, tab and NUL by their short escapes, and the characters that
`Text.isShownByCode` picks by their code in hex; every other character as itself. -/
def quoteFoundChar (c : Char) : String :=
  if c = '"' then "\\\""
  else if c = '\\' then "\\\\"
  else if c = '\n' then "\\n"
  else if c = '\r' then "\\r"
  else if c = '\t' then "\\t"
  else if c.toNat = 0 then "\\0"
  else if Text.isShownByCode c then "\\u" ++ "\x7b" ++ hexDigits c.toNat ++ "\x7d"
  else String.singleton c

def Found.message : Found → String
  | .bool b => "boolean `" ++ (if b then "true" else "false") ++ "`"
  | .unsigned n => s!"integer `{n}`"
  | .signed i => s!"integer `{i}`"
  | .float x => "floating point `" ++ numberText.render x ++ "`"
  | .str s => "string \"" ++ String.join (s.toList.map quoteFoundChar) ++ "\""
  | .null => "null"
  | .seq => "sequence"
  | .map => "map"

def oneOf : List String → String
  | [] => "there are no fields"
  | [a] => "expected `" ++ a ++ "`"
  | [a, b] => "expected `" ++ a ++ "` or `" ++ b ++ "`"
  | names => "expected one of " ++ ", ".intercalate (names.map fun n => "`" ++ n ++ "`")

def ReadError.message : ReadError → String
  | .fault f => f.message
  | .invalidType found expected => "invalid type: " ++ found.message ++ ", expected " ++ expected
  | .invalidValue found expected => "invalid value: " ++ found.message ++ ", expected " ++ expected
  | .unknownField name [] => "unknown field `" ++ name ++ "`, " ++ oneOf []
  | .unknownField name fields => "unknown field `" ++ name ++ "`, " ++ oneOf fields
  | .duplicateField name => "duplicate field `" ++ name ++ "`"

end Json

def Limits.Problem.message : Limits.Problem → String
  | .unreadable e line column => s!"{e.message} at line {line} column {column}"
  | .depthZero => "max_nesting_depth must be at least 1"
  | .lengthZero => "max_expression_len must be at least 1"

def Error.message : Error → String
  | .malformed pos problem => s!"syntax error at position {pos}: {problem.message}"
  | .unknownVariable name => "unknown variable '" ++ name ++ "'"
  | .nestingTooDeep limit => s!"expression nesting exceeds the limit of {limit}"
  | .duplicateName name => "a variable named '" ++ name ++ "' already exists"
  | .removedVariable id => s!"unknown reference: variable #{id} no longer exists"
  | .foreignFormula source => "unknown reference: '" ++ source ++ "' was compiled against a different registry"
  | .removedReference name => "unknown reference: '" ++ name ++ "' no longer exists"
  | .notConstant name => "'" ++ name ++ "' is not a constant"
  | .foreignVariable => "variable handle belongs to a different registry"
  | .cyclicReference name path =>
    "cyclic reference: '" ++ name ++ "' would depend on itself via " ++ " -> ".intercalate path
  | .stillReferenced name readers =>
    "cannot remove '" ++ name ++ "': referenced by " ++ ", ".intercalate readers
  | .invalidLimits problem => "invalid configuration: " ++ problem.message

end Recalc
