import Recalc.Text.Classes
import Recalc.Decimal.Basic

/-! # Formula tokens at the byte offsets of their lexemes; the stream ends at the end of the text or
at the first place no token can be read -/

namespace Recalc.Formula

/-- What a token stands for. The operator spellings `×`, `÷` and `−` read as `*`, `/` and `-`. -/
inductive Symbol where
  | number (value : Float)
  | name (text : String)
  | plus
  | minus
  | times
  | divide
  | caret
  | openParen
  | closeParen
deriving Repr, Inhabited

/-- A symbol and the byte offset of its first character. -/
structure Token where
  symbol : Symbol
  pos : Nat
deriving Repr, Inhabited

/-- Why a formula text cannot be read. -/
inductive Problem where
  /-- the text has `length` bytes, more than `limit` -/
  | tooLong (length limit : Nat)
  /-- the text holds only blanks -/
  | empty
  | unexpectedChar (c : Char)
  /-- a point with no digit on either side -/
  | expectedDigits
  /-- an exponent mark with no digit after it -/
  | expectedExponentDigits
  /-- an operand is missing; `none` is the end of the text -/
  | expectedOperand (found : Option Symbol)
  /-- the parenthesis opened at that offset is not closed -/
  | unclosed (openedAt : Nat)
  /-- a complete formula is followed by more -/
  | trailing (found : Symbol)
deriving Repr, Inhabited

/-- The tokens of a text from some offset on. -/
inductive Tokens where
  /-- no token is left; the text ends at `pos` -/
  | done (pos : Nat)
  /-- the next token cannot be read -/
  | fault (pos : Nat) (problem : Problem)
  | cons (tok : Token) (rest : Tokens)
deriving Repr, Inhabited

/-- The symbol of a character that is a token on its own. -/
def singleSymbol? (c : Char) : Option Symbol :=
  if c = '+' then some .plus
  else if c = '-' || c = '−' then some .minus
  else if c = '*' || c = '×' then some .times
  else if c = '/' || c = '÷' then some .divide
  else if c = '^' then some .caret
  else if c = '(' then some .openParen
  else if c = ')' then some .closeParen
  else none

/-- Characters that may continue a name: ASCII letters and digits, and the underscore. -/
def isNameChar (c : Char) : Bool := c.isAlphanum || c = '_'

/-- Characters that may start a name: ASCII letters and the underscore. -/
def isNameStart (c : Char) : Bool := c.isAlpha || c = '_'

/-- Reads the numeral at the front of `cs`: digits, then optionally a point and digits, with a
digit on at least one side of the point, then optionally `e` or `E`, a sign and digits. Gives the
number of characters read and the nearest float, or the offset and kind of the problem. -/
def readNumeral (cs : List Char) : Except (Nat × Problem) (Nat × Float) :=
  let whole := cs.takeWhile Char.isDigit
  let (pointLen, frac) : Nat × List Char :=
    match cs.drop whole.length with
    | '.' :: t => (1, t.takeWhile Char.isDigit)
    | _ => (0, [])
  if whole.isEmpty && frac.isEmpty then .error (0, .expectedDigits)
  else
    let mantLen := whole.length + pointLen + frac.length
    let mant := Decimal.digitValue (whole ++ frac)
    let plain : Decimal := ⟨mant, -(frac.length : Int)⟩
    match cs.drop mantLen with
    | e :: t =>
      if e = 'e' || e = 'E' then
        let (signLen, negative) : Nat × Bool :=
          match t with
          | '+' :: _ => (1, false)
          | '-' :: _ => (1, true)
          | _ => (0, false)
        let ds := (t.drop signLen).takeWhile Char.isDigit
        if ds.isEmpty then .error (mantLen + 1 + signLen, .expectedExponentDigits)
        else
          let scale : Int := if negative then -(Decimal.digitValue ds : Int) else Decimal.digitValue ds
          .ok (mantLen + 1 + signLen + ds.length, (Decimal.mk mant (scale - frac.length)).toFloat)
      else .ok (mantLen, plain.toFloat)
    | [] => .ok (mantLen, plain.toFloat)

/-- The tokens of the characters `cs`, the first of which sits at byte offset `pos`. -/
def Tokens.scanFrom (pos : Nat) : List Char → Tokens
  | [] => .done pos
  | c :: cs =>
    if Text.isBlank c then scanFrom (pos + c.utf8Size) cs
    else
      match singleSymbol? c with
      | some s => .cons ⟨s, pos⟩ (scanFrom (pos + c.utf8Size) cs)
      | none =>
        if c.isDigit || c = '.' then
          match readNumeral (c :: cs) with
          | .error (off, p) => .fault (pos + off) p
          | .ok (n, v) => .cons ⟨.number v, pos⟩ (scanFrom (pos + n) (cs.drop (n - 1)))
        else if isNameStart c then
          let body := cs.takeWhile isNameChar
          .cons ⟨.name (String.ofList (c :: body)), pos⟩
            (scanFrom (pos + 1 + body.length) (cs.drop body.length))
        else .fault pos (.unexpectedChar c)
termination_by cs => cs.length
decreasing_by
  all_goals simp only [List.length_cons, List.length_drop]
  all_goals omega

def Tokens.scan (s : String) : Tokens :=
  scanFrom 0 s.toList

def Tokens.size : Tokens → Nat
  | .cons _ rest => rest.size + 1
  | _ => 0

end Recalc.Formula
