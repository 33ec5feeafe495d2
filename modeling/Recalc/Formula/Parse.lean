import Recalc.Formula.Tree
import Recalc.Error

/-! # Reading formulas by recursive descent: `+ - * /` group to the left, `^` to the right and
tighter than a leading minus, and each entry into `unary` is one level of nesting -/

namespace Recalc.Formula

def Tokens.pos : Tokens → Nat
  | .done pos => pos
  | .fault pos _ => pos
  | .cons t _ => t.pos

/-- Moves onto `rest`, the tokens after the current one; a token there that cannot be read fails
now. -/
def advance (rest : Tokens) : Except Error { r : Tokens // r.size ≤ rest.size } :=
  match rest with
  | .fault pos p => .error (.malformed pos p)
  | r => .ok ⟨r, Nat.le_refl _⟩

/-- A parse of a rule: the tree and the tokens after it. -/
abbrev Parsed (ts : Tokens) := Except Error (Formula × { r : Tokens // r.size ≤ ts.size })

def sumOp? : Symbol → Option BinOp
  | .plus => some .add
  | .minus => some .sub
  | _ => none

def productOp? : Symbol → Option BinOp
  | .times => some .mul
  | .divide => some .div
  | _ => none

mutual

/-- `sum := product (('+' | '-') product)*` -/
def sum (limit depth : Nat) (ts : Tokens) : Parsed ts :=
  match product limit depth ts with
  | .error e => .error e
  | .ok (lhs, ⟨r, hr⟩) =>
    match sumTail limit depth lhs r with
    | .error e => .error e
    | .ok (f, ⟨r', hr'⟩) => .ok (f, ⟨r', Nat.le_trans hr' hr⟩)
termination_by ts.size * 8 + 6
decreasing_by all_goals omega

/-- The `(('+' | '-') product)*` part of a sum, `lhs` being what precedes it. -/
def sumTail (limit depth : Nat) (lhs : Formula) (ts : Tokens) : Parsed ts :=
  match ts with
  | .cons t rest =>
    match sumOp? t.symbol with
    | some op =>
      match advance rest with
      | .error e => .error e
      | .ok ⟨r1, h1⟩ =>
        match product limit depth r1 with
        | .error e => .error e
        | .ok (rhs, ⟨r2, h2⟩) =>
          match sumTail limit depth (.bin op lhs rhs) r2 with
          | .error e => .error e
          | .ok (f, ⟨r3, h3⟩) => .ok (f, ⟨r3, by simp only [Tokens.size]; omega⟩)
    | none => .ok (lhs, ⟨.cons t rest, Nat.le_refl _⟩)
  | ts => .ok (lhs, ⟨ts, Nat.le_refl _⟩)
termination_by ts.size * 8 + 5
decreasing_by all_goals (simp only [Tokens.size]; omega)

/-- `product := unary (('*' | '/') unary)*` -/
def product (limit depth : Nat) (ts : Tokens) : Parsed ts :=
  match unary limit depth ts with
  | .error e => .error e
  | .ok (lhs, ⟨r, hr⟩) =>
    match productTail limit depth lhs r with
    | .error e => .error e
    | .ok (f, ⟨r', hr'⟩) => .ok (f, ⟨r', Nat.le_trans hr' hr⟩)
termination_by ts.size * 8 + 4
decreasing_by all_goals omega

def productTail (limit depth : Nat) (lhs : Formula) (ts : Tokens) : Parsed ts :=
  match ts with
  | .cons t rest =>
    match productOp? t.symbol with
    | some op =>
      match advance rest with
      | .error e => .error e
      | .ok ⟨r1, h1⟩ =>
        match unary limit depth r1 with
        | .error e => .error e
        | .ok (rhs, ⟨r2, h2⟩) =>
          match productTail limit depth (.bin op lhs rhs) r2 with
          | .error e => .error e
          | .ok (f, ⟨r3, h3⟩) => .ok (f, ⟨r3, by simp only [Tokens.size]; omega⟩)
    | none => .ok (lhs, ⟨.cons t rest, Nat.le_refl _⟩)
  | ts => .ok (lhs, ⟨ts, Nat.le_refl _⟩)
termination_by ts.size * 8 + 3
decreasing_by all_goals (simp only [Tokens.size]; omega)

/-- `unary := '-' unary | power`, one level deeper than `depth`. -/
def unary (limit depth : Nat) (ts : Tokens) : Parsed ts :=
  if limit < depth + 1 then .error (.nestingTooDeep limit)
  else
    match ts with
    | .cons ⟨.minus, _⟩ rest =>
      match advance rest with
      | .error e => .error e
      | .ok ⟨r1, h1⟩ =>
        match unary limit (depth + 1) r1 with
        | .error e => .error e
        | .ok (a, ⟨r2, h2⟩) => .ok (.neg a, ⟨r2, by simp only [Tokens.size]; omega⟩)
    | ts => power limit (depth + 1) ts
termination_by ts.size * 8 + 2
decreasing_by all_goals (try simp only [Tokens.size]); all_goals omega

/-- `power := primary ('^' unary)?` -/
def power (limit depth : Nat) (ts : Tokens) : Parsed ts :=
  match primary limit depth ts with
  | .error e => .error e
  | .ok (base, ⟨r, hr⟩) =>
    match hc : r with
    | .cons ⟨.caret, _⟩ rest =>
      match advance rest with
      | .error e => .error e
      | .ok ⟨r1, h1⟩ =>
        match unary limit depth r1 with
        | .error e => .error e
        | .ok (ex, ⟨r2, h2⟩) =>
          .ok (.bin .pow base ex, ⟨r2, by subst hc; simp only [Tokens.size] at hr; omega⟩)
    | other => .ok (base, ⟨other, hr⟩)
termination_by ts.size * 8 + 1
decreasing_by
  all_goals (try subst hc)
  all_goals (try simp only [Tokens.size] at *)
  all_goals omega

/-- `primary := number | name | '(' sum ')'` -/
def primary (limit depth : Nat) (ts : Tokens) : Parsed ts :=
  match ts with
  | .cons ⟨.number v, _⟩ rest =>
    match advance rest with
    | .error e => .error e
    | .ok ⟨r, h⟩ => .ok (.num v, ⟨r, by simp only [Tokens.size]; omega⟩)
  | .cons ⟨.name x, _⟩ rest =>
    match advance rest with
    | .error e => .error e
    | .ok ⟨r, h⟩ => .ok (.var x, ⟨r, by simp only [Tokens.size]; omega⟩)
  | .cons ⟨.openParen, opened⟩ rest =>
    match advance rest with
    | .error e => .error e
    | .ok ⟨r1, h1⟩ =>
      match sum limit depth r1 with
      | .error e => .error e
      | .ok (inner, ⟨r2, h2⟩) =>
        match hc : r2 with
        | .cons ⟨.closeParen, _⟩ rest' =>
          match advance rest' with
          | .error e => .error e
          | .ok ⟨r3, h3⟩ =>
            .ok (inner, ⟨r3, by subst hc; simp only [Tokens.size] at h2 ⊢; omega⟩)
        | other => .error (.malformed other.pos (.unclosed opened))
  | .cons ⟨s, pos⟩ _ => .error (.malformed pos (.expectedOperand (some s)))
  | .done pos => .error (.malformed pos (.expectedOperand none))
  | .fault pos p => .error (.malformed pos p)
termination_by ts.size * 8
decreasing_by all_goals (simp only [Tokens.size]; omega)

end

/-- Reads a formula text under the given limits. The length is checked first, then that the text
is not blank; the first token is read before any nesting is counted. -/
def parse (limits : Limits) (src : String) : Except Error Formula :=
  if limits.maxLength < src.utf8ByteSize then
    .error (.malformed limits.maxLength (.tooLong src.utf8ByteSize limits.maxLength))
  else if Text.isBlankText src then .error (.malformed 0 .empty)
  else
    match Tokens.scan src with
    | .fault pos p => .error (.malformed pos p)
    | ts =>
      match sum limits.maxDepth 0 ts with
      | .error e => .error e
      | .ok (f, ⟨.done _, _⟩) => .ok f
      | .ok (_, ⟨.cons t _, _⟩) => .error (.malformed t.pos (.trailing t.symbol))
      | .ok (_, ⟨.fault pos p, _⟩) => .error (.malformed pos p)

end Recalc.Formula
