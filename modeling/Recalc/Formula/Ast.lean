import Recalc.Formula.Parse

/-! # Reading formulas into an arena: each node is pushed once its operands are read -/

namespace Recalc.Formula

/-- A formula read from text: its nodes in the order they were pushed, and the place of the root. -/
structure Ast where
  nodes : Array Node
  root : Nat
deriving Inhabited

/-- The names the nodes of an arena read, in the order of the arena, each once. -/
def Ast.identifiers (a : Ast) : List String :=
  firstOccurrences (a.nodes.toList.filterMap Node.name?)

def push (arena : Array Node) (node : Node) : Nat × Array Node :=
  let arena := arena.push node
  (arena.size - 1, arena)

/-- A reading that pushed its nodes: the place of the node that stands for the phrase, the arena,
and the tokens after the phrase. -/
abbrev Pushed (ts : Tokens) := Except Error (Nat × Array Node × { r : Tokens // r.size ≤ ts.size })

mutual

/-- `sum := product (('+' | '-') product)*` -/
def pushSum (limit depth : Nat) (arena : Array Node) (ts : Tokens) : Pushed ts :=
  match pushProduct limit depth arena ts with
  | .error e => .error e
  | .ok (lhs, arena, ⟨r, hr⟩) =>
    match pushSumTail limit depth lhs arena r with
    | .error e => .error e
    | .ok (i, arena, ⟨r', hr'⟩) => .ok (i, arena, ⟨r', Nat.le_trans hr' hr⟩)
termination_by ts.size * 8 + 6
decreasing_by all_goals omega

/-- The loop of a sum, `lhs` being the place of what precedes it. -/
def pushSumTail (limit depth lhs : Nat) (arena : Array Node) (ts : Tokens) : Pushed ts :=
  match ts with
  | .cons t rest =>
    match sumOp? t.symbol with
    | some op =>
      match advance rest with
      | .error e => .error e
      | .ok ⟨r1, h1⟩ =>
        match pushProduct limit depth arena r1 with
        | .error e => .error e
        | .ok (rhs, arena, ⟨r2, h2⟩) =>
          let (i, arena) := push arena (.bin op lhs rhs)
          match pushSumTail limit depth i arena r2 with
          | .error e => .error e
          | .ok (j, arena, ⟨r3, h3⟩) => .ok (j, arena, ⟨r3, by simp only [Tokens.size]; omega⟩)
    | none => .ok (lhs, arena, ⟨.cons t rest, Nat.le_refl _⟩)
  | ts => .ok (lhs, arena, ⟨ts, Nat.le_refl _⟩)
termination_by ts.size * 8 + 5
decreasing_by all_goals (simp only [Tokens.size]; omega)

/-- `product := unary (('*' | '/') unary)*` -/
def pushProduct (limit depth : Nat) (arena : Array Node) (ts : Tokens) : Pushed ts :=
  match pushUnary limit depth arena ts with
  | .error e => .error e
  | .ok (lhs, arena, ⟨r, hr⟩) =>
    match pushProductTail limit depth lhs arena r with
    | .error e => .error e
    | .ok (i, arena, ⟨r', hr'⟩) => .ok (i, arena, ⟨r', Nat.le_trans hr' hr⟩)
termination_by ts.size * 8 + 4
decreasing_by all_goals omega

def pushProductTail (limit depth lhs : Nat) (arena : Array Node) (ts : Tokens) : Pushed ts :=
  match ts with
  | .cons t rest =>
    match productOp? t.symbol with
    | some op =>
      match advance rest with
      | .error e => .error e
      | .ok ⟨r1, h1⟩ =>
        match pushUnary limit depth arena r1 with
        | .error e => .error e
        | .ok (rhs, arena, ⟨r2, h2⟩) =>
          let (i, arena) := push arena (.bin op lhs rhs)
          match pushProductTail limit depth i arena r2 with
          | .error e => .error e
          | .ok (j, arena, ⟨r3, h3⟩) => .ok (j, arena, ⟨r3, by simp only [Tokens.size]; omega⟩)
    | none => .ok (lhs, arena, ⟨.cons t rest, Nat.le_refl _⟩)
  | ts => .ok (lhs, arena, ⟨ts, Nat.le_refl _⟩)
termination_by ts.size * 8 + 3
decreasing_by all_goals (simp only [Tokens.size]; omega)

/-- `unary := '-' unary | power`, one level deeper than `depth`. -/
def pushUnary (limit depth : Nat) (arena : Array Node) (ts : Tokens) : Pushed ts :=
  if limit < depth + 1 then .error (.nestingTooDeep limit)
  else
    match ts with
    | .cons ⟨.minus, _⟩ rest =>
      match advance rest with
      | .error e => .error e
      | .ok ⟨r1, h1⟩ =>
        match pushUnary limit (depth + 1) arena r1 with
        | .error e => .error e
        | .ok (a, arena, ⟨r2, h2⟩) =>
          let (i, arena) := push arena (.neg a)
          .ok (i, arena, ⟨r2, by simp only [Tokens.size]; omega⟩)
    | ts => pushPower limit (depth + 1) arena ts
termination_by ts.size * 8 + 2
decreasing_by all_goals (try simp only [Tokens.size]); all_goals omega

/-- `power := primary ('^' unary)?` -/
def pushPower (limit depth : Nat) (arena : Array Node) (ts : Tokens) : Pushed ts :=
  match pushPrimary limit depth arena ts with
  | .error e => .error e
  | .ok (base, arena, ⟨r, hr⟩) =>
    match hc : r with
    | .cons ⟨.caret, _⟩ rest =>
      match advance rest with
      | .error e => .error e
      | .ok ⟨r1, h1⟩ =>
        match pushUnary limit depth arena r1 with
        | .error e => .error e
        | .ok (ex, arena, ⟨r2, h2⟩) =>
          let (i, arena) := push arena (.bin .pow base ex)
          .ok (i, arena, ⟨r2, by subst hc; simp only [Tokens.size] at hr; omega⟩)
    | other => .ok (base, arena, ⟨other, hr⟩)
termination_by ts.size * 8 + 1
decreasing_by
  all_goals (try subst hc)
  all_goals (try simp only [Tokens.size] at *)
  all_goals omega

/-- `primary := number | name | '(' sum ')'` -/
def pushPrimary (limit depth : Nat) (arena : Array Node) (ts : Tokens) : Pushed ts :=
  match ts with
  | .cons ⟨.number v, _⟩ rest =>
    match advance rest with
    | .error e => .error e
    | .ok ⟨r, h⟩ =>
      let (i, arena) := push arena (.num v)
      .ok (i, arena, ⟨r, by simp only [Tokens.size]; omega⟩)
  | .cons ⟨.name x, _⟩ rest =>
    match advance rest with
    | .error e => .error e
    | .ok ⟨r, h⟩ =>
      let (i, arena) := push arena (.var x)
      .ok (i, arena, ⟨r, by simp only [Tokens.size]; omega⟩)
  | .cons ⟨.openParen, opened⟩ rest =>
    match advance rest with
    | .error e => .error e
    | .ok ⟨r1, h1⟩ =>
      match pushSum limit depth arena r1 with
      | .error e => .error e
      | .ok (inner, arena, ⟨r2, h2⟩) =>
        match hc : r2 with
        | .cons ⟨.closeParen, _⟩ rest' =>
          match advance rest' with
          | .error e => .error e
          | .ok ⟨r3, h3⟩ =>
            .ok (inner, arena, ⟨r3, by subst hc; simp only [Tokens.size] at h2 ⊢; omega⟩)
        | other => .error (.malformed other.pos (.unclosed opened))
  | .cons ⟨s, pos⟩ _ => .error (.malformed pos (.expectedOperand (some s)))
  | .done pos => .error (.malformed pos (.expectedOperand none))
  | .fault pos p => .error (.malformed pos p)
termination_by ts.size * 8
decreasing_by all_goals (simp only [Tokens.size]; omega)

end

/-- Reads a formula text into an arena under the given limits, with the checks of `parse`: the
length first, then that the text is not blank, then the first token. -/
def parseAst (limits : Limits) (src : String) : Except Error Ast :=
  if limits.maxLength < src.utf8ByteSize then
    .error (.malformed limits.maxLength (.tooLong src.utf8ByteSize limits.maxLength))
  else if Text.isBlankText src then .error (.malformed 0 .empty)
  else
    match Tokens.scan src with
    | .fault pos p => .error (.malformed pos p)
    | ts =>
      match pushSum limits.maxDepth 0 #[] ts with
      | .error e => .error e
      | .ok (root, nodes, ⟨.done _, _⟩) => .ok ⟨nodes, root⟩
      | .ok (_, _, ⟨.cons t _, _⟩) => .error (.malformed t.pos (.trailing t.symbol))
      | .ok (_, _, ⟨.fault pos p, _⟩) => .error (.malformed pos p)

end Recalc.Formula
