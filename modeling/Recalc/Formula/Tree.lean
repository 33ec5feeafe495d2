import Recalc.Formula.Token

/-! # Formula trees, their post-order layout, and the names they read in order of first occurrence -/

namespace Recalc

/-- Keeps the first occurrence of each element, in order. -/
def firstOccurrences {α : Type} [BEq α] (xs : List α) : List α :=
  xs.foldl (fun seen x => if seen.contains x then seen else seen ++ [x]) []

/-- The binary operations of formulas. -/
inductive Formula.BinOp where
  | add
  | sub
  | mul
  | div
  | pow
deriving Repr, DecidableEq, Inhabited

inductive Formula where
  | num (value : Float)
  | var (name : String)
  | neg (arg : Formula)
  | bin (op : Formula.BinOp) (lhs rhs : Formula)
deriving Repr, Inhabited

namespace Formula

/-- One node of a post-order layout; operands are the places of earlier nodes. -/
inductive Node where
  | num (value : Float)
  | var (name : String)
  | neg (arg : Nat)
  | bin (op : BinOp) (lhs rhs : Nat)
deriving Repr, Inhabited

def Node.name? : Node → Option String
  | .var x => some x
  | _ => none

/-- IEEE arithmetic of an operation; `pow` is the C library's `pow`. -/
def BinOp.apply : BinOp → Float → Float → Float
  | .add, x, y => x + y
  | .sub, x, y => x - y
  | .mul, x, y => x * y
  | .div, x, y => x / y
  | .pow, x, y => Float.pow x y

def size : Formula → Nat
  | .num _ => 1
  | .var _ => 1
  | .neg a => a.size + 1
  | .bin _ l r => l.size + r.size + 1

/-- Appends the nodes of a formula in post-order to `acc`, which holds `count` nodes, each operand
named by its place in the whole array; gives the array and its new count. Places are counted
rather than read off the array, so the array is never shared while it grows. -/
def pushNodes : Formula → Array Node × Nat → Array Node × Nat
  | .num v, (acc, count) => (acc.push (.num v), count + 1)
  | .var x, (acc, count) => (acc.push (.var x), count + 1)
  | .neg a, state =>
    let (acc, count) := a.pushNodes state
    (acc.push (.neg (count - 1)), count + 1)
  | .bin op l r, state =>
    let (acc, countL) := l.pushNodes state
    let (acc, countR) := r.pushNodes (acc, countL)
    (acc.push (.bin op (countL - 1) (countR - 1)), countR + 1)

def nodes (f : Formula) : List Node := (f.pushNodes (#[], 0)).1.toList

def root (f : Formula) : Nat := f.size - 1

/-- Appends the variable names of a formula to `acc`, left to right, with repeats. -/
def pushNames : Formula → Array String → Array String
  | .num _, acc => acc
  | .var x, acc => acc.push x
  | .neg a, acc => a.pushNames acc
  | .bin _ l r, acc => r.pushNames (l.pushNames acc)

def names (f : Formula) : List String := (f.pushNames #[]).toList

def identifiers (f : Formula) : List String := firstOccurrences f.names

/-- The value of a formula, each name read through `env`. -/
def eval (env : String → Float) : Formula → Float
  | .num v => v
  | .var x => env x
  | .neg a => -(a.eval env)
  | .bin op l r => op.apply (l.eval env) (r.eval env)

end Formula

end Recalc
