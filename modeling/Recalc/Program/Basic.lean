import Recalc.Formula.Tree
import Recalc.Json.Value
import Recalc.Error

/-! # Programs run in one pass with IEEE arithmetic, their JSON form, and the lowering of formulas -/

namespace Recalc

/-- What a step computes. -/
inductive Program.Code where
  | add
  | sub
  | mul
  | div
  | pow
  | neg
  | const
  | load
deriving Repr, DecidableEq, Inhabited

/-- An operand: the value of an earlier step, a number, or an input. -/
inductive Program.Operand where
  | ref (step : Nat)
  | lit (value : Float)
  | input (slot : Nat)
deriving Repr, Inhabited

/-- One step: its code, the number of the value it writes, and its operands. -/
structure Program.Op where
  code : Program.Code
  result : Nat
  operands : List Program.Operand
deriving Repr, Inhabited

/-- A program: its steps, the value that is its result, and how many inputs it reads. -/
structure Program where
  ops : List Program.Op
  output : Nat
  inputs : Nat
deriving Repr, Inhabited

namespace Program

def Code.ofBinOp : Formula.BinOp → Code
  | .add => .add
  | .sub => .sub
  | .mul => .mul
  | .div => .div
  | .pow => .pow

def Code.name : Code → String
  | .add => "add"
  | .sub => "sub"
  | .mul => "mul"
  | .div => "div"
  | .pow => "pow"
  | .neg => "neg"
  | .const => "const"
  | .load => "load"

/-- The value of an operand, given the values computed so far and the inputs; a place out of
range reads as zero. -/
def Operand.value (done : Array Float) (inputs : Array Float) : Operand → Float
  | .ref k => done.getD k 0
  | .lit x => x
  | .input s => inputs.getD s 0

def Op.apply (done : Array Float) (inputs : Array Float) (op : Op) : Float :=
  let arg (i : Nat) : Float := (op.operands.getD i (.lit 0)).value done inputs
  match op.code with
  | .const | .load => arg 0
  | .neg => -(arg 0)
  | .add => arg 0 + arg 1
  | .sub => arg 0 - arg 1
  | .mul => arg 0 * arg 1
  | .div => arg 0 / arg 1
  | .pow => Float.pow (arg 0) (arg 1)

def values (p : Program) (inputs : List Float) : Array Float :=
  let ins := inputs.toArray
  p.ops.foldl (fun done op => done.push (op.apply done ins)) #[]

/-- Runs a program on its inputs, in slot order. -/
def run (p : Program) (inputs : List Float) : Float :=
  (p.values inputs).getD p.output 0

/-! ## Programs as JSON -/

def Operand.toJson : Operand → Json
  | .ref k => .obj [("ref", .nat k)]
  | .lit x => .obj [("float", .num x)]
  | .input s => .obj [("input", .nat s)]

def Op.toJson (op : Op) : Json :=
  .obj [("op", .str op.code.name), ("result", .nat op.result),
    ("operands", .arr (op.operands.map Operand.toJson))]

def toJson (p : Program) : Json :=
  .obj [("ops", .arr (p.ops.map Op.toJson)), ("output", .nat p.output), ("inputs", .nat p.inputs)]

/-! ## Lowering formulas: node `i` of the post-order layout becomes step `i` -/

/-- The slot of a name: its place in `slots`. -/
def slotOf? (slots : List String) (name : String) : Option Nat :=
  slots.findIdx? (· == name)

/-- The step for node `i`; a name without a slot is an unknown variable. -/
def lowerNode (slots : List String) (i : Nat) : Formula.Node → Except Error Op
  | .num v => .ok ⟨.const, i, [.lit v]⟩
  | .var x =>
    match slotOf? slots x with
    | some s => .ok ⟨.load, i, [.input s]⟩
    | none => .error (.unknownVariable x)
  | .neg a => .ok ⟨.neg, i, [.ref a]⟩
  | .bin op l r => .ok ⟨.ofBinOp op, i, [.ref l, .ref r]⟩

/-- The steps for nodes numbered from `i`. -/
def lowerNodes (slots : List String) : Nat → List Formula.Node → Except Error (List Op)
  | _, [] => .ok []
  | i, n :: ns =>
    match lowerNode slots i n with
    | .error e => .error e
    | .ok op => (lowerNodes slots (i + 1) ns).map (op :: ·)

/-- The program of a formula whose names read the inputs `slots`. -/
def lower (slots : List String) (f : Formula) : Except Error Program :=
  (lowerNodes slots 0 f.nodes).map fun ops => ⟨ops, f.root, slots.length⟩

end Program

end Recalc
