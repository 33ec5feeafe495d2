import Recalc.Registry.Graph
import Recalc.Formula.Parse
import Recalc.Program.Basic

/-! # Compiling against a registry and changing it -/

namespace Recalc.Registry

/-! ## Compiling -/

/-- The places of the variables with the given names; the first name without a variable fails. -/
def bindNames (r : Registry) : List String → Except Error (List Nat)
  | [] => .ok []
  | x :: xs =>
    match r.find? x with
    | some id => (bindNames r xs).map (id :: ·)
    | none => .error (.unknownVariable x)

def compile (r : Registry) (limits : Limits) (src : String) : Except Error BoundFormula := do
  let f ← Formula.parse limits src
  let names := f.identifiers
  let refs ← r.bindNames names
  let program ← Program.lower names f
  return { home := r.ident, source := src, names, refs, program }

/-! ## Registering -/

/-- The first reference of a formula whose variable is gone, by name. -/
def removedReference? (r : Registry) (f : BoundFormula) : Option String :=
  ((f.refs.zip f.names).find? fun (id, _) => (r.get? id).isNone).map (·.2)

/-- Whether a variable may be registered as it is. -/
def checkNew (r : Registry) (v : Variable) : Except Error Unit := do
  if let some f := v.formula? then
    if f.home ≠ r.ident then throw (.foreignFormula f.source)
    if let some name := r.removedReference? f then throw (.removedReference name)
  if let some existing := r.find? v.name then
    match r.findPath v.refs existing with
    | some path => throw (.cyclicReference v.name (v.name :: path.map r.nameOf))
    | none => throw (.duplicateName v.name)

def register (r : Registry) (v : Variable) : Except Error (Nat × Registry) := do
  r.checkNew v
  return (r.slots.size, { r with slots := r.slots.push (some v) })

def addConstant (r : Registry) (name : String) (x : Float) : Except Error (Nat × Registry) :=
  r.register ⟨name, .constant x⟩

/-- Registers a delegate: a variable that computes its formula on every read. -/
def addDelegate (r : Registry) (name : String) (f : BoundFormula) : Except Error (Nat × Registry) :=
  r.register ⟨name, .delegate f⟩

/-- Registers a lazy variable: one that keeps its formula's value until what it reads changes. -/
def addLazy (r : Registry) (name : String) (f : BoundFormula) : Except Error (Nat × Registry) :=
  r.register ⟨name, .lazy f .stale⟩

def addConstants (r : Registry) : List (String × Float) → Except Error Registry
  | [] => .ok r
  | (name, x) :: rest =>
    match r.addConstant name x with
    | .error e => .error e
    | .ok (_, r') => r'.addConstants rest

/-! ## Assigning and removing -/

/-- Gives a constant a new value and makes every lazy variable downstream of it stale. Once the
handle resolves, its place is looked up again, and a miss there counts as a foreign handle. -/
def setConstant (r : Registry) (h : Handle) (x : Float) : Except Error Registry := do
  let (id, _) ← r.resolve h
  let some v := r.get? id | throw .foreignVariable
  match v.body with
  | .constant _ =>
    let r' := r.modify id fun v => { v with body := .constant x }
    return (r'.walk id .readBy).foldl (fun s j => s.modify j Variable.invalidate) r'
  | _ => throw (.notConstant v.name)

/-- Removes a variable that no variable reads. -/
def remove (r : Registry) (h : Handle) : Except Error Registry := do
  let (id, v) ← r.resolve h
  match r.readersOf id with
  | [] => return { r with slots := r.slots.set! id none }
  | readers => throw (.stillReferenced v.name (sortNames (readers.map r.nameOf)))

end Recalc.Registry
