import Recalc.Program.Basic
import Recalc.Error

/-! # Registries: named constants, delegates and lazy variables in an arena of places never reused -/

namespace Recalc

/-- A compiled formula: the registry it was compiled against, its text, the names it reads in
order of first occurrence, the places of those variables, and its program, whose input slots
follow the same order. -/
structure BoundFormula where
  home : Nat
  source : String
  names : List String
  refs : List Nat
  program : Program
deriving Inhabited

/-- The cache of a lazy variable. -/
inductive Cache where
  | stale
  | fresh (value : Float)
deriving Inhabited

/-- What defines a variable. -/
inductive Body where
  | constant (value : Float)
  | delegate (formula : BoundFormula)
  | lazy (formula : BoundFormula) (cache : Cache)
deriving Inhabited

/-- The three kinds of variables. -/
inductive Kind where
  | constant
  | delegate
  | lazy
deriving Repr, DecidableEq, Inhabited

/-- A named variable. -/
structure Variable where
  name : String
  body : Body
deriving Inhabited

/-- A reference to a variable: the registry that issued it and the variable's place. -/
structure Handle where
  home : Nat
  id : Nat
deriving Repr, DecidableEq, Inhabited

/-- A registry: its identity and the arena of its variables. -/
structure Registry where
  ident : Nat
  slots : Array (Option Variable) := #[]
deriving Inhabited

def Kind.name : Kind → String
  | .constant => "constant"
  | .delegate => "delegate"
  | .lazy => "lazy"

namespace Variable

def kind (v : Variable) : Kind :=
  match v.body with
  | .constant _ => .constant
  | .delegate _ => .delegate
  | .lazy _ _ => .lazy

def formula? (v : Variable) : Option BoundFormula :=
  match v.body with
  | .constant _ => none
  | .delegate f => some f
  | .lazy f _ => some f

/-- The places of the variables it reads; none for a constant. -/
def refs (v : Variable) : List Nat :=
  match v.formula? with
  | some f => f.refs
  | none => []

/-- The value it has without computing: a constant's value or a fresh cache. -/
def ready? (v : Variable) : Option Float :=
  match v.body with
  | .constant x => some x
  | .delegate _ => none
  | .lazy _ .stale => none
  | .lazy _ (.fresh x) => some x

def cache? (v : Variable) : Option Cache :=
  match v.body with
  | .lazy _ c => some c
  | _ => none

/-- Records a computed value: a lazy variable keeps it, the others are unchanged. -/
def remember (v : Variable) (x : Float) : Variable :=
  match v.body with
  | .lazy f _ => { v with body := .lazy f (.fresh x) }
  | _ => v

def invalidate (v : Variable) : Variable :=
  match v.body with
  | .lazy f _ => { v with body := .lazy f .stale }
  | _ => v

end Variable

namespace Registry

def empty (ident : Nat) : Registry := { ident }

def get? (r : Registry) (id : Nat) : Option Variable :=
  r.slots[id]?.join

/-- The places of the live variables, ascending: the order of registration. -/
def live (r : Registry) : List Nat :=
  (List.range r.slots.size).filter fun i => (r.get? i).isSome

/-- The place of the live variable with a name. -/
def find? (r : Registry) (name : String) : Option Nat :=
  r.live.find? fun i => (r.get? i).any (·.name == name)

def nameOf (r : Registry) (id : Nat) : String :=
  match r.get? id with
  | some v => v.name
  | none => "<removed>"

def refsOf (r : Registry) (id : Nat) : List Nat :=
  match r.get? id with
  | some v => v.refs
  | none => []

/-- The places of the live variables that read `id`, ascending. -/
def readersOf (r : Registry) (id : Nat) : List Nat :=
  r.live.filter fun i => (r.refsOf i).contains id

def size (r : Registry) : Nat := r.live.length

/-- The live variables' places and names in registration order. -/
def entries (r : Registry) : List (Nat × String) :=
  r.live.map fun i => (i, r.nameOf i)

def modify (r : Registry) (id : Nat) (f : Variable → Variable) : Registry :=
  { r with slots := r.slots.modify id (Option.map f) }

/-- The place and variable of a handle: it must come from this registry and its variable must be
live. -/
def resolve (r : Registry) (h : Handle) : Except Error (Nat × Variable) :=
  if h.home ≠ r.ident then .error .foreignVariable
  else
    match r.get? h.id with
    | some v => .ok (h.id, v)
    | none => .error (.removedVariable h.id)

/-- What every operation keeps true of a registry: a live variable reads only earlier live
variables, each once, with a formula bound to this registry whose names, references and inputs
agree in number; and no two live variables share a name. -/
structure WellFormed (r : Registry) : Prop where
  refs_lt : ∀ i v, r.get? i = some v → ∀ d ∈ v.refs, d < i
  refs_live : ∀ i v, r.get? i = some v → ∀ d ∈ v.refs, (r.get? d).isSome
  refs_nodup : ∀ i v, r.get? i = some v → v.refs.Nodup
  home_eq : ∀ i v f, r.get? i = some v → v.formula? = some f → f.home = r.ident
  lengths : ∀ i v f, r.get? i = some v → v.formula? = some f →
    f.names.length = f.refs.length ∧ f.program.inputs = f.refs.length
  names_inj : ∀ i j v w, r.get? i = some v → r.get? j = some w → v.name = w.name → i = j

def sortNames (names : List String) : List String :=
  names.mergeSort fun a b => decide (a ≤ b)

end Registry

end Recalc
