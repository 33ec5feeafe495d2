import Recalc.Registry.Evaluate
import Recalc.Registry.Graph
import Recalc.Json.Value

/-! # Queries and snapshots -/

namespace Recalc

namespace Registry

/-- How far a reference query reaches. -/
inductive Reach where
  /-- direct neighbours only -/
  | direct
  /-- everything reachable by one or more edges -/
  | all
deriving Repr, DecidableEq, Inhabited

/-- The places a variable is joined to in a direction, directly or along chains. -/
def related (r : Registry) (h : Handle) (dir : Direction) (reach : Reach) :
    Except Error (List Nat) := do
  let (id, _) ← r.resolve h
  match reach with
  | .direct => return r.neighbours r.readerTable dir id
  | .all => return r.walk id dir

def references (r : Registry) (h : Handle) (reach : Reach) : Except Error (List String) :=
  (r.related h .reads reach).map fun ids => sortNames (ids.map r.nameOf)

def referencing (r : Registry) (h : Handle) (reach : Reach) : Except Error (List String) :=
  (r.related h .readBy reach).map fun ids => sortNames (ids.map r.nameOf)

def lookup (r : Registry) (h : Handle) : Except Error Variable :=
  (r.resolve h).map (·.2)

end Registry

/-- One variable in a snapshot. -/
structure Snapshot.Entry where
  name : String
  kind : Kind
  value : Float
  references : List String
deriving Inhabited

/-- The JSON form of a snapshot entry; a value without digits is written `null`. -/
def Snapshot.Entry.toJson (e : Snapshot.Entry) : Json :=
  .obj [("name", .str e.name), ("kind", .str e.kind.name), ("value", .num e.value),
    ("references", .arr (e.references.map .str))]

def Snapshot.toJson (entries : List Snapshot.Entry) : Json :=
  .obj [("variables", .arr (entries.map Snapshot.Entry.toJson))]

namespace Registry

/-- The entries of the variables at `ids`, in order, each value read by `read`, sharing one
evaluation. -/
def snapshotOf (read : Nat → Evaluation → Except Error (Float × Evaluation)) :
    List Nat → Evaluation → Except Error (List Snapshot.Entry × Evaluation)
  | [], ev => .ok ([], ev)
  | id :: ids, ev =>
    match ev.registry.get? id with
    | none => .error (.removedVariable id)
    | some v =>
      match read id ev with
      | .error e => .error e
      | .ok (x, ev') =>
        let entry : Snapshot.Entry :=
          { name := v.name, kind := v.kind, value := x,
            references := sortNames (v.refs.map ev.registry.nameOf) }
        (snapshotOf read ids ev').map fun (rest, ev'') => (entry :: rest, ev'')

/-- Every live variable in evaluation order, with the lazy caches the evaluation filled. -/
def snapshot (r : Registry) : Except Error (List Snapshot.Entry × Registry) :=
  (snapshotOf Evaluation.valueAt r.order { registry := r }).map fun (entries, ev) =>
    (entries, ev.registry)

end Registry

end Recalc
