import Recalc.Registry.Basic

/-! # Evaluating variables, by recursion on the place and by a walk with an explicit stack -/

namespace Recalc

/-- An evaluation in progress: the registry, whose lazy caches it fills, and the values
computed so far, by place. -/
structure Evaluation where
  registry : Registry
  known : List (Nat × Float) := []
deriving Inhabited

namespace Evaluation

def find? (ev : Evaluation) (id : Nat) : Option Float :=
  (ev.known.find? (·.1 == id)).map (·.2)

def note (ev : Evaluation) (id : Nat) (x : Float) : Evaluation :=
  { ev with known := (id, x) :: ev.known }

mutual

/-- The value of the variable at `id`. -/
def valueAt (id : Nat) (ev : Evaluation) : Except Error (Float × Evaluation) :=
  match ev.find? id with
  | some x => .ok (x, ev)
  | none =>
    match ev.registry.get? id with
    | none => .error (.removedVariable id)
    | some v =>
      match v.ready? with
      | some x => .ok (x, ev.note id x)
      | none =>
        match v.formula? with
        | none => .error (.removedVariable id)
        | some f =>
          match inputsAt id f.refs ev with
          | .error e => .error e
          | .ok (xs, ev') =>
            let x := f.program.run xs
            let ev'' := { ev' with registry := ev'.registry.modify id (·.remember x) }
            .ok (x, ev''.note id x)
termination_by (id, 1, 0)

/-- The values of the variables at `refs`, all read by the variable at `id`. -/
def inputsAt (id : Nat) (refs : List Nat) (ev : Evaluation) :
    Except Error (List Float × Evaluation) :=
  match refs with
  | [] => .ok ([], ev)
  | d :: ds =>
    if d < id then
      match valueAt d ev with
      | .error e => .error e
      | .ok (x, ev') =>
        match inputsAt id ds ev' with
        | .error e => .error e
        | .ok (xs, ev'') => .ok (x :: xs, ev'')
    else .error (.removedVariable d)
termination_by (id, 0, refs.length)

end

/-- The remembered values of the places `refs`, in order; the first place without one fails. -/
def remembered (ev : Evaluation) : List Nat → Except Error (List Float)
  | [] => .ok []
  | d :: ds =>
    match ev.find? d with
    | some x => (ev.remembered ds).map (x :: ·)
    | none => .error (.removedVariable d)

/-- How many stack entries a read walk of `r` may take: a first entry, and for each place one
entry of its own and one for each place it reads. -/
def budget (r : Registry) : Nat :=
  (List.range r.slots.size).foldr (fun i n => (r.refsOf i).length + 1 + n) 1

/-- The read walk with an explicit stack, top first, of places each marked whether the places it
reads were pushed already. An entry whose place is remembered is dropped, and one whose variable
has a value ready is remembered. An unmarked formula goes back marked under the places it reads
that are not remembered, the last on top; a marked one comes up once those are remembered, and
its program runs on their values, which a lazy variable keeps. At most `fuel` entries are
taken. -/
def stackWalk : Nat → List (Nat × Bool) → Evaluation → Except Error Evaluation
  | 0, _, ev => .ok ev
  | _ + 1, [], ev => .ok ev
  | fuel + 1, (id, expanded) :: stack, ev =>
    match ev.find? id with
    | some _ => stackWalk fuel stack ev
    | none =>
      match ev.registry.get? id with
      | none => .error (.removedVariable id)
      | some v =>
        match v.ready? with
        | some x => stackWalk fuel stack (ev.note id x)
        | none =>
          match v.formula? with
          | none => .error (.removedVariable id)
          | some f =>
            if expanded then
              match ev.remembered f.refs with
              | .error e => .error e
              | .ok xs =>
                let x := f.program.run xs
                stackWalk fuel stack
                  ({ ev with registry := ev.registry.modify id (·.remember x) }.note id x)
            else
              let pending := f.refs.filter fun d => (ev.find? d).isNone
              stackWalk fuel (pending.reverse.map (·, false) ++ (id, true) :: stack) ev

/-- The value of the variable at `root`, by the stack walk within its budget; a root the walk
leaves without a value is a removed variable. -/
def valueOf (root : Nat) (ev : Evaluation) : Except Error (Float × Evaluation) :=
  match ev.find? root with
  | some x => .ok (x, ev)
  | none =>
    match stackWalk (budget ev.registry) [(root, false)] ev with
    | .error e => .error e
    | .ok ev' =>
      match ev'.find? root with
      | some x => .ok (x, ev')
      | none => .error (.removedVariable root)

end Evaluation

namespace Registry

/-- The value of a variable computed from the constants alone, trusting no cache: a constant's
value, or the program of a formula run on the values of what it reads. A place that is empty, or
a reference to a place that is not earlier, counts as zero. -/
def denote (r : Registry) (id : Nat) : Float :=
  match r.get? id with
  | none => 0
  | some v =>
    match v.body with
    | .constant x => x
    | .delegate f | .lazy f _ =>
      f.program.run (f.refs.map fun d => if d < id then r.denote d else 0)
termination_by id

/-- The value of a variable, with the lazy caches the reading filled. -/
def value (r : Registry) (h : Handle) : Except Error (Float × Registry) := do
  let (id, _) ← r.resolve h
  let (x, ev) ← Evaluation.valueAt id { registry := r }
  return (x, ev.registry)

/-- The value of a formula bound to this registry, computed as if it were registered next, with
the lazy caches the reading filled. -/
def evaluate (r : Registry) (f : BoundFormula) : Except Error (Float × Registry) :=
  (Evaluation.inputsAt r.slots.size f.refs { registry := r }).map fun (xs, ev) =>
    (f.program.run xs, ev.registry)

end Registry

end Recalc
