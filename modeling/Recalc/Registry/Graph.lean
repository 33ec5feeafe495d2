import Recalc.Registry.Basic

/-! # Breadth-first walks over the reference graph: reached variables, shortest chains and the
evaluation order -/

namespace Recalc

/-- Which way edges are followed. -/
inductive Direction where
  /-- from a variable to those it reads -/
  | reads
  /-- from a variable to those that read it -/
  | readBy
deriving Repr, DecidableEq, Inhabited

namespace Registry

/-- An edge in a direction: in `reads`, from a live variable to a place it reads; in `readBy`,
the same edge the other way. -/
def Edge (r : Registry) : Direction → Nat → Nat → Prop
  | .reads, i, j => (r.get? i).isSome ∧ j ∈ r.refsOf i
  | .readBy, i, j => (r.get? j).isSome ∧ i ∈ r.refsOf j

/-- `j` is reached from `i` by one or more edges in a direction. -/
inductive Reaches (r : Registry) (dir : Direction) : Nat → Nat → Prop where
  | edge {i j : Nat} : r.Edge dir i j → Reaches r dir i j
  | step {i j k : Nat} : Reaches r dir i j → r.Edge dir j k → Reaches r dir i k

/-- For every place, the live variables that read it, ascending. -/
def readerTable (r : Registry) : Array (List Nat) :=
  r.live.foldl (fun table i => (r.refsOf i).foldl (fun t d => t.modify d (· ++ [i])) table)
    (Array.replicate r.slots.size [])

/-- The neighbours of a place in a direction, given the reader table. -/
def neighbours (r : Registry) (table : Array (List Nat)) (dir : Direction) (id : Nat) : List Nat :=
  match dir with
  | .reads => r.refsOf id
  | .readBy => table.getD id []

/-- One round of a breadth-first walk: the nodes of `layer` in order, each not yet reached and
not `start` is reached, and its neighbours form the next layer. -/
def walkLayer (next : Nat → List Nat) (start : Nat) :
    List Nat → List Nat × List Nat → List Nat × List Nat
  | [], acc => acc
  | x :: xs, (reached, upcoming) =>
    if x == start || reached.contains x then walkLayer next start xs (reached, upcoming)
    else walkLayer next start xs (reached ++ [x], upcoming ++ next x)

def walkFrom (next : Nat → List Nat) (start : Nat) : Nat → List Nat → List Nat → List Nat
  | 0, _, reached => reached
  | fuel + 1, layer, reached =>
    let (reached', upcoming) := walkLayer next start layer (reached, [])
    if upcoming.isEmpty then reached' else walkFrom next start fuel upcoming reached'

/-- The variables reached from `id` by one or more edges in a direction, in breadth-first order;
`id` itself is left out. -/
def walk (r : Registry) (id : Nat) (dir : Direction) : List Nat :=
  let table := r.readerTable
  let next := r.neighbours table dir
  walkFrom next id (r.slots.size + 1) (next id) []

/-- What one round of a path search finds: the path to the target, or the places seen and the
paths of the next round. -/
inductive PathRound where
  | found (path : List Nat)
  | next (seen : List Nat) (paths : List (List Nat))

/-- One round of a path search over paths kept last place first: a path ending in the target
is the answer; otherwise each neighbour not yet seen extends the path into the next round. -/
def pathLayer (next : Nat → List Nat) (target : Nat) :
    List (List Nat) → List Nat → List (List Nat) → PathRound
  | [], seen, upcoming => .next seen upcoming
  | [] :: paths, seen, upcoming => pathLayer next target paths seen upcoming
  | (x :: back) :: paths, seen, upcoming =>
    if x == target then .found (x :: back).reverse
    else
      let (seen', upcoming') := (next x).foldl
        (fun (s, u) d => if s.contains d then (s, u) else (s ++ [d], u ++ [d :: x :: back]))
        (seen, upcoming)
      pathLayer next target paths seen' upcoming'

def pathFrom (next : Nat → List Nat) (target : Nat) : Nat → List (List Nat) → List Nat →
    Option (List Nat)
  | 0, _, _ => none
  | fuel + 1, paths, seen =>
    match pathLayer next target paths seen [] with
    | .found path => some path
    | .next seen' upcoming =>
      if upcoming.isEmpty then none else pathFrom next target fuel upcoming seen'

/-- A shortest chain of reading edges from one of `starts` to `target`, both ends included; the
search starts from `starts` in order, repeats dropped, and the first variable to reach a place
is the one the chain goes through. -/
def findPath (r : Registry) (starts : List Nat) (target : Nat) : Option (List Nat) :=
  let firsts := firstOccurrences starts
  pathFrom r.refsOf target (r.slots.size + 1) (firsts.map ([·])) firsts

/-- Kahn's walk: takes the queue's front, releases each reader whose count of unplaced
references drops to zero, and queues it. -/
def kahn (table : Array (List Nat)) : Nat → List Nat → Array Nat → List Nat → List Nat
  | 0, _, _, placed => placed
  | _ + 1, [], _, placed => placed
  | fuel + 1, x :: queue, waiting, placed =>
    let (waiting', released) := (table.getD x []).foldl
      (fun (w, rel) y =>
        let k := w.getD y 0 - 1
        (w.set! y k, if k == 0 then rel ++ [y] else rel))
      (waiting, [])
    kahn table fuel (queue ++ released) waiting' (placed ++ [x])

/-- Every live variable once, each after all the variables it reads: the variables that read
nothing start the queue in registration order, and each variable taken from the queue releases
its readers in registration order. -/
def order (r : Registry) : List Nat :=
  let table := r.readerTable
  let waiting := (List.range r.slots.size).toArray.map fun i => (r.refsOf i).length
  let seeds := r.live.filter fun i => (r.refsOf i).isEmpty
  kahn table r.slots.size seeds waiting []

end Registry

end Recalc
