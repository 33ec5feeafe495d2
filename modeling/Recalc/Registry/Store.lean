import Recalc.Registry.Update
import Recalc.Registry.Lookup

/-! # Registries as stored: the arena beside a name map and a dependency graph, changed together -/

namespace Recalc

/-- The edges of one place: the places its formula reads, and the places of the variables that
read it, in the order they were registered. -/
structure Adjacency where
  dependencies : List Nat
  dependents : List Nat := []
deriving Inhabited

namespace Adjacency

/-- Adds a reader, once. -/
def addDependent (a : Adjacency) (id : Nat) : Adjacency :=
  if a.dependents.contains id then a else { a with dependents := a.dependents ++ [id] }

/-- Drops a reader; the others keep their order. -/
def removeDependent (a : Adjacency) (id : Nat) : Adjacency :=
  { a with dependents := a.dependents.filter (· != id) }

end Adjacency

/-- The dependency graph: the edges of every place, none where a variable was removed. -/
structure DependencyGraph where
  nodes : Array (Option Adjacency) := #[]
deriving Inhabited

namespace DependencyGraph

def node? (g : DependencyGraph) (id : Nat) : Option Adjacency := g.nodes[id]?.join

def contains (g : DependencyGraph) (id : Nat) : Bool := (g.node? id).isSome

/-- Adds a node reading `deps` at the next place, which it returns, and records the new place
among the readers of each of `deps` that has a node. -/
def addNode (g : DependencyGraph) (deps : List Nat) : Nat × DependencyGraph :=
  let id := g.nodes.size
  let nodes := deps.foldl (fun ns d => ns.modify d (Option.map (·.addDependent id))) g.nodes
  (id, ⟨nodes.push (some ⟨deps, []⟩)⟩)

/-- Removes the node of a place and drops the place from the readers of what it read. -/
def removeNode (g : DependencyGraph) (id : Nat) : DependencyGraph :=
  match g.node? id with
  | none => g
  | some a =>
    ⟨a.dependencies.foldl (fun ns d => ns.modify d (Option.map (·.removeDependent id)))
      (g.nodes.set! id none)⟩

/-- The stored neighbours of a place in a direction; none for a place without a node. -/
def neighbours (g : DependencyGraph) (dir : Direction) (id : Nat) : List Nat :=
  match g.node? id, dir with
  | some a, .reads => a.dependencies
  | some a, .readBy => a.dependents
  | none, _ => []

def nodeCount (g : DependencyGraph) : Nat := (g.nodes.toList.filter Option.isSome).length

/-- The places reached from `id` by one or more stored edges in a direction, breadth-first;
`id` itself is left out. -/
def walk (g : DependencyGraph) (id : Nat) (dir : Direction) : List Nat :=
  Registry.walkFrom (g.neighbours dir) id (g.nodes.size + 1) (g.neighbours dir id) []

/-- A shortest chain of stored reading edges from one of `starts` to `target`. -/
def findPath (g : DependencyGraph) (starts : List Nat) (target : Nat) : Option (List Nat) :=
  let firsts := firstOccurrences starts
  Registry.pathFrom (g.neighbours .reads) target (g.nodes.size + 1) (firsts.map ([·])) firsts

/-- One reader of the node taken from the queue in Kahn's walk: its count, if it has one, drops
by one but not below zero, and the reader is released when its count is then zero. -/
def release (p : Array (Option Nat) × List Nat) (y : Nat) : Array (Option Nat) × List Nat :=
  match p.1[y]?.join with
  | some k => (p.1.set! y (some (k - 1)), if k - 1 == 0 then p.2 ++ [y] else p.2)
  | none => p

/-- Kahn's walk over the stored edges: takes the queue's front and releases its readers in their
stored order. -/
def kahn (g : DependencyGraph) : Nat → List Nat → Array (Option Nat) → List Nat → List Nat
  | 0, _, _, placed => placed
  | _ + 1, [], _, placed => placed
  | fuel + 1, x :: queue, degree, placed =>
    let (degree', released) := (g.neighbours .readBy x).foldl release (degree, [])
    g.kahn fuel (queue ++ released) degree' (placed ++ [x])

/-- The places with a node, each after the places it reads: every node counts its dependencies,
and the nodes that read nothing start the queue in order of place. -/
def topologicalOrder (g : DependencyGraph) : List Nat :=
  let degree := g.nodes.map (Option.map (·.dependencies.length))
  let seeds := (List.range g.nodes.size).filter fun i => (g.node? i).any (·.dependencies.isEmpty)
  g.kahn g.nodes.size seeds degree []

end DependencyGraph

/-- Gives a name a place in a name map: where the name stands if it is there, at the end
otherwise. -/
def insertName (names : List (String × Nat)) (name : String) (id : Nat) : List (String × Nat) :=
  if names.any (·.1 == name) then names.map fun p => if p.1 == name then (name, id) else p
  else names ++ [(name, id)]

/-- Drops a name from a name map; the others keep their order. -/
def removeName (names : List (String × Nat)) (name : String) : List (String × Nat) :=
  names.filter (·.1 != name)

/-- A registry as it is stored: its identity, the arena of its variables, the names of the live
variables with their places, and the dependency graph. -/
structure Store where
  ident : Nat
  slots : Array (Option Variable) := #[]
  names : List (String × Nat) := []
  graph : DependencyGraph := {}
deriving Inhabited

namespace Store

def empty (ident : Nat) : Store := { ident }

def arena (s : Store) : Registry := ⟨s.ident, s.slots⟩

/-- Puts back the arena after a read filled its caches. -/
def withArena (s : Store) (r : Registry) : Store := { s with slots := r.slots }

/-- The place of the live variable with a name, from the name map. -/
def get (s : Store) (name : String) : Option Nat :=
  (s.names.find? (·.1 == name)).map (·.2)

def len (s : Store) : Nat := s.names.length

def handles (s : Store) : List (Nat × String) := s.names.map fun p => (p.2, p.1)

/-! ## Compiling -/

/-- The places of the variables with the given names, from the name map; the first name
without a variable fails. -/
def bindNames (s : Store) : List String → Except Error (List Nat)
  | [] => .ok []
  | x :: xs =>
    match s.get x with
    | some id => (s.bindNames xs).map (id :: ·)
    | none => .error (.unknownVariable x)

def compile (s : Store) (limits : Limits) (src : String) : Except Error BoundFormula := do
  let f ← Formula.parse limits src
  let names := f.identifiers
  let refs ← s.bindNames names
  let program ← Program.lower names f
  return { home := s.ident, source := src, names, refs, program }

/-! ## Registering -/

/-- Whether a variable may be registered, checked against the graph and the name map. -/
def checkNew (s : Store) (v : Variable) : Except Error Unit := do
  if let some f := v.formula? then
    if f.home ≠ s.ident then throw (.foreignFormula f.source)
    if let some p := (f.refs.zip f.names).find? fun p => !s.graph.contains p.1 then
      throw (.removedReference p.2)
  if let some existing := s.get v.name then
    match s.graph.findPath v.refs existing with
    | some path => throw (.cyclicReference v.name (v.name :: path.map s.arena.nameOf))
    | none => throw (.duplicateName v.name)

/-- Puts a variable at the place the graph gives next: its node, its name and its slot. -/
def insert (s : Store) (v : Variable) : Nat × Store :=
  let (id, graph) := s.graph.addNode v.refs
  (id, { s with graph, names := insertName s.names v.name id,
                slots := s.slots.push (some v) })

/-- Registers a variable, returning its place. -/
def register (s : Store) (v : Variable) : Except Error (Nat × Store) := do
  s.checkNew v
  return s.insert v

def addConstant (s : Store) (name : String) (x : Float) : Except Error (Nat × Store) :=
  s.register ⟨name, .constant x⟩

def addDelegate (s : Store) (name : String) (f : BoundFormula) : Except Error (Nat × Store) :=
  s.register ⟨name, .delegate f⟩

def addLazy (s : Store) (name : String) (f : BoundFormula) : Except Error (Nat × Store) :=
  s.register ⟨name, .lazy f .stale⟩

def addConstants (s : Store) : List (String × Float) → Except Error Store
  | [] => .ok s
  | (name, x) :: rest =>
    match s.addConstant name x with
    | .error e => .error e
    | .ok (_, s') => s'.addConstants rest

/-! ## Assigning and removing -/

/-- Gives a constant a new value and makes stale every lazy variable the graph reaches from it
along reading edges. Once the handle resolves, its place is looked up again, and a miss there
counts as a foreign handle. -/
def setConstant (s : Store) (h : Handle) (x : Float) : Except Error Store := do
  let (id, _) ← s.arena.resolve h
  let some v := s.arena.get? id | throw .foreignVariable
  match v.body with
  | .constant _ =>
    let r := s.arena.modify id fun v => { v with body := .constant x }
    return s.withArena ((s.graph.walk id .readBy).foldl (fun r j => r.modify j Variable.invalidate) r)
  | _ => throw (.notConstant v.name)

/-- Removes a variable whose node has no readers: its node, its slot and its name. -/
def remove (s : Store) (h : Handle) : Except Error Store := do
  let (id, _) ← s.arena.resolve h
  match s.graph.neighbours .readBy id with
  | [] =>
    let graph := s.graph.removeNode id
    match s.arena.get? id with
    | some v =>
      return { s with graph, slots := s.slots.set! id none,
                      names := removeName s.names v.name }
    | none => return { s with graph }
  | readers =>
    throw (.stillReferenced (s.arena.nameOf id) (Registry.sortNames (readers.map s.arena.nameOf)))

/-! ## Reading -/

/-- The value of a variable, read by the walk with an explicit stack, with the lazy caches the
reading filled. -/
def value (s : Store) (h : Handle) : Except Error (Float × Store) := do
  let (id, _) ← s.arena.resolve h
  let (x, ev) ← Evaluation.valueOf id { registry := s.arena }
  return (x, s.withArena ev.registry)

def lookup (s : Store) (h : Handle) : Except Error Variable := s.arena.lookup h

/-- The places a variable is joined to in a direction by stored edges, directly or along
chains, each once. -/
def related (s : Store) (h : Handle) (dir : Direction) (reach : Registry.Reach) :
    Except Error (List Nat) := do
  let (id, _) ← s.arena.resolve h
  match reach with
  | .direct => return firstOccurrences (s.graph.neighbours dir id)
  | .all => return s.graph.walk id dir

def references (s : Store) (h : Handle) (reach : Registry.Reach) : Except Error (List String) :=
  (s.related h .reads reach).map fun ids => Registry.sortNames (ids.map s.arena.nameOf)

def referencing (s : Store) (h : Handle) (reach : Registry.Reach) : Except Error (List String) :=
  (s.related h .readBy reach).map fun ids => Registry.sortNames (ids.map s.arena.nameOf)

def order (s : Store) : List Nat := s.graph.topologicalOrder

/-- Every live variable in evaluation order, each read by the walk with an explicit stack, with
the lazy caches the evaluation filled. -/
def snapshot (s : Store) : Except Error (List Snapshot.Entry × Store) :=
  (Registry.snapshotOf Evaluation.valueOf s.order { registry := s.arena }).map fun p =>
    (p.1, s.withArena p.2.registry)

end Store

end Recalc
