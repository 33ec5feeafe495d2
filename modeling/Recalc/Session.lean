import Recalc.Registry.Store
import Recalc.Limits

/-! # Sessions: two registries and a shelf of compiled formulas, driven by a script of steps -/

namespace Recalc

/-- One of the two registries of a session. -/
inductive Side where
  | main
  | other
deriving Repr, DecidableEq, Inhabited

/-- How a step names a variable. -/
inductive VarRef where
  /-- the handle with this place in `main` -/
  | id (n : Nat)
  /-- the variable of `main` with this name at the time of the step -/
  | name (s : String)
  /-- the handle with this place in `other` -/
  | other (n : Nat)
deriving Repr, Inhabited

/-- A step of a script. -/
inductive Step where
  | addConstant (side : Side) (name : String) (x : Float)
  /-- compile a text with the default limits and register it, lazy or not -/
  | define (side : Side) (lazy : Bool) (name : String) (src : String)
  /-- compile a text and put it on the shelf -/
  | compile (side : Side) (limits : Limits.Source) (src : String)
  /-- register the formula at a shelf place, lazy or not -/
  | add (side : Side) (lazy : Bool) (name : String) (slot : Nat)
  | set (v : VarRef) (x : Float)
  | remove (v : VarRef)
  | get (side : Side) (name : String)
  | value (v : VarRef)
  | references (v : VarRef) (reach : Registry.Reach)
  | referencing (v : VarRef) (reach : Registry.Reach)
  | name (v : VarRef)
  | kind (v : VarRef)
  | cache (v : VarRef)
  | isCached (v : VarRef)
  | formula (v : VarRef)
  | size (side : Side)
  | isEmpty (side : Side)
  | handles (side : Side)
  | order
  | snapshot
  | snapshotText
deriving Inhabited

/-- What a step answers. -/
inductive Reply where
  | registered (id : Nat)
  | shelved (slot : Nat) (names : List String)
  | done
  | found (id : Option Nat)
  | number (x : Float)
  | names (xs : List String)
  | text (s : String)
  | kind (k : Kind)
  | cache (c : Option Cache)
  | flag (b : Bool)
  | formula (f : Option BoundFormula)
  | count (n : Nat)
  | entries (xs : List (Nat × String))
  | snapshot (xs : List Snapshot.Entry)
deriving Inhabited

/-- The outcome of a step. -/
inductive Outcome where
  | ok (r : Reply)
  | failed (e : Error)
  | refused (why : String)
deriving Inhabited

/-- Two registries and a shelf of compiled formulas. -/
structure Session where
  main : Store := Store.empty 0
  other : Store := Store.empty 1
  shelf : Array BoundFormula := #[]
deriving Inhabited

namespace Session

def registry (s : Session) : Side → Store
  | .main => s.main
  | .other => s.other

def withRegistry (s : Session) (side : Side) (r : Store) : Session :=
  match side with
  | .main => { s with main := r }
  | .other => { s with other := r }

/-- The handle a step names, if the session can find it. -/
def handle (s : Session) : VarRef → Except String Handle
  | .id n =>
    if n < s.main.slots.size then .ok ⟨s.main.ident, n⟩
    else .error s!"no handle #{n} was issued"
  | .name x =>
    match s.main.get x with
    | some n => .ok ⟨s.main.ident, n⟩
    | none => .error ("no variable named '" ++ x ++ "'")
  | .other n =>
    if n < s.other.slots.size then .ok ⟨s.other.ident, n⟩
    else .error s!"no other handle #{n} was issued"

/-- Registers a variable on a side. -/
def register (s : Session) (side : Side) (r : Except Error (Nat × Store)) : Outcome × Session :=
  match r with
  | .ok (id, reg) => (.ok (.registered id), s.withRegistry side reg)
  | .error e => (.failed e, s)

/-- A query on `main` that changes nothing. -/
def query (s : Session) (v : VarRef) (f : Store → Handle → Except Error Reply) :
    Outcome × Session :=
  match s.handle v with
  | .error why => (.refused why, s)
  | .ok h =>
    match f s.main h with
    | .ok reply => (.ok reply, s)
    | .error e => (.failed e, s)

/-- A change of `main`. -/
def change (s : Session) (v : VarRef) (f : Store → Handle → Except Error Store) :
    Outcome × Session :=
  match s.handle v with
  | .error why => (.refused why, s)
  | .ok h =>
    match f s.main h with
    | .ok r => (.ok .done, { s with main := r })
    | .error e => (.failed e, s)

/-- Carries out one step. -/
def step (s : Session) : Step → Outcome × Session
  | .addConstant side name x => s.register side ((s.registry side).addConstant name x)
  | .define side lazy name src =>
    let r := s.registry side
    s.register side do
      let f ← r.compile {} src
      if lazy then r.addLazy name f else r.addDelegate name f
  | .compile side limits src =>
    match (limits.resolve.mapError Error.invalidLimits).bind fun l => (s.registry side).compile l src with
    | .ok f => (.ok (.shelved s.shelf.size f.names), { s with shelf := s.shelf.push f })
    | .error e => (.failed e, s)
  | .add side lazy name slot =>
    match s.shelf[slot]? with
    | none => (.refused s!"no evaluator slot {slot}", s)
    | some f =>
      let r := s.registry side
      s.register side (if lazy then r.addLazy name f else r.addDelegate name f)
  | .set v x => s.change v fun r h => r.setConstant h x
  | .remove v => s.change v fun r h => r.remove h
  | .get side name => (.ok (.found ((s.registry side).get name)), s)
  | .value v =>
    match s.handle v with
    | .error why => (.refused why, s)
    | .ok h =>
      match s.main.value h with
      | .ok (x, r) => (.ok (.number x), { s with main := r })
      | .error e => (.failed e, s)
  | .references v reach => s.query v fun r h => (r.references h reach).map .names
  | .referencing v reach => s.query v fun r h => (r.referencing h reach).map .names
  | .name v => s.query v fun r h => (r.lookup h).map fun x => .text x.name
  | .kind v => s.query v fun r h => (r.lookup h).map fun x => .kind x.kind
  | .cache v => s.query v fun r h => (r.lookup h).map fun x => .cache x.cache?
  | .isCached v => s.query v fun r h => (r.lookup h).map fun x =>
      .flag (match x.cache? with
        | some (.fresh _) => true
        | _ => false)
  | .formula v => s.query v fun r h => (r.lookup h).map fun x => .formula x.formula?
  | .size side => (.ok (.count (s.registry side).len), s)
  | .isEmpty side => (.ok (.flag ((s.registry side).len == 0)), s)
  | .handles side => (.ok (.entries (s.registry side).handles), s)
  | .order => (.ok (.names (s.main.order.map s.main.arena.nameOf)), s)
  | .snapshot =>
    match s.main.snapshot with
    | .ok (entries, r) => (.ok (.snapshot entries), { s with main := r })
    | .error e => (.failed e, s)
  | .snapshotText =>
    match s.main.snapshot with
    | .ok (entries, r) => (.ok (.text (Snapshot.toJson entries).render), { s with main := r })
    | .error e => (.failed e, s)

def run (s : Session) : List Step → List Outcome
  | [] => []
  | st :: rest =>
    let (out, s') := s.step st
    out :: s'.run rest

end Session

end Recalc
