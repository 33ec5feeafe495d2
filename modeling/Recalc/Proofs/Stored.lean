import Recalc.Registry.Store
import Recalc.Proofs.Removal
import Recalc.Proofs.Topological
import Recalc.Proofs.StackWalk
import Mathlib.Data.List.Nodup

/-! # The name map and graph of a store follow its arena, and each call refines the registry's -/

namespace Recalc

namespace Adjacency

theorem addDependent_idem (a : Adjacency) (id : Nat) :
    (a.addDependent id).addDependent id = a.addDependent id := by
  unfold addDependent
  split
  · simp [*]
  · simp

theorem addDependent_of_not_mem {a : Adjacency} {id : Nat} (h : id ∉ a.dependents) :
    a.addDependent id = { a with dependents := a.dependents ++ [id] } := by
  simp [addDependent, h]

theorem removeDependent_idem (a : Adjacency) (id : Nat) :
    (a.removeDependent id).removeDependent id = a.removeDependent id := by
  simp [removeDependent, List.filter_filter]

end Adjacency

namespace DependencyGraph

theorem getElem?_foldl_modify {α : Type} (f : α → α) (hf : ∀ a, f (f a) = f a) (ds : List Nat)
    (nodes : Array (Option α)) (i : Nat) :
    (ds.foldl (fun ns d => ns.modify d (Option.map f)) nodes)[i]? =
      if i ∈ ds then nodes[i]?.map (Option.map f) else nodes[i]? := by
  induction ds generalizing nodes with
  | nil => simp
  | cons d ds ih =>
      rw [List.foldl_cons, ih, Array.getElem?_modify]
      by_cases hid : i = d
      · subst hid
        by_cases hm : i ∈ ds <;> simp [hm, Option.map_map, Function.comp_def, hf]
      · simp [hid, Ne.symm hid]

theorem size_foldl_modify {α : Type} (f : α → α) (ds : List Nat) (nodes : Array (Option α)) :
    (ds.foldl (fun ns d => ns.modify d (Option.map f)) nodes).size = nodes.size := by
  induction ds generalizing nodes with
  | nil => rfl
  | cons d ds ih => rw [List.foldl_cons, ih, Array.size_modify]

theorem node?_foldl_modify (f : Adjacency → Adjacency) (hf : ∀ a, f (f a) = f a) (ds : List Nat)
    (nodes : Array (Option Adjacency)) (i : Nat) :
    (⟨ds.foldl (fun ns d => ns.modify d (Option.map f)) nodes⟩ : DependencyGraph).node? i =
      if i ∈ ds then ((⟨nodes⟩ : DependencyGraph).node? i).map f
      else (⟨nodes⟩ : DependencyGraph).node? i := by
  simp only [node?, getElem?_foldl_modify f hf]
  split
  · cases nodes[i]? with
    | none => rfl
    | some o => cases o <;> rfl
  · rfl

variable (g : DependencyGraph)

theorem size_addNode (deps : List Nat) : (g.addNode deps).2.nodes.size = g.nodes.size + 1 := by
  simp [addNode, size_foldl_modify]

theorem node?_addNode (deps : List Nat) (i : Nat) :
    (g.addNode deps).2.node? i =
      if i = g.nodes.size then some ⟨deps, []⟩
      else if i ∈ deps then (g.node? i).map (·.addDependent g.nodes.size) else g.node? i := by
  have hpush := node?_foldl_modify (·.addDependent g.nodes.size)
    (fun a => a.addDependent_idem _) deps g.nodes i
  simp only [addNode, node?, Array.getElem?_push, size_foldl_modify] at hpush ⊢
  split
  · rfl
  · exact hpush

theorem node?_removeNode {id : Nat} {a : Adjacency} (ha : g.node? id = some a) (i : Nat) :
    (g.removeNode id).node? i =
      if i = id then none
      else if i ∈ a.dependencies then (g.node? i).map (·.removeDependent id) else g.node? i := by
  have hset : ∀ j, (⟨g.nodes.set! id none⟩ : DependencyGraph).node? j =
      if j = id then none else g.node? j := by
    intro j
    simp only [node?, Array.set!_eq_setIfInBounds, Array.getElem?_setIfInBounds]
    by_cases hj : id = j
    · simp only [hj, if_true]
      split <;> rfl
    · simp [hj, Ne.symm hj]
  simp only [removeNode, ha]
  rw [node?_foldl_modify _ (fun b => b.removeDependent_idem id)]
  simp only [hset]
  by_cases hi : i = id
  · simp [hi]
  · simp [hi]

theorem length_filter_isSome {α : Type} (l : List (Option α)) :
    (l.filter Option.isSome).length =
      ((List.range l.length).filter fun i => (l[i]?.join).isSome).length := by
  induction l with
  | nil => rfl
  | cons x l ih =>
      rw [List.length_cons, List.range_succ_eq_map, List.filter_cons, List.filter_cons,
        List.filter_map]
      cases x <;> simp [ih, Function.comp_def]

theorem nodeCount_eq (g : DependencyGraph) :
    g.nodeCount = ((List.range g.nodes.size).filter fun i => (g.node? i).isSome).length := by
  simp [nodeCount, length_filter_isSome, node?]

theorem size_removeNode (id : Nat) : (g.removeNode id).nodes.size = g.nodes.size := by
  unfold removeNode
  split
  · rfl
  · simp [size_foldl_modify]

theorem kahn_succ_cons (fuel x : Nat) (queue : List Nat) (degree : Array (Option Nat))
    (placed : List Nat) :
    g.kahn (fuel + 1) (x :: queue) degree placed =
      g.kahn fuel (queue ++ ((g.neighbours .readBy x).foldl release (degree, [])).2)
        ((g.neighbours .readBy x).foldl release (degree, [])).1 (placed ++ [x]) := rfl

end DependencyGraph

/-! ## Kahn's walk over the stored edges -/

namespace Registry

/-- The counts of the stored walk, kept only at places with a node, are those of the registry's
walk at every live place. -/
def CountsAgree (r : Registry) (degree : Array (Option Nat)) (waiting : Array Nat) : Prop :=
  waiting.size = r.slots.size ∧ ∀ y, (r.get? y).isSome → degree[y]?.join = some (waiting.getD y 0)

theorem CountsAgree.lt_size {r : Registry} {degree : Array (Option Nat)} {waiting : Array Nat}
    (h : r.CountsAgree degree waiting) {y : Nat} (hy : (r.get? y).isSome) : y < degree.size := by
  have hd := h.2 y hy
  by_contra hlt
  simp [Array.getElem?_eq_none (Nat.le_of_not_lt hlt)] at hd

/-- Releasing live readers does the same on both sides: the released readers agree, and so do
the counts after. -/
theorem CountsAgree.foldl_release {r : Registry} {ys : List Nat} (hys : ∀ y ∈ ys, (r.get? y).isSome)
    {degree : Array (Option Nat)} {waiting : Array Nat} (h : r.CountsAgree degree waiting)
    (rel : List Nat) :
    (ys.foldl DependencyGraph.release (degree, rel)).2 = (ys.foldl releaseStep (waiting, rel)).2 ∧
      r.CountsAgree (ys.foldl DependencyGraph.release (degree, rel)).1
        (ys.foldl releaseStep (waiting, rel)).1 := by
  induction ys generalizing degree waiting rel with
  | nil => exact ⟨rfl, h⟩
  | cons z zs ih =>
      have hz := hys z List.mem_cons_self
      have hlt : z < waiting.size := h.1 ▸ lt_size_of_isSome hz
      have hstep : DependencyGraph.release (degree, rel) z =
          (degree.set! z (some (waiting.getD z 0 - 1)),
            if waiting.getD z 0 - 1 == 0 then rel ++ [z] else rel) := by
        simp [DependencyGraph.release, h.2 z hz]
      rw [List.foldl_cons, List.foldl_cons, hstep]
      refine ih (fun y hy => hys y (List.mem_cons_of_mem z hy)) ⟨by simp [h.1], fun y hy => ?_⟩ _
      rw [getD_set! waiting z _ y (.inl hlt)]
      simp only [Array.set!_eq_setIfInBounds, Array.getElem?_setIfInBounds]
      by_cases hyz : y = z
      · subst hyz
        simp [h.lt_size hy]
      · simp [Ne.symm hyz, hyz, h.2 y hy]

/-- In a well-formed registry no live variable reads the next place. -/
theorem WellFormed.readersOf_size_eq_nil {r : Registry} (hw : r.WellFormed) : r.readersOf r.slots.size = [] := by
  refine List.eq_nil_iff_forall_not_mem.2 fun i hi => ?_
  obtain ⟨hlive, hd⟩ := mem_readersOf.1 hi
  obtain ⟨w, hiw⟩ := isSome_get?_iff.1 hlive
  have := hw.refs_lt i w hiw _ (by rwa [refsOf_of_get? hiw] at hd)
  exact absurd (lt_size_of_isSome hlive) (by simpa using Nat.not_lt.2 this.le)

end Registry

namespace Registry.SameShape

variable {r r' : Registry}

theorem readersOf_eq (h : SameShape r r') : r'.readersOf = r.readersOf := by
  funext d
  simp only [readersOf, h.live_eq, funext h.refsOf_eq]

theorem nameOf_eq (h : SameShape r r') : r'.nameOf = r.nameOf := by
  funext i
  cases hv : r.get? i with
  | none => simp [nameOf, hv, (h.get?_eq_none hv)]
  | some v =>
      obtain ⟨v', hv', hname, -⟩ := h.get?_eq_some hv
      simp [nameOf, hv, hv', hname]

theorem map_refs_eq (h : SameShape r r') (i : Nat) :
    (r'.get? i).map Variable.refs = (r.get? i).map Variable.refs := by
  cases hv : r.get? i with
  | none => simp [h.get?_eq_none hv]
  | some v =>
      obtain ⟨v', hv', -, hf⟩ := h.get?_eq_some hv
      simp [hv', Variable.refs, hf]

theorem neighbours_eq (h : SameShape r r') : r'.neighbours = r.neighbours := by
  funext t dir i
  cases dir <;> simp [neighbours, h.refsOf_eq]

theorem walk_eq (h : SameShape r r') : r'.walk = r.walk := by
  funext id dir
  simp only [walk, h.neighbours_eq, h.readerTable_eq, h.size_eq]

end Registry.SameShape

namespace Store

open Registry

/-- The name map and the graph say what the arena says: the graph has a node exactly at each
live place, holding the places the variable reads and the live variables that read it, and the
name map lists the names of the live variables with their places, in order of place. -/
structure Synced (s : Store) : Prop where
  size_eq : s.graph.nodes.size = s.slots.size
  node?_eq : ∀ i, s.graph.node? i = (s.arena.get? i).map fun v => ⟨v.refs, s.arena.readersOf i⟩
  names_eq : s.names = s.arena.live.map fun i => (s.arena.nameOf i, i)

@[simp] theorem arena_ident (s : Store) : s.arena.ident = s.ident := rfl

@[simp] theorem arena_slots (s : Store) : s.arena.slots = s.slots := rfl

theorem synced_empty (ident : Nat) : (Store.empty ident).Synced where
  size_eq := rfl
  node?_eq i := by simp [empty, arena, DependencyGraph.node?, Registry.get?]
  names_eq := by simp [empty, arena, Registry.live]

theorem arena_insert (s : Store) (v : Variable) :
    (s.insert v).2.arena = { s.arena with slots := s.arena.slots.push (some v) } := rfl

theorem arena_withArena {s : Store} {r : Registry} (h : r.ident = s.ident) :
    (s.withArena r).arena = r := by
  rcases r with ⟨ident, slots⟩
  simp only at h
  simp [withArena, arena, h]

/-- A read of the store walks its stack over the arena and gives what the arena's recursive read
gives. -/
theorem value_eq {s : Store} (hw : s.arena.WellFormed) (h : Handle) :
    s.value h = (s.arena.value h).map fun p => (p.1, s.withArena p.2) := by
  cases hr : s.arena.resolve h with
  | error e => simp [Store.value, Registry.value, hr, bind, Except.bind, Except.map]
  | ok p =>
      obtain ⟨id, v⟩ := p
      obtain ⟨-, rfl, hv⟩ := resolve_eq_ok.1 hr
      obtain ⟨ev₁, ev₂, hval₁, hval₂, hsame, -⟩ := Evaluation.valueOf_same hw
        (Evaluation.Agrees.empty s.arena) (Evaluation.Same.refl _)
        (show (s.arena.get? h.id).isSome by simp [hv])
      simp [Store.value, Registry.value, hr, hval₁, hval₂, hsame.registry_eq, bind, Except.bind,
        pure, Except.pure, Except.map]

/-! ## The views of a store that keeps in step -/

namespace Synced

variable {s : Store}

theorem contains_eq (hs : s.Synced) (i : Nat) :
    s.graph.contains i = (s.arena.get? i).isSome := by
  simp [DependencyGraph.contains, hs.node?_eq i]

theorem get_eq (hs : s.Synced) : s.get = s.arena.find? := by
  funext x
  simp only [Store.get, hs.names_eq, List.find?_map, Option.map_map, Registry.find?,
    Function.comp_def, Option.map_id']
  refine List.find?_congr fun i hi => ?_
  obtain ⟨v, hv⟩ := isSome_get?_iff.1 (mem_live.1 hi)
  simp [hv, nameOf_of_get? hv]

theorem neighbours_reads (hs : s.Synced) : s.graph.neighbours .reads = s.arena.refsOf := by
  funext i
  simp only [DependencyGraph.neighbours, hs.node?_eq i]
  cases hv : s.arena.get? i with
  | none => simp [refsOf_of_get?_none hv]
  | some v => simp [refsOf_of_get? hv]

theorem neighbours_readBy (hs : s.Synced) (hw : s.arena.WellFormed) :
    s.graph.neighbours .readBy = s.arena.readersOf := by
  funext i
  simp only [DependencyGraph.neighbours, hs.node?_eq i]
  cases hv : s.arena.get? i with
  | none => simp [readersOf_of_get?_none hw hv]
  | some v => simp

theorem neighbours_eq (hs : s.Synced) (hw : s.arena.WellFormed) :
    s.graph.neighbours = s.arena.neighbours s.arena.readerTable := by
  funext dir i
  cases dir with
  | reads => simp [hs.neighbours_reads, Registry.neighbours]
  | readBy => simp [hs.neighbours_readBy hw, Registry.neighbours, getD_readerTable hw]

theorem walk_eq (hs : s.Synced) (hw : s.arena.WellFormed) : s.graph.walk = s.arena.walk := by
  funext id dir
  simp only [DependencyGraph.walk, Registry.walk, hs.neighbours_eq hw, hs.size_eq, arena_slots]

theorem findPath_eq (hs : s.Synced) : s.graph.findPath = s.arena.findPath := by
  funext starts target
  simp only [DependencyGraph.findPath, Registry.findPath, hs.neighbours_reads, hs.size_eq,
    arena_slots]

theorem len_eq (hs : s.Synced) : s.len = s.arena.size := by
  simp [Store.len, Registry.size, hs.names_eq]

theorem handles_eq (hs : s.Synced) : s.handles = s.arena.entries := by
  simp [Store.handles, Registry.entries, hs.names_eq]

theorem bindNames_eq (hs : s.Synced) (xs : List String) :
    s.bindNames xs = s.arena.bindNames xs := by
  induction xs with
  | nil => rfl
  | cons x xs ih =>
      cases hx : s.arena.find? x with
      | none => simp [Store.bindNames, Registry.bindNames, hs.get_eq, hx]
      | some id => simp [Store.bindNames, Registry.bindNames, hs.get_eq, hx, ih]

theorem compile_eq (hs : s.Synced) : s.compile = s.arena.compile := by
  funext limits src
  simp only [Store.compile, Registry.compile, hs.bindNames_eq]
  rfl

theorem checkNew_eq (hs : s.Synced) (v : Variable) : s.checkNew v = s.arena.checkNew v := by
  have hlive : (fun p : Nat × String => !s.graph.contains p.1) =
      fun p => (s.arena.get? p.1).isNone := by
    funext p
    simp [hs.contains_eq]
  have hrem (f : BoundFormula) : s.arena.removedReference? f =
      ((f.refs.zip f.names).find? fun p => (s.arena.get? p.1).isNone).map (·.2) := rfl
  simp only [Store.checkNew, Registry.checkNew, hrem, hs.get_eq, hs.findPath_eq, hlive]
  cases v.formula? with
  | none => rfl
  | some f =>
      dsimp only
      cases (f.refs.zip f.names).find? fun p => (s.arena.get? p.1).isNone <;> rfl

/-! ## Each operation does to the arena what the registry's does -/

theorem register_eq (hs : s.Synced) (v : Variable) :
    s.register v = (s.arena.register v).map fun _ => s.insert v := by
  simp only [Store.register, Registry.register, hs.checkNew_eq]
  cases s.arena.checkNew v <;> rfl

theorem setConstant_eq (hs : s.Synced) (hw : s.arena.WellFormed) (h : Handle) (x : Float) :
    s.setConstant h x = (s.arena.setConstant h x).map s.withArena := by
  cases hr : s.arena.resolve h with
  | error e => simp [Store.setConstant, Registry.setConstant, hr, bind, Except.bind, Except.map]
  | ok p =>
      obtain ⟨id, w⟩ := p
      obtain ⟨hh, rfl, hw'⟩ := resolve_eq_ok.1 hr
      cases hc : w.body with
      | constant c =>
          have hwalk : s.graph.walk h.id .readBy = (s.arena.assign h.id x).walk h.id .readBy := by
            rw [hs.walk_eq hw, (sameShape_assign hw' hc x).walk_eq]
          rw [setConstant_of_constant hh hw' hc x]
          simp [Store.setConstant, hr, hw', hc, bind, Except.bind, pure, Except.pure, Except.map,
            hwalk, assign]
      | delegate f =>
          rw [setConstant_of_kind hh hw' (by simp [Variable.kind, hc]) x]
          simp [Store.setConstant, hr, hw', hc, bind, Except.bind, throw, throwThe,
            MonadExceptOf.throw, Except.map]
      | lazy f c' =>
          rw [setConstant_of_kind hh hw' (by simp [Variable.kind, hc]) x]
          simp [Store.setConstant, hr, hw', hc, bind, Except.bind, throw, throwThe,
            MonadExceptOf.throw, Except.map]

/-- A removal is the registry's, on the arena, and it also removes the node and the name: the
stored readers are the arena's. -/
theorem remove_eq (hs : s.Synced) (hw : s.arena.WellFormed) (h : Handle) :
    s.remove h = (s.arena.remove h).map fun r =>
      { s with
        graph := s.graph.removeNode h.id
        slots := r.slots
        names := removeName s.names (s.arena.nameOf h.id) } := by
  cases hr : s.arena.resolve h with
  | error e => simp [Store.remove, Registry.remove, hr, bind, Except.bind, Except.map]
  | ok p =>
      obtain ⟨id, w⟩ := p
      obtain ⟨hh, rfl, hw'⟩ := resolve_eq_ok.1 hr
      simp only [Store.remove, Registry.remove, hr, bind, Except.bind, hs.neighbours_readBy hw]
      cases s.arena.readersOf h.id with
      | nil => simp [hw', nameOf_of_get? hw', pure, Except.pure, Except.map]
      | cons j js =>
          simp [nameOf_of_get? hw', throw, throwThe, MonadExceptOf.throw, Except.map]

/-- Kahn's walk over the stored edges runs as the registry's: it visits live places only, where
the counts agree. -/
theorem kahn_eq (hs : s.Synced) (hw : s.arena.WellFormed) (fuel : Nat) :
    ∀ (queue : List Nat) (degree : Array (Option Nat)) (waiting : Array Nat) (placed : List Nat),
      s.arena.CountsAgree degree waiting →
      s.graph.kahn fuel queue degree placed = kahn s.arena.readerTable fuel queue waiting placed := by
  induction fuel with
  | zero => intro queue degree waiting placed _; cases queue <;> rfl
  | succ fuel ih =>
      intro queue degree waiting placed h
      cases queue with
      | nil => rfl
      | cons x queue =>
          have hlive : ∀ y ∈ s.graph.neighbours .readBy x, (s.arena.get? y).isSome := by
            intro y hy
            rw [hs.neighbours_readBy hw] at hy
            exact (mem_readersOf.1 hy).1
          obtain ⟨hrel, hcounts⟩ := h.foldl_release hlive []
          rw [DependencyGraph.kahn_succ_cons, kahn_succ_cons, hrel, ih _ _ _ _ hcounts,
            hs.neighbours_readBy hw, getD_readerTable hw]

theorem order_eq (hs : s.Synced) (hw : s.arena.WellFormed) : s.order = s.arena.order := by
  have hstart : s.arena.CountsAgree (s.graph.nodes.map (Option.map (·.dependencies.length)))
      ((List.range s.arena.slots.size).toArray.map fun i => (s.arena.refsOf i).length) := by
    refine ⟨by simp, fun y hy => ?_⟩
    have hnode := hs.node?_eq y
    obtain ⟨v, hv⟩ := isSome_get?_iff.1 hy
    rw [hv] at hnode
    simp only [DependencyGraph.node?, Option.map_some] at hnode
    have hjoin : (s.graph.nodes[y]?.map (Option.map fun a => a.dependencies.length)).join =
        some v.refs.length := by
      cases hn : s.graph.nodes[y]? with
      | none => simp [hn] at hnode
      | some o => simp_all
    have hlt : y < s.slots.size := lt_size_of_isSome hy
    simp [Array.getElem?_map, Array.getD_eq_getD_getElem?, hjoin, hlt, refsOf_of_get? hv]
  have hseeds : (List.range s.graph.nodes.size).filter
      (fun i => (s.graph.node? i).any (·.dependencies.isEmpty)) =
        s.arena.live.filter fun i => (s.arena.refsOf i).isEmpty := by
    rw [live, List.filter_filter, hs.size_eq]
    refine List.filter_congr fun i _ => ?_
    rw [hs.node?_eq i]
    cases hv : s.arena.get? i with
    | none => simp
    | some v => simp [refsOf_of_get? hv]
  unfold Store.order DependencyGraph.topologicalOrder Registry.order
  rw [hseeds, hs.kahn_eq hw _ _ _ _ _ hstart, hs.size_eq, arena_slots]

/-- A snapshot is the registry's, on the arena: it reads in the graph's order, which is the
registry's, by the stack walk, which reads what the recursive read does. -/
theorem snapshot_eq (hs : s.Synced) (hw : s.arena.WellFormed) :
    s.snapshot = s.arena.snapshot.map fun p => (p.1, s.withArena p.2) := by
  obtain ⟨entries, ev₁, ev₂, h₁, h₂, hsame, -⟩ := snapshotOf_valueOf hw
    (fun id => ((order_spec hw).2 id).1) (Evaluation.Agrees.empty s.arena) (Evaluation.Same.refl _)
  rw [Store.snapshot, Registry.snapshot, hs.order_eq hw, h₁, h₂]
  simp [Except.map, hsame.registry_eq]

theorem nodeCount_eq (hs : s.Synced) : s.graph.nodeCount = s.arena.size := by
  rw [DependencyGraph.nodeCount_eq, Registry.size, Registry.live, hs.size_eq]
  simp [hs.node?_eq]

/-! ## Each change keeps the store in step -/

theorem names_insert (hs : s.Synced) {v : Variable} (hfree : s.arena.find? v.name = none) :
    (s.insert v).2.names =
      (s.insert v).2.arena.live.map fun i => ((s.insert v).2.arena.nameOf i, i) := by
  have hany : s.names.any (·.1 == v.name) = false := by
    rw [hs.names_eq, Bool.eq_false_iff]
    simp only [ne_eq, List.any_eq_true, List.mem_map, beq_iff_eq, not_exists, not_and]
    rintro _ ⟨i, hi, rfl⟩ hname
    obtain ⟨w, hiw⟩ := isSome_get?_iff.1 (mem_live.1 hi)
    exact find?_eq_none.1 hfree i w hiw (by rw [← nameOf_of_get? hiw]; exact hname)
  have hname : ∀ i ∈ s.arena.live,
      ({ s.arena with slots := s.arena.slots.push (some v) } : Registry).nameOf i =
        s.arena.nameOf i := by
    intro i hi
    simp only [nameOf, get?_push, if_neg (Nat.ne_of_lt (lt_size_of_isSome (mem_live.1 hi)))]
  rw [show (s.insert v).2.names = insertName s.names v.name s.graph.nodes.size from rfl,
    arena_insert, live_push, insertName, hany, if_neg Bool.false_ne_true, hs.names_eq,
    hs.size_eq, List.map_append]
  congr 1
  · exact List.map_congr_left fun i hi => by rw [hname i hi]
  · simp [nameOf, Registry.get?]

/-- A variable that passes the checks of registration takes the next place in the arena, in
the graph and at the end of the name map. -/
theorem insert (hs : s.Synced) (hw : s.arena.WellFormed) {v : Variable}
    (hc : s.arena.checkNew v = .ok ()) (hv : ∀ f, v.formula? = some f → f.Compiled) :
    (s.insert v).2.Synced := by
  have hnew : ({ s.arena with slots := s.arena.slots.push (some v) } : Registry).get?
      s.slots.size = some v := by
    rw [get?_push]
    simp
  have hout : s.slots.size ∉ v.refs := fun h =>
    Nat.lt_irrefl _ ((hw.push hc hv).refs_lt _ v hnew _ h)
  have hnone : s.arena.readersOf s.slots.size = [] := hw.readersOf_size_eq_nil
  have hfresh : ∀ d, s.slots.size ∉ s.arena.readersOf d := fun d hi =>
    Nat.lt_irrefl _ (lt_size_of_isSome (mem_readersOf.1 hi).1)
  refine ⟨?_, fun i => ?_, hs.names_insert (checkNew_eq_ok hc).2⟩
  · simp [Store.insert, DependencyGraph.size_addNode, hs.size_eq]
  · rw [show (s.insert v).2.graph = (s.graph.addNode v.refs).2 from rfl,
      DependencyGraph.node?_addNode, arena_insert, get?_push, readersOf_push, arena_slots,
      hs.size_eq]
    by_cases hi : i = s.slots.size
    · subst hi
      simp [hnone, hout]
    · rw [if_neg hi, if_neg hi, hs.node?_eq i]
      by_cases hd : i ∈ v.refs
      · cases s.arena.get? i with
        | none => simp [hd]
        | some w =>
            simp only [hd, if_true, Option.map_some, Option.some.injEq]
            exact Adjacency.addDependent_of_not_mem (hfresh i)
      · simp [hd]

/-- The store mirrors only the names, the formulas and the live places of its arena, so an arena
of the same shape keeps it in step. -/
theorem withArena (hs : s.Synced) {r : Registry} (h : SameShape s.arena (s.withArena r).arena) :
    (s.withArena r).Synced := by
  have hmap : ∀ (o : Option Variable) (l : List Nat),
      o.map (fun v => (⟨v.refs, l⟩ : Adjacency)) = (o.map Variable.refs).map fun d => ⟨d, l⟩ := by
    intro o l
    cases o <;> rfl
  refine ⟨?_, fun i => ?_, ?_⟩
  · exact hs.size_eq.trans h.size_eq.symm
  · rw [show (s.withArena r).graph = s.graph from rfl, hs.node?_eq i, h.readersOf_eq, hmap,
      hmap, h.map_refs_eq]
  · rw [show (s.withArena r).names = s.names from rfl, hs.names_eq, h.live_eq, h.nameOf_eq]

theorem names_removeAt (hs : s.Synced) (hw : s.arena.WellFormed) {id : Nat} {v : Variable}
    (hv : s.arena.get? id = some v) :
    removeName s.names v.name =
      ({ s.arena with slots := s.arena.slots.set! id none } : Registry).live.map fun i =>
        (({ s.arena with slots := s.arena.slots.set! id none } : Registry).nameOf i, i) := by
  rw [removeName, hs.names_eq, live_set_none, List.filter_map]
  have hfilter : s.arena.live.filter ((fun p : String × Nat => p.1 != v.name) ∘
      fun i => (s.arena.nameOf i, i)) = s.arena.live.filter (· ≠ id) := by
    refine List.filter_congr fun i hi => ?_
    obtain ⟨w, hiw⟩ := isSome_get?_iff.1 (mem_live.1 hi)
    have hname : w.name = v.name ↔ i = id := by
      constructor
      · exact hw.names_inj i id w v hiw hv
      · rintro rfl
        rw [hiw, Option.some.injEq] at hv
        rw [hv]
    rw [← Bool.coe_iff_coe]
    simp [nameOf_of_get? hiw, hname]
  rw [hfilter]
  refine List.map_congr_left fun i hi => ?_
  rw [nameOf_set_none _ _ (by simpa using (List.mem_filter.1 hi).2)]

/-- Removing a variable that nothing reads empties its place, removes its node and drops it
from the readers of what it read, and removes its name. -/
theorem removeAt (hs : s.Synced) (hw : s.arena.WellFormed) {id : Nat} {v : Variable}
    (hv : s.arena.get? id = some v) (hreaders : s.arena.readersOf id = []) :
    ({ s with
        graph := s.graph.removeNode id
        slots := s.slots.set! id none
        names := removeName s.names v.name } : Store).Synced := by
  have hnode : s.graph.node? id = some ⟨v.refs, []⟩ := by simp [hs.node?_eq id, hv, hreaders]
  refine ⟨?_, fun i => ?_, ?_⟩
  · simp [DependencyGraph.size_removeNode, hs.size_eq]
  · show (s.graph.removeNode id).node? i =
      Option.map (fun w => ⟨w.refs,
          ({ s.arena with slots := s.arena.slots.set! id none } : Registry).readersOf i⟩)
        (({ s.arena with slots := s.arena.slots.set! id none } : Registry).get? i)
    rw [DependencyGraph.node?_removeNode _ hnode, get?_set_none, readersOf_set_none]
    by_cases hi : i = id
    · simp [hi]
    · rw [if_neg hi, if_neg (Ne.symm hi), hs.node?_eq i]
      by_cases hd : i ∈ v.refs
      · cases s.arena.get? i with
        | none => simp [hd]
        | some w =>
            simp only [hd, if_true, Option.map_some, Adjacency.removeDependent]
            congr
            funext j
            rw [← Bool.coe_iff_coe]
            simp
      · -- the removed variable does not read `i`, so it is none of its readers
        have hout : id ∉ s.arena.readersOf i := fun h =>
          hd (by simpa [refsOf_of_get? hv] using (mem_readersOf.1 h).2)
        simp only [hd, if_false]
        rw [List.filter_eq_self.2 fun j hj => by simpa using ne_of_mem_of_not_mem hj hout]
  · exact hs.names_removeAt hw hv

end Synced

/-! ## The representation invariant -/

/-- What a stored registry keeps true of its arena, its name map and its graph: the graph has a
node at exactly the live places; the name map holds the live variables' names, each once, with
their own places in order of place, so its handles are the live places in registration order,
each live name finds its place, and the map, the graph and the arena count the same variables;
a node's dependencies are its variable's references, distinct, earlier and live; a node's
dependents are exactly the nodes that read it, ascending; and no chain of stored edges returns to
where it started. -/
structure Consistent (s : Store) : Prop where
  size_eq : s.graph.nodes.size = s.slots.size
  contains_iff : ∀ i, s.graph.contains i ↔ (s.arena.get? i).isSome
  names_mem : ∀ x i, (x, i) ∈ s.names ↔ ∃ v, s.arena.get? i = some v ∧ v.name = x
  names_nodup : (s.names.map Prod.fst).Nodup
  names_ascend : (s.names.map Prod.snd).Pairwise (· < ·)
  handles : s.handles.map Prod.fst = s.arena.live
  get_name : ∀ i v, s.arena.get? i = some v → s.get v.name = some i
  len_eq : s.len = s.graph.nodeCount ∧ s.graph.nodeCount = s.arena.live.length
  dependencies : ∀ i v, s.arena.get? i = some v → ∃ a, s.graph.node? i = some a ∧
    a.dependencies = v.refs ∧ v.refs.Nodup ∧ ∀ d ∈ v.refs, d < i ∧ s.graph.contains d
  dependents : ∀ j a, s.graph.node? j = some a →
    (∀ i, i ∈ a.dependents ↔ ∃ b, s.graph.node? i = some b ∧ j ∈ b.dependencies) ∧
      a.dependents.Pairwise (· < ·)
  acyclic : ∀ i, ¬Relation.TransGen (fun i j => j ∈ s.graph.neighbours .reads i) i i

theorem Synced.consistent {s : Store} (hs : s.Synced) (hw : s.arena.WellFormed) :
    s.Consistent where
  size_eq := hs.size_eq
  contains_iff i := by rw [hs.contains_eq]
  names_mem x i := by
    rw [hs.names_eq, List.mem_map]
    constructor
    · rintro ⟨j, hj, hji⟩
      obtain ⟨rfl, rfl⟩ := Prod.mk.inj hji
      obtain ⟨v, hv⟩ := isSome_get?_iff.1 (mem_live.1 hj)
      exact ⟨v, hv, (nameOf_of_get? hv).symm⟩
    · rintro ⟨v, hv, rfl⟩
      exact ⟨i, mem_live.2 (by simp [hv]), by rw [nameOf_of_get? hv]⟩
  names_nodup := by
    rw [hs.names_eq, List.map_map]
    refine List.Nodup.map_on (fun i hi j hj hij => ?_) (nodup_live _)
    obtain ⟨v, hv⟩ := isSome_get?_iff.1 (mem_live.1 hi)
    obtain ⟨w, hw'⟩ := isSome_get?_iff.1 (mem_live.1 hj)
    simp only [Function.comp_def, nameOf_of_get? hv, nameOf_of_get? hw'] at hij
    exact hw.names_inj i j v w hv hw' hij
  names_ascend := by
    rw [hs.names_eq, List.map_map]
    simpa [Function.comp_def] using s.arena.pairwise_live
  handles := by rw [hs.handles_eq, map_fst_entries]
  get_name i v hv := by
    rw [hs.get_eq, ← nameOf_of_get? hv]
    exact find?_nameOf hw (by simp [hv])
  len_eq := ⟨by rw [hs.len_eq, hs.nodeCount_eq], by rw [hs.nodeCount_eq, Registry.size]⟩
  dependencies i v hv := ⟨_, by rw [hs.node?_eq i, hv]; rfl, rfl, hw.refs_nodup i v hv,
    fun d hd => ⟨hw.refs_lt i v hv d hd, by rw [hs.contains_eq]; exact hw.refs_live i v hv d hd⟩⟩
  dependents j a ha := by
    rw [hs.node?_eq j] at ha
    obtain ⟨v, -, rfl⟩ := Option.map_eq_some_iff.1 ha
    refine ⟨fun i => ?_, s.arena.pairwise_readersOf j⟩
    rw [mem_readersOf, hs.node?_eq i]
    cases hi : s.arena.get? i with
    | none => simp
    | some w => simp [refsOf_of_get? hi]
  acyclic i hi := by
    have hedge : ∀ a b, b ∈ s.graph.neighbours .reads a → s.arena.Edge .reads a b := by
      intro a b hab
      rw [hs.neighbours_reads] at hab
      exact ⟨isSome_of_mem_refsOf hab, hab⟩
    exact not_reaches_self hw .reads i (reaches_iff_transGen.2 (Relation.TransGen.mono hedge i i hi))

/-! ## Every call keeps a stored registry in step with its arena -/

/-- One call of the interface that succeeds on a stored registry, as `Registry.Step` has them. -/
inductive Step : Store → Store → Prop where
  | addConstant {s s' : Store} (name : String) (x : Float) (id : Nat) :
      s.addConstant name x = .ok (id, s') → Step s s'
  | addDelegate {s s' : Store} (name : String) (f : BoundFormula) (id : Nat) :
      f.Compiled → s.addDelegate name f = .ok (id, s') → Step s s'
  | addLazy {s s' : Store} (name : String) (f : BoundFormula) (id : Nat) :
      f.Compiled → s.addLazy name f = .ok (id, s') → Step s s'
  | setConstant {s s' : Store} (h : Handle) (x : Float) : s.setConstant h x = .ok s' → Step s s'
  | remove {s s' : Store} (h : Handle) : s.remove h = .ok s' → Step s s'
  | value {s s' : Store} (h : Handle) (x : Float) : s.value h = .ok (x, s') → Step s s'
  | snapshot {s s' : Store} (entries : List Snapshot.Entry) :
      s.snapshot = .ok (entries, s') → Step s s'

/-- The stored registries reached from an empty one by calls that succeed. -/
inductive Reachable : Store → Prop where
  | empty (ident : Nat) : Reachable (Store.empty ident)
  | step {s s' : Store} : Reachable s → Step s s' → Reachable s'

section Refines

variable {s s' : Store}

theorem register_refines (hs : s.Synced) (hw : s.arena.WellFormed) {v : Variable} {id : Nat}
    (hv : ∀ f, v.formula? = some f → f.Compiled) (h : s.register v = .ok (id, s')) :
    s'.Synced ∧ s.arena.register v = .ok (id, s'.arena) := by
  rw [hs.register_eq] at h
  cases hr : s.arena.register v with
  | error e => simp [hr, Except.map] at h
  | ok p =>
      obtain ⟨id', r⟩ := p
      simp only [hr, Except.map, Except.ok.injEq] at h
      obtain ⟨hc, rfl, rfl⟩ := register_eq_ok hr
      obtain rfl : id = s.graph.nodes.size := (congrArg Prod.fst h).symm
      obtain rfl : s' = (s.insert v).2 := (congrArg Prod.snd h).symm
      refine ⟨hs.insert hw hc hv, ?_⟩
      rw [arena_insert, hs.size_eq]
      rfl

theorem withArena_refines (hs : s.Synced) {r : Registry} (hshape : SameShape s.arena r) :
    (s.withArena r).Synced ∧ (s.withArena r).arena = r := by
  have ha := arena_withArena hshape.ident_eq
  exact ⟨hs.withArena (ha ▸ hshape), ha⟩

theorem setConstant_refines (hs : s.Synced) (hw : s.arena.WellFormed) {h : Handle} {x : Float}
    (hset : s.setConstant h x = .ok s') :
    s'.Synced ∧ s.arena.setConstant h x = .ok s'.arena := by
  rw [hs.setConstant_eq hw] at hset
  obtain ⟨r, hr, rfl⟩ := Formula.map_eq_ok.1 hset
  obtain ⟨hs', ha⟩ := withArena_refines hs (sameShape_setConstant hr)
  exact ⟨hs', by rw [ha, hr]⟩

theorem remove_refines (hs : s.Synced) (hw : s.arena.WellFormed) {h : Handle}
    (hrem : s.remove h = .ok s') : s'.Synced ∧ s.arena.remove h = .ok s'.arena := by
  rw [hs.remove_eq hw] at hrem
  obtain ⟨r, hr, rfl⟩ := Formula.map_eq_ok.1 hrem
  obtain ⟨-, hlive, hreaders, rfl⟩ := remove_eq_ok hr
  obtain ⟨v, hv⟩ := isSome_get?_iff.1 hlive
  rw [nameOf_of_get? hv]
  exact ⟨hs.removeAt hw hv hreaders, by rw [hr]; rfl⟩

theorem value_refines (hs : s.Synced) (hw : s.arena.WellFormed) {h : Handle} {x : Float}
    (hval : s.value h = .ok (x, s')) : s'.Synced ∧ s.arena.value h = .ok (x, s'.arena) := by
  rw [value_eq hw] at hval
  obtain ⟨⟨y, r⟩, hr, hp⟩ := Formula.map_eq_ok.1 hval
  obtain ⟨rfl, rfl⟩ := Prod.mk.inj hp
  obtain ⟨hs', ha⟩ := withArena_refines hs (sameShape_of_forget_eq (forget_value hr))
  exact ⟨hs', by rw [ha, hr]⟩

theorem snapshot_refines (hs : s.Synced) (hw : s.arena.WellFormed)
    {entries : List Snapshot.Entry} (hsnap : s.snapshot = .ok (entries, s')) :
    s'.Synced ∧ s.arena.snapshot = .ok (entries, s'.arena) := by
  rw [hs.snapshot_eq hw] at hsnap
  obtain ⟨⟨es, r⟩, hr, hp⟩ := Formula.map_eq_ok.1 hsnap
  obtain ⟨rfl, rfl⟩ := Prod.mk.inj hp
  obtain ⟨hs', ha⟩ := withArena_refines hs (sameShape_of_forget_eq (forget_snapshot hr))
  exact ⟨hs', by rw [ha, hr]⟩

/-- Each call on a store that keeps in step with a well-formed arena keeps it in step, and does
to the arena what the registry's call does. -/
theorem Step.refines (hs : s.Synced) (hw : s.arena.WellFormed) (hstep : Step s s') :
    s'.Synced ∧ Registry.Step s.arena s'.arena := by
  cases hstep with
  | addConstant name x id h =>
      obtain ⟨hs', hr⟩ := register_refines hs hw (by simp [Variable.formula?]) h
      exact ⟨hs', .addConstant name x id hr⟩
  | addDelegate name f id hf h =>
      obtain ⟨hs', hr⟩ := register_refines hs hw (fun g hg => by cases hg; exact hf) h
      exact ⟨hs', .addDelegate name f id hf hr⟩
  | addLazy name f id hf h =>
      obtain ⟨hs', hr⟩ := register_refines hs hw (fun g hg => by cases hg; exact hf) h
      exact ⟨hs', .addLazy name f id hf hr⟩
  | setConstant h x hset =>
      obtain ⟨hs', hr⟩ := setConstant_refines hs hw hset
      exact ⟨hs', .setConstant h x hr⟩
  | remove h hrem =>
      obtain ⟨hs', hr⟩ := remove_refines hs hw hrem
      exact ⟨hs', .remove h hr⟩
  | value h x hval =>
      obtain ⟨hs', hr⟩ := value_refines hs hw hval
      exact ⟨hs', .value h x hr⟩
  | snapshot entries hsnap =>
      obtain ⟨hs', hr⟩ := snapshot_refines hs hw hsnap
      exact ⟨hs', .snapshot entries hr⟩

/-- Every reachable stored registry keeps its name map and graph in step with its arena, and its
arena is a reachable registry. -/
theorem Reachable.refines (h : s.Reachable) : s.Synced ∧ s.arena.Reachable := by
  induction h with
  | empty ident => exact ⟨synced_empty ident, .empty ident⟩
  | step _ hstep ih =>
      obtain ⟨hs', hr'⟩ := hstep.refines ih.1 ih.2.wellFormed
      exact ⟨hs', ih.2.step hr'⟩

end Refines

/-! ## A sample stored registry -/

/-- The sample registry as stored: its arena, the names `a`, `d`, `l`, `m` in order, and both
directions of the edges `d → a`, `l → d`, `m → l` and `m → d`. -/
def sample (x : Float) (c : Cache) : Store where
  ident := 0
  slots := (Registry.sample x c).slots
  names := [("a", 0), ("d", 1), ("l", 2), ("m", 3)]
  graph := ⟨#[some ⟨[], [1]⟩, some ⟨[0], [2, 3]⟩, some ⟨[1], [3]⟩, some ⟨[2, 1], []⟩]⟩

/-- Registering `a = 1`, then `d`, `l` and `m` from their texts builds the sample. -/
theorem reachable_sample : (sample 1 .stale).Reachable := by
  obtain ⟨hfd, hfl, hfm⟩ := compiled_sampleFormulas
  exact (((Reachable.empty 0).step (.addConstant "a" 1 0 rfl)).step
    (.addDelegate "d" sampleFormulaD 1 hfd rfl) |>.step (.addLazy "l" sampleFormulaL 2 hfl rfl)).step
    (.addDelegate "m" sampleFormulaM 3 hfm rfl)

end Store

end Recalc
