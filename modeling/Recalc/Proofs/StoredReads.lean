import Recalc.Proofs.StoredCalls
import Recalc.Proofs.Coherence
import Recalc.Proofs.Assignment
import Recalc.Proofs.Snapshot
import Recalc.Proofs.Freshness
import Recalc.Proofs.ShortestChain

/-! # Reads, snapshots, assignments and path searches of a stored registry answer as the
registry's on its arena -/

namespace Recalc

namespace Store

open Registry

/-- The stored registry a call leaves: the one it returns, or the one it was given when it
fails. -/
def settle (s : Store) : Except Error Store → Store
  | .ok s' => s'
  | .error _ => s

end Store

namespace Registry.Call

/-- The stored registry after the call; a call that fails leaves it as it was. -/
def applyTo : Call → Store → Store
  | .addConstant name x, s => s.settle ((s.addConstant name x).map Prod.snd)
  | .addDelegate name f, s => s.settle ((s.addDelegate name f).map Prod.snd)
  | .addLazy name f, s => s.settle ((s.addLazy name f).map Prod.snd)
  | .setConstant h x, s => s.settle (s.setConstant h x)
  | .remove h, s => s.settle (s.remove h)
  | .value h, s => s.settle ((s.value h).map Prod.snd)
  | .snapshot, s => s.settle (s.snapshot.map Prod.snd)

def runOn (calls : List Call) (s : Store) : Store :=
  calls.foldl (fun s c => c.applyTo s) s

end Registry.Call

namespace Store

open Registry

variable {s : Store}

theorem map_snd_eq_ok {α : Type} {e : Except Error (α × Store)} {s' : Store}
    (h : e.map Prod.snd = .ok s') : ∃ a, e = .ok (a, s') := by
  obtain ⟨⟨a, s''⟩, he, rfl⟩ := Formula.map_eq_ok.1 h
  exact ⟨a, he⟩

/-- A call on a store in step with its arena settles as the registry's call on the arena does,
when every result the store's call gives is in step and is the registry's on the arena, and the
store's call fails whenever the registry's does. -/
theorem settle_refines (hs : s.Synced) {e : Except Error Store} {e' : Except Error Registry}
    (hok : ∀ s', e = .ok s' → s'.Synced ∧ e' = .ok s'.arena)
    (herr : ∀ err, e = .error err → ∃ err', e' = .error err') :
    (s.settle e).Synced ∧ (s.settle e).arena = s.arena.settle e' := by
  cases e with
  | ok s' =>
      obtain ⟨hs', he'⟩ := hok s' rfl
      exact ⟨hs', by rw [he']; rfl⟩
  | error err =>
      obtain ⟨err', he'⟩ := herr err rfl
      exact ⟨hs, by rw [he']; rfl⟩

theorem register_settle (hs : s.Synced) (hw : s.arena.WellFormed) {v : Variable}
    (hv : ∀ f, v.formula? = some f → f.Compiled) :
    (s.settle ((s.register v).map Prod.snd)).Synced ∧
      (s.settle ((s.register v).map Prod.snd)).arena =
        s.arena.settle ((s.arena.register v).map Prod.snd) := by
  refine settle_refines hs (fun s' h => ?_) (fun err h => ⟨err, ?_⟩)
  · obtain ⟨id, h⟩ := map_snd_eq_ok h
    obtain ⟨hs', hr⟩ := register_refines hs hw hv h
    exact ⟨hs', by rw [hr]; rfl⟩
  · rw [hs.register_eq, Formula.map_eq_error, Formula.map_eq_error] at h
    rw [h]
    rfl

/-- One call on a store in step with a well-formed arena keeps it in step, and leaves as its
arena what the call leaves of the arena. -/
theorem applyTo_refines (hs : s.Synced) (hw : s.arena.WellFormed) {c : Call} (hc : c.Valid) :
    (c.applyTo s).Synced ∧ (c.applyTo s).arena = c.apply s.arena := by
  cases c with
  | addConstant name x => exact register_settle hs hw (by simp [Variable.formula?])
  | addDelegate name f => exact register_settle hs hw fun g hg => by cases hg; exact hc
  | addLazy name f => exact register_settle hs hw fun g hg => by cases hg; exact hc
  | setConstant h x =>
      refine settle_refines hs (fun s' hset => setConstant_refines hs hw hset) fun err h => ⟨err, ?_⟩
      rwa [hs.setConstant_eq hw, Formula.map_eq_error] at h
  | remove h =>
      refine settle_refines hs (fun s' hrem => remove_refines hs hw hrem) fun err h => ⟨err, ?_⟩
      rwa [hs.remove_eq hw, Formula.map_eq_error] at h
  | value h =>
      refine settle_refines hs (fun s' hval => ?_) fun err h => ⟨err, ?_⟩
      · obtain ⟨x, hval⟩ := map_snd_eq_ok hval
        obtain ⟨hs', hr⟩ := value_refines hs hw hval
        exact ⟨hs', by rw [hr]; rfl⟩
      · rw [value_eq hw, Formula.map_eq_error, Formula.map_eq_error] at h
        rw [h]
        rfl
  | snapshot =>
      refine settle_refines hs (fun s' hsnap => ?_) fun err h => ⟨err, ?_⟩
      · obtain ⟨entries, hsnap⟩ := map_snd_eq_ok hsnap
        obtain ⟨hs', hr⟩ := snapshot_refines hs hw hsnap
        exact ⟨hs', by rw [hr]; rfl⟩
      · rw [hs.snapshot_eq hw, Formula.map_eq_error, Formula.map_eq_error] at h
        rw [h]
        rfl

/-- A run of calls on a store in step with a reachable arena keeps it in step, and leaves as its
arena what the run leaves of the arena. -/
theorem runOn_refines (hs : s.Synced) (hr : s.arena.Reachable) {calls : List Call}
    (hc : ∀ c ∈ calls, c.Valid) :
    (Call.runOn calls s).Synced ∧ (Call.runOn calls s).arena = Call.run calls s.arena := by
  induction calls generalizing s with
  | nil => exact ⟨hs, rfl⟩
  | cons c cs ih =>
      obtain ⟨hs', ha⟩ := applyTo_refines hs hr.wellFormed (hc c List.mem_cons_self)
      have hr' : (c.applyTo s).arena.Reachable := ha ▸ Call.reachable_apply hr (hc c List.mem_cons_self)
      obtain ⟨hs'', ha'⟩ := ih hs' hr' fun c' hc' => hc c' (List.mem_cons_of_mem c hc')
      exact ⟨hs'', by rw [Call.runOn, List.foldl_cons, ← Call.runOn, ha', ha]; rfl⟩

theorem value_map_fst_eq (hw : s.arena.WellFormed) (h : Handle) :
    (s.value h).map Prod.fst = (s.arena.value h).map Prod.fst := by
  rw [value_eq hw]
  cases s.arena.value h <;> rfl

theorem arena_withArena_of_forget {r : Registry} (h : r.forget = s.arena.forget) :
    (s.withArena r).arena = r :=
  arena_withArena (sameShape_of_forget_eq h).ident_eq

/-- A read of a store gives what the read of its arena gives, with the arena it leaves. -/
theorem value_of_arena (hw : s.arena.WellFormed) {h : Handle} {x : Float} {r : Registry}
    (hval : s.arena.value h = .ok (x, r)) :
    s.value h = .ok (x, s.withArena r) ∧ (s.withArena r).arena = r :=
  ⟨by rw [value_eq hw, hval]; rfl, arena_withArena_of_forget (forget_value hval)⟩

/-- A snapshot of a store gives what the snapshot of its arena gives, with the arena it leaves. -/
theorem snapshot_of_arena (hs : s.Synced) (hw : s.arena.WellFormed)
    {entries : List Snapshot.Entry} {r : Registry} (hsnap : s.arena.snapshot = .ok (entries, r)) :
    s.snapshot = .ok (entries, s.withArena r) ∧ (s.withArena r).arena = r :=
  ⟨by rw [hs.snapshot_eq hw, hsnap]; rfl, arena_withArena_of_forget (forget_snapshot hsnap)⟩

/-! ## The sample as stored, read and assigned -/

theorem arena_sample (x : Float) (c : Cache) : (sample x c).arena = Registry.sample x c := rfl

/-- Reading `l` walks its stack through `d` to `a` and fills its cache. -/
theorem value_sample_l (x : Float) (hw : (Registry.sample x .stale).WellFormed) :
    (sample x .stale).value ⟨0, 2⟩ = .ok (x, sample x (.fresh x)) := by
  rw [value_eq (show (sample x .stale).arena.WellFormed from hw), arena_sample,
    Registry.value_sample_l]
  rfl

theorem setConstant_sample :
    (sample 1 (.fresh 1)).setConstant ⟨0, 0⟩ 2 = .ok (sample 2 .stale) := by
  rfl

theorem reachable_sample_read : (sample 1 (.fresh 1)).Reachable :=
  reachable_sample.step (.value ⟨0, 2⟩ 1 (value_sample_l 1 Registry.reachable_sample.wellFormed))

theorem reachable_sample_set : (sample 2 .stale).Reachable :=
  reachable_sample_read.step (.setConstant ⟨0, 0⟩ 2 setConstant_sample)

theorem reachable_sample_reread : (sample 2 (.fresh 2)).Reachable :=
  reachable_sample_set.step
    (.value ⟨0, 2⟩ 2 (value_sample_l 2 Registry.reachable_sample_set.wellFormed))

/-! ## Reads return the meaning -/

/-- What reads of a stored registry promise. The meaning of a constant of its arena is its value,
and that of a formula its program run on the meanings of what it reads, in order; every fresh
cache holds its variable's meaning; a read of a live variable, by the stack walk, returns its
meaning and changes nothing but caches, neither the name map nor the graph; and whichever reads
are added to a sequence of calls or taken out of it, every read after the sequence returns the
same. -/
structure ReadsFaithful (s : Store) : Prop where
  denote_constant : ∀ i v x, s.arena.get? i = some v → v.body = .constant x → s.arena.denote i = x
  denote_formula : ∀ i v f, s.arena.get? i = some v → v.formula? = some f →
    s.arena.denote i = f.program.run (f.refs.map s.arena.denote)
  caches : s.arena.CachesAgree
  value : ∀ h, s.arena.Live h → ∃ s', s.value h = .ok (s.arena.denote h.id, s') ∧
    s'.arena.forget = s.arena.forget ∧ s'.names = s.names ∧ s'.graph = s.graph
  later : ∀ calls₁ calls₂ : List Call, (∀ c ∈ calls₁ ++ calls₂, c.Valid) →
    calls₁.filter (fun c => !c.isRead) = calls₂.filter (fun c => !c.isRead) →
    ∀ h, ((Call.runOn calls₁ s).value h).map Prod.fst =
      ((Call.runOn calls₂ s).value h).map Prod.fst

theorem reachable_readsFaithful (h : s.Reachable) : s.ReadsFaithful := by
  obtain ⟨hs, hr⟩ := h.refines
  have hw := hr.wellFormed
  have ha := hr.readsFaithful
  refine ⟨ha.denote_constant, ha.denote_formula, ha.caches, fun hd hh => ?_,
    fun calls₁ calls₂ hvalid hreads hd => ?_⟩
  · obtain ⟨r', hval, hforget⟩ := ha.value hd hh
    obtain ⟨hval', harena⟩ := value_of_arena hw hval
    exact ⟨s.withArena r', hval', by rw [harena, hforget], rfl, rfl⟩
  · have hc₁ : ∀ c ∈ calls₁, c.Valid := fun c hc => hvalid c (List.mem_append_left calls₂ hc)
    have hc₂ : ∀ c ∈ calls₂, c.Valid := fun c hc => hvalid c (List.mem_append_right calls₁ hc)
    obtain ⟨-, ha₁⟩ := runOn_refines hs hr hc₁
    obtain ⟨-, ha₂⟩ := runOn_refines hs hr hc₂
    have hw₁ : (Call.runOn calls₁ s).arena.WellFormed := ha₁ ▸ (Call.reachable_run hr hc₁).wellFormed
    have hw₂ : (Call.runOn calls₂ s).arena.WellFormed := ha₂ ▸ (Call.reachable_run hr hc₂).wellFormed
    rw [value_map_fst_eq hw₁, value_map_fst_eq hw₂, ha₁, ha₂]
    exact ha.later calls₁ calls₂ hvalid hreads hd

theorem reachable_readsFaithful_sample :
    (sample 2 (.fresh 2)).Reachable ∧ (sample 2 (.fresh 2)).ReadsFaithful :=
  ⟨reachable_sample_reread, reachable_readsFaithful reachable_sample_reread⟩

/-! ## Assigning a constant -/

/-- What assigning `x` through the handle `h` does to a stored registry. On a live constant the
call succeeds: the constant holds `x`; every variable that the referencing query with every reach
lists, following the stored edges, keeps its name and formula but loses its cached value; and
every other variable, the name map and the graph stay as they were. Any other handle is refused:
one of another registry, then one whose variable was removed, then one of a variable that is no
constant; and a refused call leaves the stored registry as it was. -/
structure SetsConstant (s : Store) (h : Handle) (x : Float) : Prop where
  ok : ∀ v c, h.home = s.ident → s.arena.get? h.id = some v → v.body = .constant c →
    ∃ s' ids, s.setConstant h x = .ok s' ∧ s.related h .readBy .all = .ok ids ∧
      s'.names = s.names ∧ s'.graph = s.graph ∧ s'.slots.size = s.slots.size ∧
      s'.arena.get? h.id = some { v with body := .constant x } ∧
      (∀ i ∈ ids, s'.arena.get? i = (s.arena.get? i).map Variable.invalidate) ∧
      ∀ i, i ≠ h.id → i ∉ ids → s'.arena.get? i = s.arena.get? i
  foreign : h.home ≠ s.ident → s.setConstant h x = .error .foreignVariable
  removed : h.home = s.ident → s.arena.get? h.id = none →
    s.setConstant h x = .error (.removedVariable h.id)
  notConstant : ∀ v, h.home = s.ident → s.arena.get? h.id = some v → v.kind ≠ .constant →
    s.setConstant h x = .error (.notConstant v.name)
  unchanged : ∀ e, s.setConstant h x = .error e → (Call.setConstant h x).applyTo s = s

theorem reachable_setsConstant (hreach : s.Reachable) (h : Handle) (x : Float) :
    s.SetsConstant h x := by
  obtain ⟨hs, hr⟩ := hreach.refines
  have hw := hr.wellFormed
  have ha := hr.setsConstant h x
  have hset := hs.setConstant_eq hw h x
  refine ⟨fun v c hh hv hc => ?_, fun hh => by rw [hset, ha.foreign hh]; rfl,
    fun hh hv => by rw [hset, ha.removed hh hv]; rfl,
    fun v hh hv hk => by rw [hset, ha.notConstant v hh hv hk]; rfl,
    fun e he => by simp [Call.applyTo, he, Store.settle]⟩
  obtain ⟨r', hr', hident, hsize, hget, hdropped, hkept, -⟩ := ha.ok v c hh hv hc
  have harena : (s.withArena r').arena = r' := arena_withArena hident
  refine ⟨s.withArena r', s.arena.walk h.id .readBy, by rw [hset, hr']; rfl, ?_, rfl, rfl, hsize,
    by rw [harena, hget], fun i hi => ?_, fun i hne hi => ?_⟩
  · rw [hs.related_eq hw]
    exact related_all ⟨hh, by simp [hv]⟩ .readBy
  · rw [harena]
    exact hdropped i ((mem_walk_iff hw h.id .readBy i).1 hi)
  · rw [harena]
    exact hkept i hne fun hi' => hi ((mem_walk_iff hw h.id .readBy i).2 hi')

theorem reachable_setsConstant_sample :
    (sample 1 (.fresh 1)).Reachable ∧ (sample 1 (.fresh 1)).SetsConstant ⟨0, 0⟩ 2 :=
  ⟨reachable_sample_read, reachable_setsConstant reachable_sample_read ⟨0, 0⟩ 2⟩

/-! ## Snapshots -/

/-- What a stored registry's snapshot reports for the variable at `id`: its name and kind, the
value a read of it alone returns, and the names of the variables it reads in byte order. -/
def EntryOf (s : Store) (id : Nat) (e : Snapshot.Entry) : Prop :=
  ∃ v, s.arena.get? id = some v ∧ e.name = v.name ∧ e.kind = v.kind ∧
    e.references = sortNames (v.refs.map s.arena.nameOf) ∧
    ∃ s', s.value ⟨s.ident, id⟩ = .ok (e.value, s')

/-- What a snapshot of the stored registry `s` that returns `entries` and leaves `s'` answers.
The evaluation order of the graph lists every live variable once and nothing else; the entries
follow it one for one, each as a read of that variable alone reports it; every live lazy variable
is left with a fresh cache; and the name map and the graph stay as they were. -/
structure SnapshotAnswers (s : Store) (entries : List Snapshot.Entry) (s' : Store) : Prop where
  order_nodup : s.order.Nodup
  mem_order : ∀ i, i ∈ s.order ↔ (s.arena.get? i).isSome
  entries : List.Forall₂ s.EntryOf s.order entries
  fresh : ∀ i v, s'.arena.get? i = some v → v.kind = .lazy → ∃ x, v.cache? = some (.fresh x)
  names_eq : s'.names = s.names
  graph_eq : s'.graph = s.graph

/-- What reads do to the lazy caches of a stored registry. Behind a fresh cache every lazy cache
is fresh. A read of a live variable, by the stack walk, succeeds and changes exactly the stale
caches of the variable and of the variables it reads along a chain, each to the meaning of its
variable, and nothing else, neither the name map nor the graph; after it, every lazy variable
among these has a fresh cache. Within a snapshot, the read of each variable of the evaluation
order, from where the reads before it left the arena, does the same; the snapshot as a whole
fills every stale cache and changes nothing else. -/
structure ReadsFill (s : Store) : Prop where
  fresh_closed : s.arena.FreshClosed
  value : ∀ h, s.arena.Live h → ∃ x s', s.value h = .ok (x, s') ∧
    s.arena.Fills (s.arena.Upstream h.id) s'.arena ∧ s'.names = s.names ∧ s'.graph = s.graph ∧
    ∀ j w, s.arena.Upstream h.id j → s'.arena.get? j = some w → w.kind = .lazy →
      ∃ y, w.cache? = some (.fresh y)
  each_read : ∀ pre id post, s.order = pre ++ id :: post →
    ∃ entries ev x ev', snapshotOf Evaluation.valueOf pre { registry := s.arena } =
        .ok (entries, ev) ∧ Evaluation.valueOf id ev = .ok (x, ev') ∧
      ev.registry.Fills (s.arena.Upstream id) ev'.registry
  snapshot : ∃ entries s', s.snapshot = .ok (entries, s') ∧
    s.arena.Fills (fun _ => True) s'.arena ∧ s'.names = s.names ∧ s'.graph = s.graph

/-- Over the stored edges of a store in step with a well-formed arena, and among live starts, the
path search answers nothing exactly when the target is neither a start nor reached from one along
references; what it answers is a chain of references from a start to the target, with no more
edges than any other such chain. -/
theorem Synced.findPath_spec (hs : s.Synced) (hw : s.arena.WellFormed) {starts : List Nat}
    {target : Nat} (hstarts : ∀ x ∈ starts, (s.arena.get? x).isSome) :
    (s.graph.findPath starts target = none ↔
        ¬∃ x ∈ starts, target = x ∨ s.arena.Reaches .reads x target) ∧
      ∀ path, s.graph.findPath starts target = some path →
        s.arena.IsShortestTrail starts target path := by
  rw [hs.findPath_eq]
  exact hw.findPath_answers hstarts

/-- From `c`, the path search over the sample's stored edges goes through `d` to `a`. -/
theorem findPath_spec_sample :
    (sample 1 .stale).Synced ∧ (sample 1 .stale).arena.WellFormed ∧
      (∀ x ∈ [3], ((sample 1 .stale).arena.get? x).isSome) ∧
      (sample 1 .stale).graph.findPath [3] 0 = some [3, 1, 0] ∧
      (((sample 1 .stale).graph.findPath [3] 0 = none ↔
          ¬∃ x ∈ [3], 0 = x ∨ (sample 1 .stale).arena.Reaches .reads x 0) ∧
        ∀ path, (sample 1 .stale).graph.findPath [3] 0 = some path →
          (sample 1 .stale).arena.IsShortestTrail [3] 0 path) := by
  obtain ⟨hs, hr⟩ := reachable_sample.refines
  have hstarts : ∀ x ∈ [3], ((sample 1 .stale).arena.get? x).isSome := by decide
  exact ⟨hs, hr.wellFormed, hstarts, by decide, Synced.findPath_spec hs hr.wellFormed hstarts⟩

end Store

end Recalc
