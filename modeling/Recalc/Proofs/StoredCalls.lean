import Recalc.Proofs.Stored

/-! # The calls of a reachable store answer as the registry's calls on its arena -/

namespace Recalc

theorem foldl_firstOccurrences_of_nodup {α : Type} [BEq α] [LawfulBEq α] (xs seen : List α)
    (h : xs.Nodup) (hout : ∀ x ∈ xs, x ∉ seen) :
    xs.foldl (fun seen x => if seen.contains x then seen else seen ++ [x]) seen = seen ++ xs := by
  induction xs generalizing seen with
  | nil => simp
  | cons x xs ih =>
      have hx : seen.contains x = false := by simpa using hout x List.mem_cons_self
      rw [List.foldl_cons, hx, if_neg Bool.false_ne_true, ih _ (List.nodup_cons.1 h).2]
      · simp
      · intro y hy hmem
        rcases List.mem_append.1 hmem with hseen | hxy
        · exact hout y (List.mem_cons_of_mem x hy) hseen
        · exact (List.nodup_cons.1 h).1 (by simpa [List.mem_singleton.1 hxy] using hy)

theorem firstOccurrences_of_nodup {α : Type} [BEq α] [LawfulBEq α] {xs : List α} (h : xs.Nodup) :
    firstOccurrences xs = xs := by
  rw [firstOccurrences, foldl_firstOccurrences_of_nodup xs [] h (by simp)]
  rfl

namespace Evaluation

theorem length_remembered (ev : Evaluation) {refs : List Nat} {xs : List Float}
    (h : ev.remembered refs = .ok xs) : xs.length = refs.length := by
  induction refs generalizing xs with
  | nil =>
      simp only [remembered, Except.ok.injEq] at h
      simp [← h]
  | cons d ds ih =>
      unfold remembered at h
      cases hd : ev.find? d with
      | none => simp [hd] at h
      | some x =>
          cases hr : ev.remembered ds with
          | error e => simp [hd, hr, Except.map] at h
          | ok ys =>
              simp only [hd, hr, Except.map, Except.ok.injEq] at h
              simp [← h, ih hr]

end Evaluation

namespace Store

open Registry

variable {s : Store}

/-- The reference queries of a store are the registry's: a node's stored edges are the
variable's references and readers, which hold no repeats. -/
theorem Synced.related_eq (hs : s.Synced) (hw : s.arena.WellFormed) : s.related = s.arena.related := by
  funext h dir reach
  simp only [Store.related, Registry.related, hs.neighbours_eq hw, hs.walk_eq hw]
  cases s.arena.resolve h with
  | error e => rfl
  | ok p =>
      cases reach with
      | direct =>
          simp only [bind, Except.bind, pure, Except.pure,
            firstOccurrences_of_nodup (nodup_neighbours hw dir p.1)]
      | all => rfl

/-! ## Reference queries -/

/-- The guards of a stored registry that never fire. A shown name is always read from a live
place, never the placeholder of an empty one: in a refused removal, whose readers are the stored
dependents, in a refused registration's cycle, in the answers of reference queries and in the
references of snapshot entries. An assignment is refused as foreign only for a handle of another
registry. Compiling fails only in reading or in binding by the name map, never in lowering. A
snapshot succeeds. And every formula held has as many names and program inputs as references, a
program that reads only values it has computed and inputs it has, and is run on one remembered
value per reference. -/
structure GuardsHold (s : Store) : Prop where
  removal_names : ∀ h name readers, s.remove h = .error (.stillReferenced name readers) →
    (∃ v, s.arena.get? h.id = some v ∧ v.name = name) ∧
      readers = sortNames ((s.graph.neighbours .readBy h.id).map s.arena.nameOf) ∧
      ∀ i ∈ s.graph.neighbours .readBy h.id, (s.arena.get? i).isSome
  cycle_names : ∀ v name path, (∀ f, v.formula? = some f → f.Compiled) →
    s.register v = .error (.cyclicReference name path) →
    name = v.name ∧
      ∃ ids : List Nat, path = v.name :: ids.map s.arena.nameOf ∧ ∀ i ∈ ids, (s.arena.get? i).isSome
  query_names : ∀ h dir reach ids, s.related h dir reach = .ok ids →
    ∀ i ∈ ids, (s.arena.get? i).isSome
  snapshot_names : ∀ entries s', s.snapshot = .ok (entries, s') → ∀ e ∈ entries,
    ∃ i v, s.arena.get? i = some v ∧ e.references = sortNames (v.refs.map s.arena.nameOf) ∧
      ∀ d ∈ v.refs, (s.arena.get? d).isSome
  foreign_only : ∀ h x, s.setConstant h x = .error .foreignVariable → h.home ≠ s.ident
  compile_errors : ∀ limits src e, s.compile limits src = .error e →
    Formula.parse limits src = .error e ∨
      ∃ f, Formula.parse limits src = .ok f ∧ s.bindNames f.identifiers = .error e
  snapshot_ok : ∃ entries s', s.snapshot = .ok (entries, s')
  evaluators : ∀ i v f, s.arena.get? i = some v → v.formula? = some f →
    f.names.length = f.refs.length ∧ f.program.inputs = f.refs.length ∧ f.program.InBounds ∧
      ∀ (ev : Evaluation) xs, ev.remembered f.refs = .ok xs → xs.length = f.program.inputs

end Store

end Recalc
