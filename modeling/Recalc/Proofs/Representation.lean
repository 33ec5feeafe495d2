import Recalc.Proofs.Walk

/-! # In a reachable registry the names, references and readers agree with the arena -/

namespace Recalc.Registry

/-! ## Live places and names -/

theorem pairwise_live (r : Registry) : r.live.Pairwise (· < ·) :=
  List.pairwise_lt_range.filter _

theorem map_fst_entries (r : Registry) : r.entries.map Prod.fst = r.live := by
  simp [entries, Function.comp_def]

theorem length_entries (r : Registry) : r.entries.length = r.size := by
  simp [entries, size]

theorem find?_nameOf {r : Registry} (hw : r.WellFormed) {i : Nat} (hi : (r.get? i).isSome) :
    r.find? (r.nameOf i) = some i := by
  obtain ⟨v, hv⟩ := isSome_get?_iff.1 hi
  rw [nameOf_of_get? hv]
  cases hf : r.find? v.name with
  | none => exact absurd rfl (find?_eq_none.1 hf i v hv)
  | some j =>
      obtain ⟨w, hw', hname⟩ := find?_eq_some hf
      rw [hw.names_inj j i w v hw' hv hname]

theorem find?_eq_some_iff {r : Registry} (hw : r.WellFormed) {x : String} {i : Nat} :
    r.find? x = some i ↔ (r.get? i).isSome ∧ r.nameOf i = x := by
  constructor
  · intro h
    obtain ⟨v, hv, hname⟩ := find?_eq_some h
    exact ⟨by simp [hv], by rw [nameOf_of_get? hv, hname]⟩
  · rintro ⟨hi, rfl⟩
    exact find?_nameOf hw hi

/-! ## The reader table -/

theorem size_foldl_readers (r : Registry) (readers : List Nat) (t : Array (List Nat)) :
    (readers.foldl (fun table i => (r.refsOf i).foldl (fun t d => t.modify d (· ++ [i])) table)
        t).size = t.size := by
  induction readers generalizing t with
  | nil => rfl
  | cons i is ih => rw [List.foldl_cons, ih, size_foldl_append]

theorem size_readerTable (r : Registry) : r.readerTable.size = r.slots.size := by
  rw [readerTable, size_foldl_readers, Array.size_replicate]

theorem pairwise_readersOf (r : Registry) (d : Nat) : (r.readersOf d).Pairwise (· < ·) :=
  r.pairwise_live.filter _

theorem readersOf_of_get?_none {r : Registry} (hw : r.WellFormed) {d : Nat}
    (hd : r.get? d = none) : r.readersOf d = [] := by
  rw [List.eq_nil_iff_forall_not_mem]
  intro i hi
  obtain ⟨hlive, hdi⟩ := mem_readersOf.1 hi
  obtain ⟨v, hv⟩ := isSome_get?_iff.1 hlive
  rw [refsOf_of_get? hv] at hdi
  have := hw.refs_live i v hv d hdi
  simp [hd] at this

/-! ## Every reachable registry is consistent -/

/-- What every reachable registry keeps of its representation. The reader table has one entry per
place, and an empty place has no references and no readers. Names resolve exactly to the live
places, so no two live variables share one, and the handles list the live places in registration
order, one per variable. A live variable's references are its formula's, distinct, live and
earlier; the stored readers of a place are exactly the live variables that read it, ascending.
Hence no variable reaches itself. -/
structure Consistent (r : Registry) : Prop where
  table_size : r.readerTable.size = r.slots.size
  empty_place : ∀ j, r.get? j = none → r.refsOf j = [] ∧ r.readerTable.getD j [] = []
  find : ∀ x i, r.find? x = some i ↔ (r.get? i).isSome ∧ r.nameOf i = x
  handles : (r.entries.map Prod.fst).Pairwise (· < ·) ∧
    ∀ i, i ∈ r.entries.map Prod.fst ↔ (r.get? i).isSome
  size_eq : r.size = r.entries.length
  refs : ∀ i v, r.get? i = some v → r.refsOf i = v.refs ∧ v.refs.Nodup ∧
    ∀ d ∈ v.refs, d < i ∧ (r.get? d).isSome
  readers : ∀ j, (∀ i, i ∈ r.readerTable.getD j [] ↔ (r.get? i).isSome ∧ j ∈ r.refsOf i) ∧
    (r.readerTable.getD j []).Pairwise (· < ·)
  acyclic : ∀ dir i, ¬r.Reaches dir i i

theorem WellFormed.consistent {r : Registry} (hw : r.WellFormed) : r.Consistent where
  table_size := r.size_readerTable
  empty_place j hj :=
    ⟨refsOf_of_get?_none hj, by rw [getD_readerTable hw, readersOf_of_get?_none hw hj]⟩
  find _ _ := find?_eq_some_iff hw
  handles := by
    rw [map_fst_entries]
    exact ⟨r.pairwise_live, fun i => mem_live⟩
  size_eq := (length_entries r).symm
  refs i v hv := ⟨refsOf_of_get? hv, hw.refs_nodup i v hv, fun d hd =>
    ⟨hw.refs_lt i v hv d hd, hw.refs_live i v hv d hd⟩⟩
  readers j := by
    rw [getD_readerTable hw]
    exact ⟨fun i => mem_readersOf, r.pairwise_readersOf j⟩
  acyclic := not_reaches_self hw

end Recalc.Registry
