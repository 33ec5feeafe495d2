import Recalc.Proofs.Representation

/-! # Kahn's walk lists every live variable of a well-formed registry once -/

namespace Recalc.Registry

/-! ## One round -/

/-- What one reader of the variable taken from the queue does to the counts and the variables
released so far. -/
def releaseStep (p : Array Nat × List Nat) (y : Nat) : Array Nat × List Nat :=
  let k := p.1.getD y 0 - 1
  (p.1.set! y k, if k == 0 then p.2 ++ [y] else p.2)

theorem kahn_succ_cons (table : Array (List Nat)) (fuel x : Nat) (queue : List Nat)
    (waiting : Array Nat) (placed : List Nat) :
    kahn table (fuel + 1) (x :: queue) waiting placed =
      kahn table fuel (queue ++ ((table.getD x []).foldl releaseStep (waiting, [])).2)
        ((table.getD x []).foldl releaseStep (waiting, [])).1 (placed ++ [x]) := rfl

theorem getD_set! (w : Array Nat) (z v y : Nat) (hv : z < w.size ∨ v = 0) :
    (w.set! z v).getD y 0 = if y = z then v else w.getD y 0 := by
  simp only [Array.getD_eq_getD_getElem?, Array.set!_eq_setIfInBounds,
    Array.getElem?_setIfInBounds]
  by_cases hy : y = z
  · subst hy
    rcases hv with hv | hv
    · simp [hv]
    · by_cases hlt : y < w.size <;> simp [hlt, hv]
  · simp [hy, Ne.symm hy]

/-- Releasing the readers `ys`, each once: each count drops by one, and the readers released are
those whose count was one, in order. -/
theorem foldl_releaseStep (ys : List Nat) (hys : ys.Nodup) (w : Array Nat) (rel : List Nat) :
    (ys.foldl releaseStep (w, rel)).2 = rel ++ ys.filter (fun y => w.getD y 0 - 1 == 0) ∧
      ∀ y, (ys.foldl releaseStep (w, rel)).1.getD y 0 =
        if y ∈ ys then w.getD y 0 - 1 else w.getD y 0 := by
  induction ys generalizing w rel with
  | nil => simp
  | cons z zs ih =>
      obtain ⟨hz, hzs⟩ := List.nodup_cons.1 hys
      -- a count read past the array is zero, so setting it there changes nothing
      have hfit : z < w.size ∨ w.getD z 0 - 1 = 0 := by
        by_cases hlt : z < w.size
        · exact .inl hlt
        · right
          simp [Array.getD_eq_getD_getElem?, Array.getElem?_eq_none (Nat.le_of_not_lt hlt)]
      have hset := fun y => getD_set! w z (w.getD z 0 - 1) y hfit
      obtain ⟨ih₁, ih₂⟩ := ih hzs (w.set! z (w.getD z 0 - 1))
        (if w.getD z 0 - 1 == 0 then rel ++ [z] else rel)
      have hrest : zs.filter (fun y => (w.set! z (w.getD z 0 - 1)).getD y 0 - 1 == 0) =
          zs.filter (fun y => w.getD y 0 - 1 == 0) := by
        apply List.filter_congr
        intro y hy
        have hne : y ≠ z := fun h => hz (h ▸ hy)
        rw [hset y, if_neg hne]
      refine ⟨?_, fun y => ?_⟩
      · simp only [List.foldl_cons, releaseStep] at ih₁ ⊢
        rw [ih₁, hrest, List.filter_cons]
        split <;> simp
      · simp only [List.foldl_cons, releaseStep] at ih₂ ⊢
        rw [ih₂ y, hset y]
        by_cases hy : y = z
        · subst hy
          simp [hz]
        · by_cases hm : y ∈ zs <;> simp [hy, hm]

/-! ## What the walk keeps -/

/-- The state of the walk over a well-formed registry: the variables `placed`, the `queue`, and
the `waiting` counts. Placed and queued variables are live and distinct; a live variable is
placed or queued exactly when all its references are placed; and a live variable neither placed
nor queued waits for as many references as are not yet placed. -/
structure KahnInv (r : Registry) (placed queue : List Nat) (waiting : Array Nat) : Prop where
  nodup : (placed ++ queue).Nodup
  live : ∀ y ∈ placed ++ queue, (r.get? y).isSome
  ready : ∀ y, (r.get? y).isSome → (y ∈ placed ++ queue ↔ ∀ d ∈ r.refsOf y, d ∈ placed)
  waits : ∀ y, (r.get? y).isSome → y ∉ placed ++ queue →
    waiting.getD y 0 = (r.refsOf y).countP (· ∉ placed)

theorem countP_not_mem_append_singleton {xs placed : List Nat} {x : Nat} (hx : x ∈ xs)
    (hxp : x ∉ placed) (hnd : xs.Nodup) :
    xs.countP (· ∉ placed ++ [x]) + 1 = xs.countP (· ∉ placed) := by
  have hperm := List.perm_cons_erase hx
  have hnx : x ∉ xs.erase x := hnd.not_mem_erase
  have hsame : (xs.erase x).countP (· ∉ placed ++ [x]) = (xs.erase x).countP (· ∉ placed) := by
    apply List.countP_congr
    intro d hd
    have hdx : d ≠ x := fun h => hnx (h ▸ hd)
    simp [hdx]
  rw [hperm.countP_eq, hperm.countP_eq, List.countP_cons, List.countP_cons, hsame]
  simp [hxp]

theorem countP_not_mem_append_singleton_of_not_mem {xs placed : List Nat} {x : Nat}
    (hx : x ∉ xs) : xs.countP (· ∉ placed ++ [x]) = xs.countP (· ∉ placed) := by
  apply List.countP_congr
  intro d hd
  have hdx : d ≠ x := fun h => hx (h ▸ hd)
  simp [hdx]

section Step

variable {r : Registry} {placed queue : List Nat} {waiting : Array Nat} {x : Nat}

theorem KahnInv.not_mem_of_reader (hk : r.KahnInv placed (x :: queue) waiting) {y : Nat}
    (hy : y ∈ r.readersOf x) : y ∉ placed ++ x :: queue := by
  intro hmem
  obtain ⟨hlive, hxy⟩ := mem_readersOf.1 hy
  have hxp : x ∈ placed := (hk.ready y hlive).1 hmem x hxy
  have hnd := hk.nodup
  rw [List.nodup_append] at hnd
  exact hnd.2.2 x hxp x List.mem_cons_self rfl

theorem KahnInv.not_mem_placed (hk : r.KahnInv placed (x :: queue) waiting) : x ∉ placed := by
  have hnd := hk.nodup
  rw [List.nodup_append] at hnd
  exact fun hx => hnd.2.2 x hx x List.mem_cons_self rfl

theorem KahnInv.waiting_reader (hw : r.WellFormed) (hk : r.KahnInv placed (x :: queue) waiting)
    {y : Nat} (hy : y ∈ r.readersOf x) :
    (r.refsOf y).countP (· ∉ placed ++ [x]) + 1 = waiting.getD y 0 := by
  obtain ⟨hlive, hxy⟩ := mem_readersOf.1 hy
  obtain ⟨v, hv⟩ := isSome_get?_iff.1 hlive
  rw [hk.waits y hlive (hk.not_mem_of_reader hy)]
  exact countP_not_mem_append_singleton hxy hk.not_mem_placed
    (by rw [refsOf_of_get? hv]; exact hw.refs_nodup y v hv)

/-- After a round, a live variable is placed or queued exactly when its references are placed:
the readers released are those that waited for the front of the queue alone. -/
theorem KahnInv.ready_step (hw : r.WellFormed) (hk : r.KahnInv placed (x :: queue) waiting)
    {y : Nat} (hlive : (r.get? y).isSome) :
    y ∈ placed ++ x :: queue ++ (r.readersOf x).filter (fun y => waiting.getD y 0 - 1 == 0) ↔
      ∀ d ∈ r.refsOf y, d ∈ placed ++ [x] := by
  constructor
  · intro hmem d hd
    rcases List.mem_append.1 hmem with hmem | hmem
    · exact List.mem_append_left _ ((hk.ready y hlive).1 hmem d hd)
    · -- a released reader waited for one reference, now placed
      obtain ⟨hyr, hzero⟩ := List.mem_filter.1 hmem
      have hnone : (r.refsOf y).countP (· ∉ placed ++ [x]) = 0 := by
        have := hk.waiting_reader hw hyr
        simp only [beq_iff_eq] at hzero
        omega
      by_cases hd' : d ∈ placed ++ [x]
      · exact hd'
      · have hpos : 0 < (r.refsOf y).countP (· ∉ placed ++ [x]) :=
          List.countP_pos_iff.2 ⟨d, hd, by simpa using hd'⟩
        omega
  · intro hall
    by_cases hin : y ∈ placed ++ x :: queue
    · exact List.mem_append_left _ hin
    · by_cases hxy : x ∈ r.refsOf y
      · -- it waited for `x` alone, so it is released now
        have hyr : y ∈ r.readersOf x := mem_readersOf.2 ⟨hlive, hxy⟩
        have hnone : (r.refsOf y).countP (· ∉ placed ++ [x]) = 0 :=
          List.countP_eq_zero.2 fun d hd => by
            simpa [Classical.or_iff_not_imp_left] using hall d hd
        have := hk.waiting_reader hw hyr
        exact List.mem_append_right _
          (List.mem_filter.2 ⟨hyr, by simp only [beq_iff_eq]; omega⟩)
      · -- it does not read `x`, so its references were all placed before
        have hall' : ∀ d ∈ r.refsOf y, d ∈ placed := by
          intro d hd
          rcases List.mem_append.1 (hall d hd) with h | h
          · exact h
          · rw [List.mem_singleton.1 h] at hd
            exact absurd hd hxy
        exact absurd ((hk.ready y hlive).2 hall') hin

/-- One round keeps the invariant: the front of the queue is placed, and its readers that waited
for it alone are queued. -/
theorem KahnInv.step (hw : r.WellFormed) (hk : r.KahnInv placed (x :: queue) waiting) :
    r.KahnInv (placed ++ [x])
      (queue ++ ((r.readersOf x).foldl releaseStep (waiting, [])).2)
      ((r.readersOf x).foldl releaseStep (waiting, [])).1 := by
  have hnd_readers : (r.readersOf x).Nodup := (r.pairwise_readersOf x).imp Nat.ne_of_lt
  obtain ⟨hrel, hcount⟩ := foldl_releaseStep _ hnd_readers waiting []
  rw [List.nil_append] at hrel
  rw [hrel]
  have hsplit : placed ++ [x] ++ (queue ++
      (r.readersOf x).filter (fun y => waiting.getD y 0 - 1 == 0)) =
      (placed ++ x :: queue) ++ (r.readersOf x).filter (fun y => waiting.getD y 0 - 1 == 0) := by
    simp
  constructor
  · rw [hsplit, List.nodup_append]
    refine ⟨hk.nodup, hnd_readers.filter _, ?_⟩
    intro a ha b hb hab
    subst hab
    exact hk.not_mem_of_reader (List.mem_filter.1 hb).1 ha
  · rw [hsplit]
    intro y hy
    rcases List.mem_append.1 hy with hy | hy
    · exact hk.live y hy
    · exact (mem_readersOf.1 (List.mem_filter.1 hy).1).1
  · rw [hsplit]
    exact fun y hlive => hk.ready_step hw hlive
  · rw [hsplit]
    intro y hlive hout
    have hout' : y ∉ placed ++ x :: queue := fun h => hout (List.mem_append_left _ h)
    rw [hcount y]
    by_cases hyr : y ∈ r.readersOf x
    · rw [if_pos hyr, ← hk.waiting_reader hw hyr]
      rfl
    · rw [if_neg hyr, hk.waits y hlive hout']
      have hxy : x ∉ r.refsOf y := fun h => hyr (mem_readersOf.2 ⟨hlive, h⟩)
      exact (countP_not_mem_append_singleton_of_not_mem hxy).symm

end Step

/-! ## The whole walk -/

/-- With an empty queue, every live variable is placed: the least one left out would have all its
references placed. -/
theorem KahnInv.mem_placed {r : Registry} (hw : r.WellFormed) {placed : List Nat}
    {waiting : Array Nat} (hk : r.KahnInv placed [] waiting) (y : Nat)
    (hy : (r.get? y).isSome) : y ∈ placed := by
  -- on the place: a variable reads only earlier places
  induction y using Nat.strongRecOn with
  | ind y ih =>
      obtain ⟨v, hv⟩ := isSome_get?_iff.1 hy
      have hall : ∀ d ∈ r.refsOf y, d ∈ placed := by
        intro d hd
        rw [refsOf_of_get? hv] at hd
        exact ih d (hw.refs_lt y v hv d hd) (hw.refs_live y v hv d hd)
      simpa using (hk.ready y hy).2 hall

theorem KahnInv.queue_eq_nil {r : Registry} {placed queue : List Nat} {waiting : Array Nat}
    (hk : r.KahnInv placed queue waiting) (hlen : r.live.length ≤ placed.length) : queue = [] := by
  have hle : (placed ++ queue).length ≤ r.live.length :=
    hk.nodup.length_le_of_subset fun y hy => mem_live.2 (hk.live y hy)
  rw [List.length_append] at hle
  exact List.eq_nil_of_length_eq_zero (by omega)

theorem kahn_spec {r : Registry} (hw : r.WellFormed) (fuel : Nat) (placed queue : List Nat)
    (waiting : Array Nat) (hk : r.KahnInv placed queue waiting)
    (hfuel : r.live.length ≤ placed.length + fuel) :
    (kahn r.readerTable fuel queue waiting placed).Nodup ∧
      ∀ y, y ∈ kahn r.readerTable fuel queue waiting placed ↔ (r.get? y).isSome := by
  induction fuel generalizing placed queue waiting with
  | zero =>
      obtain rfl := hk.queue_eq_nil (by omega)
      simp only [kahn]
      exact ⟨by simpa using hk.nodup, fun y => ⟨fun h => hk.live y (by simpa using h),
        hk.mem_placed hw y⟩⟩
  | succ fuel ih =>
      cases queue with
      | nil =>
          simp only [kahn]
          exact ⟨by simpa using hk.nodup, fun y => ⟨fun h => hk.live y (by simpa using h),
            hk.mem_placed hw y⟩⟩
      | cons x queue =>
          rw [kahn_succ_cons, getD_readerTable hw]
          apply ih _ _ _ (hk.step hw)
          rw [List.length_append, List.length_singleton]
          omega

/-- The walk starts with nothing placed, the variables that read nothing queued, and every
other variable waiting for all its references. -/
theorem kahnInv_start (r : Registry) :
    r.KahnInv [] (r.live.filter fun i => (r.refsOf i).isEmpty)
      ((List.range r.slots.size).toArray.map fun i => (r.refsOf i).length) := by
  constructor
  · rw [List.nil_append]
    exact (nodup_live r).filter _
  · intro y hy
    rw [List.nil_append] at hy
    exact mem_live.1 (List.mem_filter.1 hy).1
  · intro y hy
    simp [mem_live, hy, List.eq_nil_iff_forall_not_mem]
  · intro y hy _
    simp [Array.getD_eq_getD_getElem?, lt_size_of_isSome hy]

theorem length_live_le (r : Registry) : r.live.length ≤ r.slots.size := by
  simpa using (nodup_live r).length_le_of_subset
    (fun i hi => List.mem_range.2 (lt_size_of_isSome (mem_live.1 hi)))

/-- The evaluation order lists every live variable once, and nothing else. -/
theorem order_spec {r : Registry} (hw : r.WellFormed) :
    r.order.Nodup ∧ ∀ y, y ∈ r.order ↔ (r.get? y).isSome :=
  kahn_spec hw _ _ _ _ (kahnInv_start r) (by simpa using length_live_le r)

end Recalc.Registry
