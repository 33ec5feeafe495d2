import Recalc.Proofs.Order

/-! # The counting walk of a registry places variables as Kahn's algorithm over its graph does -/

namespace Recalc.Registry

/-! ## Kahn's algorithm over the graph -/

/-- The readers of `x` that wait for nothing once `x` joins the variables `placed`, ascending. -/
def released (r : Registry) (placed : List Nat) (x : Nat) : List Nat :=
  (r.readersOf x).filter fun y => (r.refsOf y).all (· ∈ placed ++ [x])

/-- A run of Kahn's algorithm with a first-in first-out queue, from a queue and the variables
placed so far to the order it ends with. -/
inductive KahnRun (r : Registry) : List Nat → List Nat → List Nat → Prop where
  | done (placed : List Nat) : KahnRun r [] placed placed
  | step {x : Nat} {queue placed out : List Nat} :
      KahnRun r (queue ++ r.released placed x) (placed ++ [x]) out →
      KahnRun r (x :: queue) placed out

theorem KahnRun.unique {r : Registry} {queue placed out out' : List Nat}
    (h : r.KahnRun queue placed out) (h' : r.KahnRun queue placed out') : out = out' := by
  induction h generalizing out' with
  | done placed =>
      cases h'
      rfl
  | step _ ih =>
      cases h' with
      | step h' => exact ih h'

/-! ## The counting walk runs it -/

section Counting

variable {r : Registry} {placed queue : List Nat} {waiting : Array Nat} {x : Nat}

/-- The readers whose count drops to zero are those that wait for nothing once the front of the
queue is placed. -/
theorem KahnInv.filter_readers_eq_released (hw : r.WellFormed)
    (hk : r.KahnInv placed (x :: queue) waiting) :
    (r.readersOf x).filter (fun y => waiting.getD y 0 - 1 == 0) = r.released placed x := by
  apply List.filter_congr
  intro y hy
  -- the count is one more than the references left once `x` is placed
  rw [← hk.waiting_reader hw hy, Nat.add_sub_cancel, Bool.eq_iff_iff, beq_iff_eq,
    List.countP_eq_zero, List.all_eq_true]
  simp only [decide_eq_true_eq, Classical.not_not]

/-- From a state that keeps the invariant, with rounds enough for the variables not yet placed,
the counting walk ends where Kahn's algorithm over the graph ends. -/
theorem kahnRun_kahn (hw : r.WellFormed) (fuel : Nat) (placed queue : List Nat)
    (waiting : Array Nat) (hk : r.KahnInv placed queue waiting)
    (hfuel : r.live.length ≤ placed.length + fuel) :
    r.KahnRun queue placed (kahn r.readerTable fuel queue waiting placed) := by
  induction fuel generalizing placed queue waiting with
  | zero =>
      obtain rfl := hk.queue_eq_nil (by omega)
      exact .done placed
  | succ fuel ih =>
      cases queue with
      | nil => exact .done placed
      | cons x queue =>
          rw [kahn_succ_cons, getD_readerTable hw]
          have hstep := ih _ _ _ (hk.step hw) (by rw [List.length_append]; simp; omega)
          have hreleased := (foldl_releaseStep _ ((r.pairwise_readersOf x).imp Nat.ne_of_lt)
            waiting []).1
          rw [hreleased, List.nil_append, hk.filter_readers_eq_released hw] at hstep ⊢
          exact .step hstep

end Counting

/-- The evaluation order of a well-formed registry is the order of Kahn's algorithm from the
variables that read nothing. -/
theorem kahnRun_order {r : Registry} (hw : r.WellFormed) :
    r.KahnRun (r.live.filter fun i => (r.refsOf i).isEmpty) [] r.order :=
  kahnRun_kahn hw _ _ _ _ (kahnInv_start r) (by simpa using length_live_le r)

/-! ## Each variable after what it reads -/

/-- Every variable of the list comes after all the variables it reads. -/
def ReadsEarlier (r : Registry) (l : List Nat) : Prop :=
  ∀ pre y post, l = pre ++ y :: post → ∀ d ∈ r.refsOf y, d ∈ pre

theorem ReadsEarlier.append_singleton {r : Registry} {l : List Nat} {x : Nat}
    (h : r.ReadsEarlier l) (hx : ∀ d ∈ r.refsOf x, d ∈ l) : r.ReadsEarlier (l ++ [x]) := by
  intro pre y post hl d hd
  rcases List.eq_nil_or_concat post with rfl | ⟨post', z, rfl⟩
  · -- `y` is the variable added last
    obtain ⟨rfl, hy⟩ := List.append_inj' (show l ++ [x] = pre ++ [y] by simpa using hl) rfl
    obtain rfl : x = y := by simpa using hy
    exact hx d hd
  · obtain ⟨hl', -⟩ :=
      List.append_inj' (show l ++ [x] = (pre ++ y :: post') ++ [z] by simpa using hl) rfl
    exact h pre y post' hl' d hd

/-- Along a run, a variable is queued only once its references are placed, so the order it ends
with lists each variable after all it reads. -/
theorem KahnRun.readsEarlier {r : Registry} {queue placed out : List Nat}
    (h : r.KahnRun queue placed out) (hp : r.ReadsEarlier placed)
    (hq : ∀ y ∈ queue, ∀ d ∈ r.refsOf y, d ∈ placed) : r.ReadsEarlier out := by
  induction h with
  | done placed => exact hp
  | @step x queue placed out _ ih =>
      apply ih (hp.append_singleton (hq x List.mem_cons_self))
      intro y hy d hd
      rcases List.mem_append.1 hy with hy | hy
      · exact List.mem_append_left _ (hq y (List.mem_cons_of_mem x hy) d hd)
      · -- a released reader waits for nothing
        have hall := (List.mem_filter.1 hy).2
        simp only [List.all_eq_true, decide_eq_true_eq] at hall
        exact hall d hd

/-! ## The evaluation order of every reachable registry -/

/-- What an evaluation order of a registry is. It lists every live variable once and nothing
else, each after all the variables it reads. It is the order of Kahn's algorithm with a
first-in first-out queue, seeded with the variables that read nothing in registration order, in
which each variable placed releases its readers in registration order; the places of live
variables and of the readers of each place ascend. -/
structure KahnOrder (r : Registry) (order : List Nat) : Prop where
  nodup : order.Nodup
  mem : ∀ y, y ∈ order ↔ (r.get? y).isSome
  reads_earlier : ∀ pre y post, order = pre ++ y :: post → ∀ d ∈ r.refsOf y, d ∈ pre
  kahn : ∀ out, r.KahnRun (r.live.filter fun i => (r.refsOf i).isEmpty) [] out ↔ out = order
  seeds_ascend : (r.live.filter fun i => (r.refsOf i).isEmpty).Pairwise (· < ·)
  readers_ascend : ∀ x, (r.readersOf x).Pairwise (· < ·)

theorem WellFormed.kahnOrder {r : Registry} (hw : r.WellFormed) : r.KahnOrder r.order := by
  obtain ⟨hnodup, hmem⟩ := order_spec hw
  refine ⟨hnodup, hmem, ?_, ?_, r.pairwise_live.filter _, r.pairwise_readersOf⟩
  · -- the queue starts with variables that read nothing
    refine (kahnRun_order hw).readsEarlier (by simp [ReadsEarlier]) ?_
    intro y hy d hd
    have hnil := (List.mem_filter.1 hy).2
    simp only [List.isEmpty_iff] at hnil
    simp [hnil] at hd
  · intro out
    exact ⟨fun h => h.unique (kahnRun_order hw), fun h => h ▸ kahnRun_order hw⟩

end Recalc.Registry
