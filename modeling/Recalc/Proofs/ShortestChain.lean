import Recalc.Proofs.Registration

/-! # The breadth-first path search finds a chain with as few edges as any -/

namespace Recalc.Registry

open Relation

/-! ## Places by the number of edges from a start -/

section Layers

variable {next : Nat → List Nat} {starts : List Nat} {target : Nat}

variable (next starts) in
/-- `y` ends a walk of `k` edges from one of `starts`, each edge from a place to a neighbour. -/
inductive EndsWalk : Nat → Nat → Prop where
  | start {s : Nat} : s ∈ starts → EndsWalk 0 s
  | step {k x y : Nat} : EndsWalk k x → y ∈ next x → EndsWalk (k + 1) y

theorem EndsWalk.chain {k x : Nat} (hx : EndsWalk next starts k x) (l : List Nat)
    (hchain : (x :: l).IsChain fun a b => b ∈ next a) :
    EndsWalk next starts (k + l.length) ((x :: l).getLast (List.cons_ne_nil x l)) := by
  induction l generalizing x k with
  | nil => exact hx
  | cons y l ih =>
      obtain ⟨hy, hrest⟩ := List.isChain_cons_cons.1 hchain
      have h := ih (hx.step hy) hrest
      rw [List.getLast_cons_cons]
      rwa [List.length_cons, ← Nat.add_assoc, Nat.add_right_comm]

variable (next starts target) in
/-- The search before its round `k`, with the paths of the round, kept last place first, and the
places seen so far. -/
structure Layer (k : Nat) (paths : List (List Nat)) (seen : List Nat) : Prop where
  length : ∀ p ∈ paths, p.length = k + 1
  head : ∀ p ∈ paths, ∀ y, p.head? = some y → EndsWalk next starts k y
  seen : ∀ y ∈ seen, ∃ j ≤ k, EndsWalk next starts j y
  front : ∀ y, EndsWalk next starts k y →
    (∃ p ∈ paths, p.head? = some y) ∨ ∃ j < k, EndsWalk next starts j y
  farther : ∀ j < k, ¬EndsWalk next starts j target

theorem layer_start :
    Layer next starts target 0 ((firstOccurrences starts).map ([·]))
      (firstOccurrences starts) where
  length p hp := by
    obtain ⟨s, -, rfl⟩ := List.mem_map.1 hp
    rfl
  head p hp y hy := by
    obtain ⟨s, hs, rfl⟩ := List.mem_map.1 hp
    cases hy
    exact .start (mem_firstOccurrences.1 hs)
  seen y hy := ⟨0, Nat.le_refl 0, .start (mem_firstOccurrences.1 hy)⟩
  front y hy := by
    cases hy with
    | start hs => exact .inl ⟨[y], List.mem_map_of_mem (mem_firstOccurrences.2 hs), rfl⟩
  farther j hj := absurd hj (Nat.not_lt_zero j)

/-- A round that does not find the target leaves the search ready for the next one: the paths it
adds extend paths of the round by a neighbour, and every neighbour of their ends is seen. -/
theorem Layer.succ {k : Nat} {paths : List (List Nat)} {seen seen' : List Nat}
    {upcoming : List (List Nat)} (hl : Layer next starts target k paths seen)
    (h : pathLayer next target paths seen [] = .next seen' upcoming) :
    Layer next starts target (k + 1) upcoming seen' := by
  obtain ⟨added, rfl, -, -, hpaths, hfrom, -, htaken⟩ := pathLayer_eq_next next target h
  have hhead : ∀ q ∈ upcoming, ∀ y, q.head? = some y → EndsWalk next starts (k + 1) y := by
    intro q hq y hy
    rcases hfrom q hq with hq | ⟨x, back, z, hxb, hz, -, rfl⟩
    · cases hq
    · cases hy
      exact (hl.head _ hxb x rfl).step hz
  have hseen : ∀ y ∈ seen ++ added, ∃ j ≤ k + 1, EndsWalk next starts j y := by
    intro y hy
    rcases List.mem_append.1 hy with hy | hy
    · obtain ⟨j, hj, hw⟩ := hl.seen y hy
      exact ⟨j, Nat.le_succ_of_le hj, hw⟩
    · obtain ⟨q, hq, hqy⟩ := hpaths y hy
      exact ⟨k + 1, Nat.le_refl _, hhead q hq y hqy⟩
  have hfront : ∀ y, EndsWalk next starts (k + 1) y →
      (∃ q ∈ upcoming, q.head? = some y) ∨ ∃ j < k + 1, EndsWalk next starts j y := by
    intro y hy
    cases hy with
    | step hx hxy =>
        rename_i x
        rcases hl.front x hx with ⟨p, hp, hpx⟩ | ⟨j, hj, hw⟩
        · -- the round passed `x`, so it has seen `y`
          obtain ⟨back, rfl⟩ : ∃ back, p = x :: back := by
            cases p with
            | nil => cases hpx
            | cons z back =>
                cases hpx
                exact ⟨back, rfl⟩
          rcases List.mem_append.1 ((htaken x back hp).2 y hxy) with hy | hy
          · obtain ⟨j, hj, hw⟩ := hl.seen y hy
            exact .inr ⟨j, Nat.lt_succ_of_le hj, hw⟩
          · exact .inl (hpaths y hy)
        · exact .inr ⟨j + 1, Nat.succ_lt_succ hj, hw.step hxy⟩
  refine ⟨?_, hhead, hseen, hfront, ?_⟩
  · intro q hq
    rcases hfrom q hq with hq | ⟨x, back, y, hxb, -, -, rfl⟩
    · cases hq
    · rw [List.length_cons, hl.length _ hxb]
  · intro j hj htarget
    rcases Nat.lt_succ_iff_lt_or_eq.1 hj with hj | rfl
    · exact hl.farther j hj htarget
    · -- the target would end a path of this round, which is not the target
      rcases hl.front target htarget with ⟨p, hp, hpt⟩ | ⟨j', hj', hw⟩
      · cases p with
        | nil => cases hpt
        | cons z back =>
            cases hpt
            exact (htaken target back hp).1 rfl
      · exact hl.farther j' hj' hw

/-- The path a search finds from round `k` on has at least `k` edges and no more than any walk
from a start to the target. -/
theorem pathFrom_shortest {k : Nat} {paths : List (List Nat)} {seen : List Nat} (fuel : Nat)
    (hl : Layer next starts target k paths seen) {path : List Nat}
    (h : pathFrom next target fuel paths seen = some path) {j : Nat}
    (hj : EndsWalk next starts j target) : path.length ≤ j + 1 := by
  induction fuel generalizing k paths seen with
  | zero => cases h
  | succ fuel ih =>
      cases hround : pathLayer next target paths seen [] with
      | found path' =>
          simp only [pathFrom, hround, Option.some.injEq] at h
          subst h
          obtain ⟨back, hmem, rfl⟩ := pathLayer_eq_found next target hround
          rw [List.length_reverse, hl.length _ hmem]
          have hk : k ≤ j := Nat.le_of_not_lt fun hjk => hl.farther j hjk hj
          omega
      | next seen' upcoming =>
          simp only [pathFrom, hround] at h
          split at h
          · cases h
          · exact ih (hl.succ hround) h

end Layers

/-! ## Shortest chains of references -/

/-- A chain of references from one of `starts` to `target` with no more places than any other. -/
def IsShortestTrail (r : Registry) (starts : List Nat) (target : Nat) (path : List Nat) : Prop :=
  r.IsTrail starts target path ∧ ∀ q, r.IsTrail starts target q → path.length ≤ q.length

theorem IsTrail.endsWalk {r : Registry} {starts : List Nat} {target : Nat} {q : List Nat}
    (hq : r.IsTrail starts target q) : EndsWalk r.refsOf starts (q.length - 1) target := by
  obtain ⟨⟨s, hs, hhead⟩, hlast, hchain⟩ := hq
  obtain ⟨l, rfl⟩ : ∃ l, q = s :: l := by
    cases q with
    | nil => cases hhead
    | cons x l =>
        cases hhead
        exact ⟨l, rfl⟩
  have hstart : EndsWalk r.refsOf starts 0 s := .start hs
  have hw := hstart.chain l hchain
  rw [List.getLast?_eq_some_getLast (List.cons_ne_nil s l), Option.some.injEq] at hlast
  rw [hlast, Nat.zero_add] at hw
  simpa using hw

/-- The chain the search finds has no more places than any chain of references from a start to
the target. -/
theorem findPath_isShortestTrail {r : Registry} {starts : List Nat} {target : Nat}
    {path : List Nat} (h : r.findPath starts target = some path) :
    r.IsShortestTrail starts target path := by
  refine ⟨findPath_isTrail h, fun q hq => ?_⟩
  have hlen := pathFrom_shortest (r.slots.size + 1) layer_start h hq.endsWalk
  have hpos : 0 < q.length := by
    obtain ⟨⟨s, -, hhead⟩, -, -⟩ := hq
    cases q with
    | nil => cases hhead
    | cons x l => exact Nat.succ_pos _
  omega

/-- Among live starts, the search answers nothing exactly when the target is neither a start nor
reached from one along references; what it answers is a chain of references from a start to the
target, with no more edges than any other such chain. -/
theorem WellFormed.findPath_answers {r : Registry} (hw : r.WellFormed) {starts : List Nat} {target : Nat}
    (hstarts : ∀ s ∈ starts, (r.get? s).isSome) :
    (r.findPath starts target = none ↔ ¬∃ s ∈ starts, target = s ∨ r.Reaches .reads s target) ∧
      ∀ path, r.findPath starts target = some path → r.IsShortestTrail starts target path := by
  refine ⟨?_, fun path h => findPath_isShortestTrail h⟩
  rw [← findPath_isSome_iff hw hstarts, Option.not_isSome_iff_eq_none]

/-- A cycle refusal names the new variable and then a shortest chain of references from what it
reads to the variable that holds its name. -/
theorem checkNew_eq_cyclicReference_shortest {r : Registry} {v : Variable} {name : String}
    {path : List String} (h : r.checkNew v = .error (.cyclicReference name path)) :
    ∃ e ids, r.find? v.name = some e ∧ r.IsShortestTrail v.refs e ids ∧
      path = v.name :: ids.map r.nameOf := by
  obtain ⟨-, -, e, ids, he, hids, rfl⟩ := checkNew_eq_cyclicReference h
  exact ⟨e, ids, he, findPath_isShortestTrail hids, rfl⟩

end Recalc.Registry
