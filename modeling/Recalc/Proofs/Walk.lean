import Recalc.Registry.Lookup
import Recalc.Proofs.WellFormed
import Mathlib.Logic.Relation

/-! # Breadth-first walks reach exactly the places joined to their start, each once -/

namespace Recalc.Registry

open Relation

/-! ## One round -/

section Round

variable (next : Nat → List Nat) (start : Nat)

theorem mem_walkLayer_fst (layer reached upcoming : List Nat) (x : Nat) :
    x ∈ (walkLayer next start layer (reached, upcoming)).1 ↔
      x ∈ reached ∨ (x ∈ layer ∧ x ≠ start) := by
  induction layer generalizing reached upcoming with
  | nil => simp [walkLayer]
  | cons y ys ih =>
      simp only [walkLayer]
      split
      · rename_i hskip
        rw [ih]
        simp only [Bool.or_eq_true, beq_iff_eq, List.contains_iff_mem] at hskip
        constructor
        · rintro (h | ⟨h, hne⟩)
          · exact .inl h
          · exact .inr ⟨List.mem_cons_of_mem y h, hne⟩
        · rintro (h | ⟨h, hne⟩)
          · exact .inl h
          · rcases List.mem_cons.1 h with rfl | h
            · rcases hskip with rfl | hr
              · exact absurd rfl hne
              · exact .inl hr
            · exact .inr ⟨h, hne⟩
      · rename_i hskip
        simp only [Bool.or_eq_true, beq_iff_eq, List.contains_iff_mem, not_or] at hskip
        rw [ih]
        simp only [List.mem_append, List.mem_cons, List.not_mem_nil, or_false]
        constructor
        · rintro ((h | rfl) | ⟨h, hne⟩)
          · exact .inl h
          · exact .inr ⟨.inl rfl, hskip.1⟩
          · exact .inr ⟨.inr h, hne⟩
        · rintro (h | ⟨rfl | h, hne⟩)
          · exact .inl (.inl h)
          · exact .inl (.inr rfl)
          · exact .inr ⟨h, hne⟩

theorem prefix_walkLayer_fst (layer reached upcoming : List Nat) :
    reached <+: (walkLayer next start layer (reached, upcoming)).1 := by
  induction layer generalizing reached upcoming with
  | nil => exact List.prefix_refl _
  | cons y ys ih =>
      simp only [walkLayer]
      split
      · exact ih reached upcoming
      · exact (List.prefix_append reached [y]).trans (ih _ _)

theorem nodup_walkLayer_fst (layer reached upcoming : List Nat) (h : reached.Nodup) :
    (walkLayer next start layer (reached, upcoming)).1.Nodup := by
  induction layer generalizing reached upcoming with
  | nil => exact h
  | cons y ys ih =>
      simp only [walkLayer]
      split
      · exact ih reached upcoming h
      · rename_i hskip
        simp only [Bool.or_eq_true, beq_iff_eq, List.contains_iff_mem, not_or] at hskip
        apply ih
        rw [List.nodup_append]
        refine ⟨h, List.pairwise_singleton _ y, ?_⟩
        rintro a ha b hb rfl
        simp only [List.mem_singleton] at hb
        exact hskip.2 (hb ▸ ha)

theorem mem_walkLayer_snd (layer reached upcoming : List Nat) (y : Nat) :
    y ∈ (walkLayer next start layer (reached, upcoming)).2 ↔
      y ∈ upcoming ∨ ∃ x ∈ (walkLayer next start layer (reached, upcoming)).1,
        x ∉ reached ∧ y ∈ next x := by
  induction layer generalizing reached upcoming with
  | nil =>
      simp only [walkLayer]
      constructor
      · exact .inl
      · rintro (h | ⟨x, hx, hxr, -⟩)
        · exact h
        · exact absurd hx hxr
  | cons x xs ih =>
      simp only [walkLayer]
      split
      · exact ih reached upcoming
      · rename_i hskip
        simp only [Bool.or_eq_true, beq_iff_eq, List.contains_iff_mem, not_or] at hskip
        have hx : x ∈ (walkLayer next start xs (reached ++ [x], upcoming ++ next x)).1 :=
          (prefix_walkLayer_fst next start xs _ _).subset (by simp)
        rw [ih]
        constructor
        · rintro (h | ⟨z, hz, hzr, hyz⟩)
          · rcases List.mem_append.1 h with h | h
            · exact .inl h
            · exact .inr ⟨x, hx, hskip.2, h⟩
          · exact .inr ⟨z, hz, fun h => hzr (List.mem_append_left _ h), hyz⟩
        · rintro (h | ⟨z, hz, hzr, hyz⟩)
          · exact .inl (List.mem_append_left _ h)
          · by_cases hzx : z = x
            · subst hzx
              exact .inl (List.mem_append_right _ hyz)
            · refine .inr ⟨z, hz, ?_, hyz⟩
              simp [hzr, hzx]

theorem length_lt_of_walkLayer_snd {layer reached : List Nat} {y : Nat}
    (hy : y ∈ (walkLayer next start layer (reached, [])).2) :
    reached.length < (walkLayer next start layer (reached, [])).1.length := by
  obtain ⟨rest, hrest⟩ := prefix_walkLayer_fst next start layer reached []
  rcases (mem_walkLayer_snd next start layer reached [] y).1 hy with h | ⟨x, hx, hxr, -⟩
  · simp at h
  · rw [← hrest] at hx ⊢
    rcases List.mem_append.1 hx with h | h
    · exact absurd h hxr
    · have : 0 < rest.length := List.length_pos_of_mem h
      simp
      omega

/-- Every neighbour of a place reached is the start, reached, or in the layer still to go. -/
def Closed (reached layer : List Nat) : Prop :=
  ∀ x ∈ reached, ∀ y ∈ next x, y = start ∨ y ∈ reached ∨ y ∈ layer

theorem mem_walkLayer_fst_of_layer {layer reached : List Nat} {y : Nat} (hy : y ∈ layer) :
    y = start ∨ y ∈ (walkLayer next start layer (reached, [])).1 := by
  by_cases hys : y = start
  · exact .inl hys
  · exact .inr ((mem_walkLayer_fst next start layer reached [] y).2 (.inr ⟨hy, hys⟩))

/-- A round keeps the walk closed: a neighbour of an old place was pending in this layer, and one
of a new place is in the next. -/
theorem closed_walkLayer {layer reached : List Nat} (h : Closed next start reached layer) :
    Closed next start (walkLayer next start layer (reached, [])).1
      (walkLayer next start layer (reached, [])).2 := by
  intro x hx y hy
  by_cases hxr : x ∈ reached
  · rcases h x hxr y hy with h | h | h
    · exact .inl h
    · exact .inr (.inl ((prefix_walkLayer_fst next start layer reached []).subset h))
    · rcases mem_walkLayer_fst_of_layer next start h with h | h
      · exact .inl h
      · exact .inr (.inl h)
  · exact .inr (.inr ((mem_walkLayer_snd next start layer reached [] y).2
      (.inr ⟨x, hx, hxr, hy⟩)))

end Round

/-! ## A whole walk -/

section Walk

variable (next : Nat → List Nat) (start : Nat)

/-- A property of the first layer that passes along edges holds of every place a walk reaches. -/
theorem walkFrom_sound (good : Nat → Prop) (hnext : ∀ x, good x → ∀ y ∈ next x, good y)
    (fuel : Nat) (layer reached : List Nat) (hr : ∀ x ∈ reached, good x)
    (hl : ∀ y ∈ layer, good y) : ∀ x ∈ walkFrom next start fuel layer reached, good x := by
  induction fuel generalizing layer reached with
  | zero => exact hr
  | succ fuel ih =>
      have hr' : ∀ z ∈ (walkLayer next start layer (reached, [])).1, good z := by
        intro z hz
        rcases (mem_walkLayer_fst next start layer reached [] z).1 hz with h | ⟨h, -⟩
        · exact hr z h
        · exact hl z h
      simp only [walkFrom]
      split
      · exact hr'
      · apply ih _ _ hr'
        intro y hy
        rcases (mem_walkLayer_snd next start layer reached [] y).1 hy with h | ⟨z, hz, -, hyz⟩
        · simp at h
        · exact hnext z (hr' z hz) y hyz

theorem walkFrom_nodup (fuel : Nat) (layer reached : List Nat) (h : reached.Nodup)
    (hs : start ∉ reached) :
    (walkFrom next start fuel layer reached).Nodup ∧
      start ∉ walkFrom next start fuel layer reached := by
  induction fuel generalizing layer reached with
  | zero => exact ⟨h, hs⟩
  | succ fuel ih =>
      have h' := nodup_walkLayer_fst next start layer reached [] h
      have hs' : start ∉ (walkLayer next start layer (reached, [])).1 := by
        rw [mem_walkLayer_fst]
        rintro (h | ⟨-, hne⟩)
        · exact hs h
        · exact hne rfl
      simp only [walkFrom]
      split
      · exact ⟨h', hs'⟩
      · exact ih _ _ h' hs'

/-- Given more rounds than there are places, a walk ends closed under edges: every neighbour of
a place it reached is the start or reached too. -/
theorem walkFrom_closed (n : Nat) (hb : ∀ x, ∀ y ∈ next x, y < n) (fuel : Nat)
    (layer reached : List Nat) (hnodup : reached.Nodup) (hlt : ∀ x ∈ reached, x < n)
    (hlayer : ∀ y ∈ layer, y < n) (hclosed : Closed next start reached layer)
    (hfuel : n < fuel + reached.length) :
    (∀ x ∈ reached, x ∈ walkFrom next start fuel layer reached) ∧
      (∀ y ∈ layer, y = start ∨ y ∈ walkFrom next start fuel layer reached) ∧
      (∀ x ∈ walkFrom next start fuel layer reached, ∀ y ∈ next x,
        y = start ∨ y ∈ walkFrom next start fuel layer reached) := by
  induction fuel generalizing layer reached with
  | zero =>
      have hsub : reached ⊆ List.range n := fun x hx => List.mem_range.2 (hlt x hx)
      have hle : reached.length ≤ n := by
        simpa using hnodup.length_le_of_subset hsub
      omega
  | succ fuel ih =>
      have hlt' : ∀ x ∈ (walkLayer next start layer (reached, [])).1, x < n := by
        intro x hx
        rcases (mem_walkLayer_fst next start layer reached [] x).1 hx with h | ⟨h, -⟩
        · exact hlt x h
        · exact hlayer x h
      have hsub : ∀ x ∈ reached, x ∈ (walkLayer next start layer (reached, [])).1 :=
        fun x hx => (prefix_walkLayer_fst next start layer reached []).subset hx
      have hclosed' := closed_walkLayer next start hclosed
      simp only [walkFrom]
      split
      · rename_i hempty
        refine ⟨hsub, fun y hy => mem_walkLayer_fst_of_layer next start hy, ?_⟩
        intro x hx y hy
        rcases hclosed' x hx y hy with h | h | h
        · exact .inl h
        · exact .inr h
        · simp [List.isEmpty_iff.1 hempty] at h
      · rename_i hne
        -- the round reached a new place, so the fuel still exceeds what is left
        obtain ⟨y₀, hy₀⟩ := List.exists_mem_of_ne_nil _ (by simpa using hne)
        have hgrow := length_lt_of_walkLayer_snd next start hy₀
        have hup : ∀ y ∈ (walkLayer next start layer (reached, [])).2, y < n := by
          intro y hy
          rcases (mem_walkLayer_snd next start layer reached [] y).1 hy with h | ⟨z, -, -, hyz⟩
          · simp at h
          · exact hb z y hyz
        obtain ⟨hsubF, hupF, hclosedF⟩ :=
          ih _ _ (nodup_walkLayer_fst next start layer reached [] hnodup) hlt' hup hclosed'
            (by omega)
        refine ⟨fun x hx => hsubF x (hsub x hx), ?_, hclosedF⟩
        intro y hy
        rcases mem_walkLayer_fst_of_layer next start hy with h | h
        · exact .inl h
        · exact .inr (hsubF y h)

/-- A walk from a start with more rounds than places reaches exactly the places joined to the
start by one or more edges, other than the start, each once. -/
theorem mem_walkFrom_iff (n : Nat) (hb : ∀ x, ∀ y ∈ next x, y < n) (y : Nat) :
    y ∈ walkFrom next start (n + 1) (next start) [] ↔
      y ≠ start ∧ TransGen (fun a b => b ∈ next a) start y := by
  constructor
  · intro hy
    refine ⟨fun h => (walkFrom_nodup next start _ _ [] List.nodup_nil (by simp)).2 (h ▸ hy), ?_⟩
    exact walkFrom_sound next start (TransGen (fun a b => b ∈ next a) start)
      (fun x hx z hz => hx.tail hz) _ _ [] (by simp) (fun z hz => .single hz) y hy
  · rintro ⟨hne, hy⟩
    obtain ⟨-, hfirst, hclosed⟩ := walkFrom_closed next start n hb (n + 1) (next start) []
      List.nodup_nil (by simp) (hb start) (by simp [Closed]) (by simp)
    have key : ∀ z, TransGen (fun a b => b ∈ next a) start z →
        z = start ∨ z ∈ walkFrom next start (n + 1) (next start) [] := by
      intro z hz
      induction hz with
      | single h => exact hfirst _ h
      | tail _ hbc ih =>
          rcases ih with rfl | h
          · exact hfirst _ hbc
          · exact hclosed _ h _ hbc
    rcases key y hy with h | h
    · exact absurd h hne
    · exact h

end Walk

/-! ## The stored readers -/

theorem getD_foldl_append (i : Nat) (ds : List Nat) (t : Array (List Nat)) (a : Nat)
    (hnd : ds.Nodup) :
    (ds.foldl (fun t d => t.modify d (· ++ [i])) t).getD a [] =
      t.getD a [] ++ (if a ∈ ds ∧ a < t.size then [i] else []) := by
  induction ds generalizing t with
  | nil => simp
  | cons d ds ih =>
      rw [List.nodup_cons] at hnd
      rw [List.foldl_cons, ih _ hnd.2, Array.size_modify]
      simp only [Array.getD_eq_getD_getElem?, Array.getElem?_modify]
      by_cases had : d = a
      · subst had
        by_cases hlt : d < t.size
        · simp [hnd.1, hlt]
        · simp [hnd.1, hlt]
      · simp [had, Ne.symm had]

theorem size_foldl_append (i : Nat) (ds : List Nat) (t : Array (List Nat)) :
    (ds.foldl (fun t d => t.modify d (· ++ [i])) t).size = t.size := by
  induction ds generalizing t with
  | nil => rfl
  | cons d ds ih => rw [List.foldl_cons, ih, Array.size_modify]

/-- Building the table reader by reader appends, at each place, the readers of that place in
order. -/
theorem getD_foldl_readers (r : Registry) (readers : List Nat) (t : Array (List Nat)) (a : Nat)
    (hnd : ∀ i ∈ readers, (r.refsOf i).Nodup) :
    (readers.foldl (fun table i => (r.refsOf i).foldl (fun t d => t.modify d (· ++ [i])) table)
        t).getD a [] =
      t.getD a [] ++
        (if a < t.size then readers.filter fun i => (r.refsOf i).contains a else []) := by
  induction readers generalizing t with
  | nil => simp
  | cons i is ih =>
      rw [List.foldl_cons, ih _ (fun j hj => hnd j (List.mem_cons_of_mem i hj)),
        getD_foldl_append i _ t a (hnd i (by simp)), size_foldl_append]
      by_cases hlt : a < t.size
      · by_cases hai : a ∈ r.refsOf i
        · simp [hlt, hai]
        · simp [hlt, hai]
      · simp [hlt]

/-- In a well-formed registry the stored readers of a place are the live variables that read
it, in registration order. -/
theorem getD_readerTable {r : Registry} (hw : r.WellFormed) (a : Nat) :
    r.readerTable.getD a [] = r.readersOf a := by
  have hnd : ∀ i ∈ r.live, (r.refsOf i).Nodup := by
    intro i hi
    obtain ⟨v, hv⟩ := isSome_get?_iff.1 (mem_live.1 hi)
    rw [refsOf_of_get? hv]
    exact hw.refs_nodup i v hv
  rw [readerTable, getD_foldl_readers r _ _ a hnd]
  by_cases ha : a < r.slots.size
  · simp [ha, readersOf]
  · -- a place past the arena has no readers, since variables read earlier places
    simp only [Array.size_replicate, ha, if_false, List.append_nil, Array.getD_eq_getD_getElem?,
      Array.getElem?_replicate, Option.getD_none]
    symm
    rw [List.eq_nil_iff_forall_not_mem]
    intro i hi
    obtain ⟨hlive, hai⟩ := mem_readersOf.1 hi
    obtain ⟨v, hv⟩ := isSome_get?_iff.1 hlive
    rw [refsOf_of_get? hv] at hai
    have := hw.refs_lt i v hv a hai
    have := lt_size_of_get? hv
    omega

/-! ## Edges and reaching -/

theorem mem_neighbours {r : Registry} (hw : r.WellFormed) (dir : Direction) (a b : Nat) :
    b ∈ r.neighbours r.readerTable dir a ↔ r.Edge dir a b := by
  cases dir with
  | reads =>
      simp only [neighbours, Edge]
      exact ⟨fun h => ⟨isSome_of_mem_refsOf h, h⟩, fun h => h.2⟩
  | readBy => simp only [neighbours, Edge, getD_readerTable hw, mem_readersOf]

theorem reaches_iff_transGen {r : Registry} {dir : Direction} {i j : Nat} :
    r.Reaches dir i j ↔ TransGen (r.Edge dir) i j := by
  constructor
  · intro h
    induction h with
    | edge h => exact .single h
    | step _ h ih => exact ih.tail h
  · intro h
    induction h with
    | single h => exact .edge h
    | tail _ h ih => exact .step ih h

theorem reaches_readBy_iff {r : Registry} {i j : Nat} :
    r.Reaches .readBy i j ↔ r.Reaches .reads j i := by
  rw [reaches_iff_transGen, reaches_iff_transGen, ← transGen_swap]
  rfl

theorem Reaches.of_edge_reaches {r : Registry} {dir : Direction} {i j k : Nat}
    (hij : r.Edge dir i j) (hjk : r.Reaches dir j k) : r.Reaches dir i k :=
  reaches_iff_transGen.2 ((reaches_iff_transGen.1 hjk).head hij)

theorem lt_of_reaches_reads {r : Registry} (hw : r.WellFormed) {i j : Nat}
    (h : r.Reaches .reads i j) : j < i := by
  have edge_lt : ∀ {a b}, r.Edge .reads a b → b < a := by
    rintro a b ⟨ha, hb⟩
    obtain ⟨v, hv⟩ := isSome_get?_iff.1 ha
    rw [refsOf_of_get? hv] at hb
    exact hw.refs_lt a v hv b hb
  induction h with
  | edge h => exact edge_lt h
  | step _ h ih =>
      have := edge_lt h
      omega

/-- The graph of a well-formed registry has no cycle. -/
theorem not_reaches_self {r : Registry} (hw : r.WellFormed) (dir : Direction) (i : Nat) :
    ¬r.Reaches dir i i := by
  cases dir with
  | reads => exact fun h => Nat.lt_irrefl i (lt_of_reaches_reads hw h)
  | readBy => exact fun h => Nat.lt_irrefl i (lt_of_reaches_reads hw (reaches_readBy_iff.1 h))

theorem lt_size_of_mem_neighbours {r : Registry} (hw : r.WellFormed) {dir : Direction} {a b : Nat}
    (h : b ∈ r.neighbours r.readerTable dir a) : b < r.slots.size := by
  rw [mem_neighbours hw] at h
  cases dir with
  | reads =>
      obtain ⟨ha, hb⟩ := h
      obtain ⟨v, hv⟩ := isSome_get?_iff.1 ha
      rw [refsOf_of_get? hv] at hb
      exact lt_size_of_isSome (hw.refs_live a v hv b hb)
  | readBy => exact lt_size_of_isSome h.1

/-- The walk from a place reaches, each once, exactly the places joined to it by one or more
edges. -/
theorem mem_walk_iff {r : Registry} (hw : r.WellFormed) (id : Nat) (dir : Direction) (y : Nat) :
    y ∈ r.walk id dir ↔ r.Reaches dir id y := by
  have hnext : (fun a b => b ∈ r.neighbours r.readerTable dir a) = r.Edge dir := by
    funext a b
    exact propext (mem_neighbours hw dir a b)
  rw [walk, mem_walkFrom_iff _ id r.slots.size (fun x y hy => lt_size_of_mem_neighbours hw hy),
    hnext, ← reaches_iff_transGen]
  exact ⟨fun h => h.2, fun h => ⟨fun hy => not_reaches_self hw dir id (hy ▸ h), h⟩⟩

theorem nodup_walk (r : Registry) (id : Nat) (dir : Direction) : (r.walk id dir).Nodup :=
  (walkFrom_nodup _ id _ _ [] List.nodup_nil (by simp)).1

theorem not_mem_walk (r : Registry) (id : Nat) (dir : Direction) : id ∉ r.walk id dir :=
  (walkFrom_nodup _ id _ _ [] List.nodup_nil (by simp)).2

/-! ## Reference queries -/

theorem resolve_of_live {r : Registry} {h : Handle} (hh : r.Live h) :
    ∃ v, r.resolve h = .ok (h.id, v) := by
  obtain ⟨hhome, hsome⟩ := hh
  obtain ⟨v, hv⟩ := isSome_get?_iff.1 hsome
  exact ⟨v, resolve_eq_ok.2 ⟨hhome, rfl, hv⟩⟩

theorem related_direct {r : Registry} {h : Handle} (hh : r.Live h) (dir : Direction) :
    r.related h dir .direct = .ok (r.neighbours r.readerTable dir h.id) := by
  obtain ⟨v, hv⟩ := resolve_of_live hh
  simp [related, hv, bind, Except.bind, pure, Except.pure]

theorem related_all {r : Registry} {h : Handle} (hh : r.Live h) (dir : Direction) :
    r.related h dir .all = .ok (r.walk h.id dir) := by
  obtain ⟨v, hv⟩ := resolve_of_live hh
  simp [related, hv, bind, Except.bind, pure, Except.pure]

theorem nodup_neighbours {r : Registry} (hw : r.WellFormed) (dir : Direction) (id : Nat) :
    (r.neighbours r.readerTable dir id).Nodup := by
  cases dir with
  | reads =>
      cases hv : r.get? id with
      | none => simp [neighbours, refsOf_of_get?_none hv]
      | some v =>
          simp only [neighbours, refsOf_of_get? hv]
          exact hw.refs_nodup id v hv
  | readBy =>
      simp only [neighbours, getD_readerTable hw, readersOf]
      exact (nodup_live r).filter _

/-- What reference queries `related` answer about the variable of `v` in `r`: in either
direction, its direct neighbours and the places joined to it along one or more edges, each once,
never itself among the latter and the former among the latter; and it reads a variable, directly
or along a chain, exactly when that variable is read by it. -/
structure QueriesAnswer (r : Registry) (related : Handle → Direction → Reach → Except Error (List Nat))
    (v : Handle) : Prop where
  direct : ∀ dir, ∃ ids, related v dir .direct = .ok ids ∧ ids.Nodup ∧
    ∀ j, j ∈ ids ↔ r.Edge dir v.id j
  all : ∀ dir, ∃ ids, related v dir .all = .ok ids ∧ ids.Nodup ∧ v.id ∉ ids ∧
    ∀ j, j ∈ ids ↔ r.Reaches dir v.id j
  direct_subset_all : ∀ dir direct all, related v dir .direct = .ok direct →
    related v dir .all = .ok all → ∀ j ∈ direct, j ∈ all
  reads_iff_readBy : ∀ u, r.Live u → ∀ reach us vs, related v .reads reach = .ok us →
    related u .readBy reach = .ok vs → (u.id ∈ us ↔ v.id ∈ vs)

/-- In a well-formed registry, the reference queries of every live variable answer its direct
and transitive neighbours. -/
theorem WellFormed.queriesAnswer {r : Registry} (hw : r.WellFormed) {v : Handle} (hv : r.Live v) :
    r.QueriesAnswer r.related v := by
  constructor
  · intro dir
    exact ⟨_, related_direct hv dir, nodup_neighbours hw dir v.id, mem_neighbours hw dir v.id⟩
  · intro dir
    exact ⟨_, related_all hv dir, nodup_walk r v.id dir, not_mem_walk r v.id dir,
      mem_walk_iff hw v.id dir⟩
  · intro dir direct all hd ha j hj
    rw [related_direct hv, Except.ok.injEq] at hd
    rw [related_all hv, Except.ok.injEq] at ha
    subst hd ha
    exact (mem_walk_iff hw v.id dir j).2 (.edge ((mem_neighbours hw dir v.id j).1 hj))
  · intro u hu reach us vs hus hvs
    cases reach with
    | direct =>
        rw [related_direct hv, Except.ok.injEq] at hus
        rw [related_direct hu, Except.ok.injEq] at hvs
        subst hus hvs
        rw [mem_neighbours hw, mem_neighbours hw]
        rfl
    | all =>
        rw [related_all hv, Except.ok.injEq] at hus
        rw [related_all hu, Except.ok.injEq] at hvs
        subst hus hvs
        rw [mem_walk_iff hw, mem_walk_iff hw, reaches_readBy_iff]

end Recalc.Registry
