import Mathlib.Algebra.Order.BigOperators.Group.List
import Mathlib.Algebra.Order.Group.Nat
import Mathlib.Data.List.Perm.Subperm
import Recalc.Proofs.Refinement

/-! # The read walk with an explicit stack refines the recursive read -/

namespace Recalc.Variable

theorem eq_remember {v w : Variable} {x : Float} (h : w.invalidate = v.invalidate)
    (hc : w.kind = .lazy → w.cache? = some (.fresh x)) : w = v.remember x := by
  rcases v with ⟨name, body⟩
  rcases w with ⟨name', body'⟩
  cases body <;> cases body' <;> simp_all [invalidate, remember, kind, cache?]

end Recalc.Variable

namespace Recalc.Evaluation

open Registry

variable {r : Registry}

/-! ## What a read leaves, place by place -/

/-- What a read leaves, place by place: each place of `S` is remembered with its recursive value,
which a lazy variable there keeps, and every other place and its memo entry stay as they were. -/
structure Settles (r : Registry) (S : Nat → Prop) (ev ev' : Evaluation) : Prop where
  ident_eq : ev'.registry.ident = ev.registry.ident
  size_eq : ev'.registry.slots.size = ev.registry.slots.size
  find_of_mem : ∀ i, S i → ev'.find? i = some (r.recValue i)
  find_of_not_mem : ∀ i, ¬S i → ev'.find? i = ev.find? i
  get_of_mem : ∀ i, S i → ev'.registry.get? i = (ev.registry.get? i).map (·.remember (r.recValue i))
  get_of_not_mem : ∀ i, ¬S i → ev'.registry.get? i = ev.registry.get? i

theorem Settles.same {S₁ S₂ : Nat → Prop} {ev₁ ev₂ ev₁' ev₂' : Evaluation}
    (h₁ : Settles r S₁ ev₁ ev₁') (h₂ : Settles r S₂ ev₂ ev₂') (hs : ev₁.Same ev₂)
    (hS : ∀ i, S₁ i ↔ S₂ i) : ev₁'.Same ev₂' := by
  have hget : ∀ i, ev₁'.registry.get? i = ev₂'.registry.get? i := by
    intro i
    by_cases hi : S₁ i
    · rw [h₁.get_of_mem i hi, h₂.get_of_mem i ((hS i).1 hi), hs.registry_eq]
    · rw [h₁.get_of_not_mem i hi, h₂.get_of_not_mem i (mt (hS i).2 hi), hs.registry_eq]
  refine ⟨ext_get? ?_ ?_ hget, fun i => ?_⟩
  · rw [h₁.ident_eq, h₂.ident_eq, hs.registry_eq]
  · rw [h₁.size_eq, h₂.size_eq, hs.registry_eq]
  · by_cases hi : S₁ i
    · rw [h₁.find_of_mem i hi, h₂.find_of_mem i ((hS i).1 hi)]
    · rw [h₁.find_of_not_mem i hi, h₂.find_of_not_mem i (mt (hS i).2 hi), hs.find?_eq]

theorem Agrees.congr {ev ev' : Evaluation} (ha : Agrees r ev) (hs : ev.Same ev') :
    Agrees r ev' :=
  ⟨hs.registry_eq ▸ ha.forget_eq, hs.registry_eq ▸ ha.keeps_ready, hs.registry_eq ▸ ha.ready,
    fun i x hx => ha.known i x (by rwa [hs.find?_eq])⟩

/-- A read settles exactly the places pending from its roots. -/
theorem ReadsOut.settles {ev ev' : Evaluation} {roots : List Nat} {new : List (Nat × Float)}
    (ha : Agrees r ev) (h : ReadsOut r ev roots new ev') : Settles r (ev.Pending roots) ev ev' := by
  have hmem : ∀ i, ev.Pending roots i ↔ i ∈ new.map Prod.fst := by
    intro i
    constructor
    · intro hi
      induction hi with
      | root hd hfind => exact h.records.mem_of_find? hfind (h.roots_found _ hd)
      | ref hi hu hd hfind ih =>
          obtain ⟨p, hp, rfl⟩ := List.mem_map.1 ih
          exact h.records.mem_of_find? hfind (h.inputs_found p hp hu _ hd)
    · intro hi
      obtain ⟨p, hp, rfl⟩ := List.mem_map.1 hi
      exact h.pending p hp
  have hforget : ev'.registry.forget = ev.registry.forget := by
    rw [h.agrees.forget_eq, ha.forget_eq]
  refine ⟨by rw [← ident_forget, hforget, ident_forget],
    by rw [← size_forget, hforget, size_forget], fun i hi => ?_, fun i hi => ?_, fun i hi => ?_,
    fun i hi => h.records.frame i (mt (hmem i).2 hi)⟩
  · obtain ⟨p, hp, rfl⟩ := List.mem_map.1 ((hmem i).1 hi)
    rw [h.records.find?_of_mem hp, h.agrees.known _ _ (h.records.find?_of_mem hp)]
  · exact h.records.find?_eq (mt (hmem i).2 hi)
  · obtain ⟨p, hp, rfl⟩ := List.mem_map.1 ((hmem i).1 hi)
    have hshape := congrArg (·.get? p.1) hforget
    simp only [get?_forget] at hshape
    cases hv : ev.registry.get? p.1 with
    | none => simpa [hv] using hshape
    | some v =>
        obtain ⟨w, hw, hwv⟩ := Option.map_eq_some_iff.1 (hshape.trans (by rw [hv]; rfl))
        have hp2 : p.2 = r.recValue p.1 := h.agrees.known _ _ (h.records.find?_of_mem hp)
        rw [hw, Option.map_some, Variable.eq_remember hwv fun hk => hp2 ▸ h.records.cache p hp w hw hk]

/-! ## The walk, entry by entry -/

section Steps

variable {fuel id : Nat} {stack : List (Nat × Bool)} {ev : Evaluation} {v : Variable}

theorem stackWalk_nil (fuel : Nat) (ev : Evaluation) : stackWalk fuel [] ev = .ok ev := by
  cases fuel <;> rfl

theorem stackWalk_found {x : Float} (hfind : ev.find? id = some x) (b : Bool) :
    stackWalk (fuel + 1) ((id, b) :: stack) ev = stackWalk fuel stack ev := by
  simp only [stackWalk, hfind]

theorem stackWalk_ready {x : Float} (hfind : ev.find? id = none)
    (hv : ev.registry.get? id = some v) (hx : v.ready? = some x) (b : Bool) :
    stackWalk (fuel + 1) ((id, b) :: stack) ev = stackWalk fuel stack (ev.note id x) := by
  simp only [stackWalk, hfind, hv, hx]

theorem stackWalk_expand {f : BoundFormula} (hfind : ev.find? id = none)
    (hv : ev.registry.get? id = some v) (hready : v.ready? = none) (hf : v.formula? = some f) :
    stackWalk (fuel + 1) ((id, false) :: stack) ev =
      stackWalk fuel ((f.refs.filter fun d => (ev.find? d).isNone).reverse.map (·, false) ++
        (id, true) :: stack) ev := by
  simp only [stackWalk, hfind, hv, hready, hf, Bool.false_eq_true, if_false]

theorem stackWalk_compute {f : BoundFormula} {xs : List Float} (hfind : ev.find? id = none)
    (hv : ev.registry.get? id = some v) (hready : v.ready? = none) (hf : v.formula? = some f)
    (hxs : ev.remembered f.refs = .ok xs) :
    stackWalk (fuel + 1) ((id, true) :: stack) ev =
      stackWalk fuel stack
        ({ ev with registry := ev.registry.modify id (·.remember (f.program.run xs)) }.note id
          (f.program.run xs)) := by
  simp only [stackWalk, hfind, hv, hready, hf, if_true, hxs]

end Steps

/-! ## Reading one unmarked entry after another -/

/-- The entries a read walk takes to read a place: one of its own and one for each place it
reads, for every place it remembers. -/
def walkCost (r : Registry) (new : List (Nat × Float)) : Nat :=
  new.foldr (fun p n => (r.refsOf p.1).length + 1 + n) 0

theorem walkCost_append (r : Registry) (new new' : List (Nat × Float)) :
    walkCost r (new ++ new') = walkCost r new + walkCost r new' := by
  induction new with
  | nil => simp [walkCost]
  | cons p new ih =>
      simp only [walkCost, List.cons_append, List.foldr_cons] at ih ⊢
      omega

/-- From `ev`, the walk reads the unmarked entries `ds`, whatever lies below them: it takes `k`
entries, within their cost, and goes on below from what a read of `ds` leaves. -/
def WalksOff (r : Registry) (ev : Evaluation) (ds : List Nat) : Prop :=
  ∃ k ev' new, (∀ fuel stack, stackWalk (fuel + k) (ds.map (·, false) ++ stack) ev =
      stackWalk fuel stack ev') ∧
    k ≤ walkCost r new + ds.length ∧ ReadsOut r ev ds new ev'

theorem walksOff_nil {ev : Evaluation} (ha : Agrees r ev) : WalksOff r ev [] :=
  ⟨0, ev, [], fun _ _ => rfl, Nat.zero_le _, .nil ha⟩

theorem walksOff_cons {ev : Evaluation} {d : Nat} {ds : List Nat} (h₁ : WalksOff r ev [d])
    (h₂ : ∀ ev', Agrees r ev' → WalksOff r ev' ds) : WalksOff r ev (d :: ds) := by
  obtain ⟨k₁, ev₁, new₁, hwalk₁, hk₁, hread₁⟩ := h₁
  obtain ⟨k₂, ev₂, new₂, hwalk₂, hk₂, hread₂⟩ := h₂ ev₁ hread₁.agrees
  refine ⟨k₁ + k₂, ev₂, new₂ ++ new₁, fun fuel stack => ?_, ?_, hread₁.append hread₂⟩
  · rw [← Nat.add_assoc, Nat.add_right_comm, List.map_cons, List.cons_append]
    rw [← hwalk₂ fuel stack]
    exact hwalk₁ (fuel + k₂) (ds.map (·, false) ++ stack)
  · rw [walkCost_append]
    simp only [List.length_cons, List.length_nil] at hk₁ hk₂ ⊢
    omega

theorem walksOff_of_forall {ds : List Nat}
    (h : ∀ d ∈ ds, ∀ ev, Agrees r ev → WalksOff r ev [d]) :
    ∀ ev, Agrees r ev → WalksOff r ev ds := by
  induction ds with
  | nil => exact fun _ => walksOff_nil
  | cons d ds ih =>
      intro ev ha
      exact walksOff_cons (h d List.mem_cons_self ev ha)
        (ih fun d' hd' => h d' (List.mem_cons_of_mem d hd'))

/-- The walk reads every live place of a well-formed registry from an evaluation that keeps the
invariant: by induction on the place, since a formula reads only earlier places. -/
theorem walksOff_single (hw : r.WellFormed) (id : Nat) (hid : (r.get? id).isSome) (ev : Evaluation)
    (ha : Agrees r ev) : WalksOff r ev [id] := by
  induction id using Nat.strong_induction_on generalizing ev with
  | _ id ih =>
  cases hfind : ev.find? id with
  | some x => exact ⟨1, ev, [], fun _ _ => stackWalk_found hfind false, by simp, .known ha hfind⟩
  | none =>
  obtain ⟨w, hw'⟩ := isSome_get?_iff.1 hid
  obtain ⟨v, hv, -⟩ := ha.get?_of_get?_eq_some hw'
  cases hready : v.ready? with
  | some x =>
      refine ⟨1, ev.note id x, [(id, x)], fun _ _ => stackWalk_ready hfind hv hready false, ?_,
        .ready ha hfind hv hready⟩
      simp [walkCost]
  | none =>
  obtain ⟨f, hf⟩ := Option.isSome_iff_exists.1 (Variable.isSome_formula?_of_ready?_none hready)
  have hrefs : r.refsOf id = f.refs := by
    rw [← ha.refsOf_eq, refsOf_of_get? hv, refs_eq_of_formula? hf]
  set pending := f.refs.filter fun d => (ev.find? d).isNone
  have hsub : ∀ d ∈ pending.reverse, d ∈ f.refs := fun d hd =>
    (List.mem_filter.1 (List.mem_reverse.1 hd)).1
  have hcover : ∀ d ∈ f.refs, d ∈ pending.reverse ∨ (ev.find? d).isSome := by
    intro d hd
    cases hd' : ev.find? d with
    | none => exact .inl (List.mem_reverse.2 (List.mem_filter.2 ⟨hd, by simp [hd']⟩))
    | some _ => exact .inr rfl
  -- each place pushed is earlier and live, so the induction covers it
  have hpushed : ∀ d ∈ pending.reverse, ∀ ev, Agrees r ev → WalksOff r ev [d] := fun d hd => by
    have hd' : d ∈ w.refs := by rw [← refsOf_of_get? hw', hrefs]; exact hsub d hd
    exact ih d (hw.refs_lt id w hw' d hd') (hw.refs_live id w hw' d hd')
  obtain ⟨k, ev₁, new, hwalk, hk, hread⟩ := walksOff_of_forall hpushed ev ha
  obtain ⟨hnot, hfound⟩ := hread.untouched hw ha hv hf hsub hcover
  have hx := ha.recValue_eq_run hw hv hready hf
  refine ⟨k + 2, _, (id, r.recValue id) :: new, fun fuel stack => ?_, ?_,
    hread.compute hw ha hfind hv hready hf hsub hcover⟩
  · show stackWalk (fuel + (k + 2)) ((id, false) :: stack) ev = _
    rw [show fuel + (k + 2) = fuel + 1 + k + 1 by omega, stackWalk_expand hfind hv hready hf,
      hwalk, stackWalk_compute (hread.records.find?_eq hnot ▸ hfind)
        ((hread.records.frame id hnot).trans hv) hready hf
        (ReadsOut.remembered_eq hread.agrees hfound), hx]
  · have hlen : pending.reverse.length ≤ f.refs.length := by
      rw [List.length_reverse]
      exact List.length_filter_le _ _
    simp only [walkCost, List.foldr_cons, List.length_singleton, hrefs] at hk ⊢
    omega

/-! ## The read -/

theorem walkCost_lt_budget {new : List (Nat × Float)} (hnd : (new.map Prod.fst).Nodup)
    (hlive : ∀ p ∈ new, (r.get? p.1).isSome) : walkCost r new < budget r := by
  let g : Nat → Nat := fun i => (r.refsOf i).length + 1
  have hcost : ∀ l : List (Nat × Float), walkCost r l = ((l.map Prod.fst).map g).sum := by
    intro l
    induction l with
    | nil => rfl
    | cons p l ih =>
        simp only [walkCost, List.foldr_cons, List.map_cons, List.sum_cons] at ih ⊢
        rw [ih]
  have hbudget : ∀ l : List Nat, l.foldr (fun i n => g i + n) 1 = (l.map g).sum + 1 := by
    intro l
    induction l with
    | nil => rfl
    | cons i l ih => simp only [List.foldr_cons, ih, List.map_cons, List.sum_cons]; omega
  obtain ⟨l, hperm, hsl⟩ : (new.map Prod.fst).Subperm (List.range r.slots.size) :=
    hnd.subperm fun i hi => by
      obtain ⟨p, hp, rfl⟩ := List.mem_map.1 hi
      exact List.mem_range.2 (lt_size_of_isSome (hlive p hp))
  rw [hcost, budget, hbudget, ← (hperm.map g).sum_eq]
  exact Nat.lt_succ_of_le ((hsl.map g).sum_le_sum fun _ _ => Nat.zero_le _)

theorem Pending.isSome (hw : r.WellFormed) {ev : Evaluation} (ha : Agrees r ev) {roots : List Nat}
    (hroots : ∀ d ∈ roots, (r.get? d).isSome) {i : Nat} (h : ev.Pending roots i) :
    (r.get? i).isSome := by
  induction h with
  | root hd _ => exact hroots _ hd
  | @ref j d _ hu hd _ _ =>
      obtain ⟨v, hv, -⟩ := hu
      obtain ⟨w, hw', -⟩ := ha.get?_eq_some hv
      rw [ha.refsOf_eq, refsOf_of_get? hw'] at hd
      exact hw.refs_live j w hw' d hd

/-- From an evaluation that keeps the invariant, the stack walk reads a live variable of a
well-formed registry within its budget, and the read is one as `ReadsOut` says. -/
theorem valueOf_readsOut (hw : r.WellFormed) {ev : Evaluation} (ha : Agrees r ev) {root : Nat}
    (hroot : (r.get? root).isSome) :
    ∃ ev' new, valueOf root ev = .ok (r.recValue root, ev') ∧ ReadsOut r ev [root] new ev' := by
  cases hfind : ev.find? root with
  | some x =>
      refine ⟨ev, [], ?_, .known ha hfind⟩
      rw [valueOf, hfind, ha.known root x hfind]
  | none =>
      obtain ⟨k, ev', new, hwalk, hk, hread⟩ := walksOff_single hw root hroot ev ha
      have hbudget : budget ev.registry = budget r := by
        simp only [budget, ← size_forget ev.registry, ha.forget_eq, size_forget, ha.refsOf_eq]
      have hlt : walkCost r new < budget r :=
        walkCost_lt_budget hread.records.nodup fun p hp =>
          (hread.pending p hp).isSome hw ha (by simpa using hroot)
      have hrun : stackWalk (budget ev.registry) [(root, false)] ev = .ok ev' := by
        obtain ⟨m, hm⟩ := Nat.exists_eq_add_of_le (show k ≤ budget r by
          simp only [List.length_singleton] at hk; omega)
        rw [hbudget, hm, Nat.add_comm, ← stackWalk_nil m ev']
        exact hwalk m []
      obtain ⟨x, hx⟩ := Option.isSome_iff_exists.1 (hread.roots_found root List.mem_cons_self)
      refine ⟨ev', new, ?_, hread⟩
      rw [valueOf, hfind]
      simp only [hrun, hx, hread.agrees.known root x hx]

/-- The stack walk and the recursive read, from evaluations that remember the same values, both
read a live variable and leave evaluations that remember the same values. -/
theorem valueOf_same (hw : r.WellFormed) {ev₁ ev₂ : Evaluation} (ha : Agrees r ev₁)
    (hs : ev₁.Same ev₂) {id : Nat} (hid : (r.get? id).isSome) :
    ∃ ev₁' ev₂', valueAt id ev₁ = .ok (r.recValue id, ev₁') ∧
      valueOf id ev₂ = .ok (r.recValue id, ev₂') ∧ ev₁'.Same ev₂' ∧ Agrees r ev₁' := by
  obtain ⟨ev₁', new₁, hval₁, hread₁⟩ := (valueAt_readsOut hw).1 id ev₁ ha hid
  obtain ⟨ev₂', new₂, hval₂, hread₂⟩ := valueOf_readsOut hw (ha.congr hs) hid
  exact ⟨ev₁', ev₂', hval₁, hval₂, (hread₁.settles ha).same (hread₂.settles (ha.congr hs)) hs
    fun i => ⟨Pending.congr hs, Pending.congr ⟨hs.registry_eq.symm, fun j => (hs.find?_eq j).symm⟩⟩,
    hread₁.agrees⟩

end Recalc.Evaluation

namespace Recalc.Registry

open Evaluation

/-- What a read of `root` that starts from the memo `known` over `r` and leaves the evaluation
`ev` remembers. The new entries `new` stand in front of `known`; each names a place that `known`
did not, and no two name the same place, so no variable is computed twice. Each is a place that
`root` reads along a chain, or `root` itself, with its recursive value, which the memo now finds
and a lazy variable keeps in its cache; only these places of the registry change. The memo finds
the recursive value of `root`. -/
structure ReadRun (r : Registry) (root : Nat) (known : List (Nat × Float))
    (new : List (Nat × Float)) (ev : Evaluation) : Prop where
  records : Evaluation.Records { registry := r, known } new ev
  upstream : ∀ p ∈ new, r.Upstream root p.1
  value : ∀ p ∈ new, p.2 = r.recValue p.1 ∧ ev.find? p.1 = some p.2
  root : ev.find? root = some (r.recValue root)

/-- The read walk with an explicit stack refines the recursive value: from a live variable of a
well-formed registry and a memo of recursive values, it ends within its budget, so none of its
failures is met, with the variable's recursive value; it remembers as `ReadRun` says, each
variable it computes once, keeping the values of lazy variables in their caches; and it leaves
the registry and the memo's values that the recursive read leaves. -/
theorem valueOf_refines {r : Registry} (hw : r.WellFormed) {root : Nat}
    (hroot : (r.get? root).isSome) (known : List (Nat × Float))
    (hknown : ∀ i x, ({ registry := r, known } : Evaluation).find? i = some x →
      x = r.recValue i) :
    ∃ ev new, valueOf root { registry := r, known } = .ok (r.recValue root, ev) ∧
      r.ReadRun root known new ev ∧
      ∃ ev₀, valueAt root { registry := r, known } = .ok (r.recValue root, ev₀) ∧ ev₀.Same ev := by
  have ha := Agrees.start hknown
  obtain ⟨ev, new, hval, hread⟩ := valueOf_readsOut hw ha hroot
  obtain ⟨ev₀, ev', hval₀, hval', hsame, -⟩ := valueOf_same hw ha (Same.refl _) hroot
  rw [hval, Except.ok.injEq, Prod.mk.injEq] at hval'
  obtain ⟨-, rfl⟩ := hval'
  obtain ⟨x, hx⟩ := Option.isSome_iff_exists.1 (hread.roots_found root List.mem_cons_self)
  refine ⟨ev, new, hval, ⟨hread.records, fun p hp => (hread.pending p hp).upstream ha,
    fun p hp => ?_, by rw [hx, hread.agrees.known root x hx]⟩, ev₀, hval₀, hsame⟩
  have hp' := hread.records.find?_of_mem hp
  exact ⟨hread.agrees.known p.1 p.2 hp', hp'⟩

/-- Reading `m` in the sample reads `d` along two chains, through `l` and directly. -/
theorem valueOf_refines_sample :
    (sample 1 .stale).WellFormed ∧ ((sample 1 .stale).get? 3).isSome ∧
      (∀ i x, ({ registry := sample 1 .stale, known := [] } : Evaluation).find? i = some x →
        x = (sample 1 .stale).recValue i) ∧
      ∃ ev new, valueOf 3 { registry := sample 1 .stale, known := [] } =
          .ok ((sample 1 .stale).recValue 3, ev) ∧
        (sample 1 .stale).ReadRun 3 [] new ev ∧
        ∃ ev₀, valueAt 3 { registry := sample 1 .stale, known := [] } =
          .ok ((sample 1 .stale).recValue 3, ev₀) ∧ ev₀.Same ev := by
  have hw := reachable_sample.wellFormed
  have hroot : ((sample 1 .stale).get? 3).isSome := rfl
  have hknown : ∀ i x, ({ registry := sample 1 .stale, known := [] } : Evaluation).find? i =
      some x → x = (sample 1 .stale).recValue i := fun i x h => by simp [Evaluation.find?] at h
  exact ⟨hw, hroot, hknown, valueOf_refines hw hroot [] hknown⟩

/-- Snapshots of live variables by the recursive read and by the stack walk, from evaluations
that remember the same values, give the same entries and leave evaluations that remember the same
values, the first of which still agrees with the registry. -/
theorem snapshotOf_valueOf {r : Registry} (hw : r.WellFormed) {ids : List Nat}
    (hids : ∀ id ∈ ids, (r.get? id).isSome) {ev₁ ev₂ : Evaluation} (ha : Agrees r ev₁)
    (hs : ev₁.Same ev₂) :
    ∃ entries ev₁' ev₂', snapshotOf valueAt ids ev₁ = .ok (entries, ev₁') ∧
      snapshotOf valueOf ids ev₂ = .ok (entries, ev₂') ∧ ev₁'.Same ev₂' ∧ Agrees r ev₁' := by
  induction ids generalizing ev₁ ev₂ with
  | nil => exact ⟨[], ev₁, ev₂, rfl, rfl, hs, ha⟩
  | cons id ids ih =>
      have hid := hids id List.mem_cons_self
      obtain ⟨w, hw'⟩ := isSome_get?_iff.1 hid
      obtain ⟨v, hv, -⟩ := ha.get?_of_get?_eq_some hw'
      obtain ⟨ev₁', ev₂', hval₁, hval₂, hs', ha'⟩ := valueOf_same hw ha hs hid
      obtain ⟨entries, ev₁'', ev₂'', hrest₁, hrest₂, hs'', ha''⟩ :=
        ih (fun d hd => hids d (List.mem_cons_of_mem id hd)) ha' hs'
      refine ⟨⟨v.name, v.kind, r.recValue id, sortNames (v.refs.map ev₁.registry.nameOf)⟩ :: entries,
        ev₁'', ev₂'', ?_, ?_, hs'', ha''⟩
      · simp [snapshotOf, hv, hval₁, hrest₁, Except.map]
      · simp [snapshotOf, ← hs.registry_eq, hv, hval₂, hrest₂, Except.map]

end Recalc.Registry
