import Recalc.Proofs.Freshness

/-! # Reads compute the recursive value, never fail on a live variable, and compute each variable once -/

namespace Recalc.Variable

theorem ready?_remember {v : Variable} {x y : Float} (h : (v.remember x).ready? = some y) :
    y = x ∨ v.ready? = some y := by
  rcases v with ⟨name, body⟩
  cases body with
  | constant c => exact .inr h
  | delegate f => exact .inr h
  | lazy f c =>
      simp only [remember, ready?, Option.some.injEq] at h
      exact .inl h.symm

end Recalc.Variable

namespace Recalc.Registry

/-- The value of a variable by recursion, trusting what is ready: a constant's value or a fresh
cache as it is, otherwise the program of its formula run on the recursive values of what it
reads. A place that is empty, or a reference to a place that is not earlier, counts as zero. -/
def recValue (r : Registry) (id : Nat) : Float :=
  match r.get? id with
  | none => 0
  | some v =>
    match v.ready? with
    | some x => x
    | none =>
      match v.formula? with
      | none => 0
      | some f => f.program.run (f.refs.map fun d => if d < id then r.recValue d else 0)
termination_by id

theorem recValue_of_ready? {r : Registry} {i : Nat} {v : Variable} {x : Float}
    (hv : r.get? i = some v) (hx : v.ready? = some x) : r.recValue i = x := by
  rw [recValue, hv]
  simp only [hx]

/-- In a well-formed registry, the recursive value of a variable with nothing ready is its
program run on the recursive values of what it reads. -/
theorem recValue_of_formula {r : Registry} (hw : r.WellFormed) {i : Nat} {v : Variable}
    {f : BoundFormula} (hv : r.get? i = some v) (hr : v.ready? = none)
    (hf : v.formula? = some f) : r.recValue i = f.program.run (f.refs.map r.recValue) := by
  rw [recValue, hv]
  simp only [hr, hf]
  congr 1
  apply List.map_congr_left
  intro d hd
  have hlt : d < i := hw.refs_lt i v hv d (by rw [refs_eq_of_formula? hf]; exact hd)
  simp [hlt]

end Recalc.Registry

namespace Recalc.Evaluation

open Registry

theorem find?_eq_none_iff {ev : Evaluation} {i : Nat} :
    ev.find? i = none ↔ i ∉ ev.known.map Prod.fst := by
  simp only [find?, Option.map_eq_none_iff, List.find?_eq_none, beq_iff_eq, List.mem_map,
    not_exists, not_and]

/-! ## What a read remembers -/

/-- What a read that starts from `ev` and leaves `ev'` remembers: the entries `new`, in front of
what `ev` remembered, each for a place that `ev` did not remember and that no other new entry
names. The registry changes only at those places, and a lazy variable among them keeps the
remembered value in its cache. -/
structure Records (ev : Evaluation) (new : List (Nat × Float)) (ev' : Evaluation) : Prop where
  known_eq : ev'.known = new ++ ev.known
  nodup : (new.map Prod.fst).Nodup
  not_known : ∀ p ∈ new, ev.find? p.1 = none
  frame : ∀ i, i ∉ new.map Prod.fst → ev'.registry.get? i = ev.registry.get? i
  cache : ∀ p ∈ new, ∀ w, ev'.registry.get? p.1 = some w → w.kind = .lazy →
    w.cache? = some (.fresh p.2)

namespace Records

variable {ev ev₁ ev₂ : Evaluation} {new new₁ new₂ : List (Nat × Float)} {id : Nat}

theorem refl (ev : Evaluation) : ev.Records [] ev :=
  ⟨rfl, .nil, by simp, fun _ _ => rfl, by simp⟩

theorem find?_eq (h : ev.Records new ev₁) {i : Nat} (hi : i ∉ new.map Prod.fst) :
    ev₁.find? i = ev.find? i := by
  have hnone : new.find? (·.1 == i) = none := by
    rw [List.find?_eq_none]
    intro p hp hpi
    exact hi (List.mem_map.2 ⟨p, hp, by simpa using hpi⟩)
  simp only [find?, h.known_eq, List.find?_append, hnone, Option.none_or]

theorem find?_of_mem (h : ev.Records new ev₁) {p : Nat × Float} (hp : p ∈ new) :
    ev₁.find? p.1 = some p.2 := by
  obtain ⟨l₁, l₂, rfl⟩ := List.append_of_mem hp
  have hl₁ : p.1 ∉ l₁.map Prod.fst := by
    have hnd := h.nodup
    rw [List.map_append, List.map_cons, List.nodup_append] at hnd
    exact fun hm => hnd.2.2 _ hm _ List.mem_cons_self rfl
  have hnone : l₁.find? (·.1 == p.1) = none := by
    rw [List.find?_eq_none]
    intro q hq hqp
    exact hl₁ (List.mem_map.2 ⟨q, hq, by simpa using hqp⟩)
  simp [find?, h.known_eq, List.find?_append, hnone]

theorem trans (h₁ : ev.Records new₁ ev₁) (h₂ : ev₁.Records new₂ ev₂) :
    ev.Records (new₂ ++ new₁) ev₂ := by
  -- the second read remembers only places the first did not
  have hdisj : ∀ p ∈ new₂, p.1 ∉ new₁.map Prod.fst ∧ ev.find? p.1 = none := by
    intro p hp
    have hnone := find?_eq_none_iff.1 (h₂.not_known p hp)
    rw [h₁.known_eq, List.map_append, List.mem_append, not_or] at hnone
    exact ⟨hnone.1, find?_eq_none_iff.2 hnone.2⟩
  refine ⟨by rw [h₂.known_eq, h₁.known_eq, List.append_assoc], ?_, ?_, ?_, ?_⟩
  · rw [List.map_append, List.nodup_append]
    refine ⟨h₂.nodup, h₁.nodup, ?_⟩
    rintro _ ha _ hb rfl
    obtain ⟨p, hp, rfl⟩ := List.mem_map.1 ha
    exact (hdisj p hp).1 hb
  · intro p hp
    rcases List.mem_append.1 hp with hp | hp
    · exact (hdisj p hp).2
    · exact h₁.not_known p hp
  · intro i hi
    rw [List.map_append, List.mem_append, not_or] at hi
    rw [h₂.frame i hi.1, h₁.frame i hi.2]
  · intro p hp w hw hk
    rcases List.mem_append.1 hp with hp | hp
    · exact h₂.cache p hp w hw hk
    · have hnot : p.1 ∉ new₂.map Prod.fst := by
        intro hm
        obtain ⟨q, hq, hqp⟩ := List.mem_map.1 hm
        exact (hdisj q hq).1 (hqp ▸ List.mem_map_of_mem hp)
      rw [h₂.frame p.1 hnot] at hw
      exact h₁.cache p hp w hw hk

theorem note (hfind : ev.find? id = none) {x : Float}
    (hcache : ∀ w, ev.registry.get? id = some w → w.kind = .lazy → w.cache? = some (.fresh x)) :
    ev.Records [(id, x)] (ev.note id x) :=
  ⟨rfl, by simp, by simpa using hfind, fun _ _ => rfl, by simpa using hcache⟩

theorem remember (hfind : ev.find? id = none) (x : Float) :
    ev.Records [(id, x)] ({ ev with registry := ev.registry.modify id (·.remember x) }.note id x) := by
  refine ⟨rfl, by simp, by simpa using hfind, fun i hi => ?_, ?_⟩
  · rw [registry_note, get?_modify, if_neg fun hid => hi (by simp [hid])]
  · simp only [List.mem_singleton, forall_eq, registry_note]
    intro w hw hk
    rw [get?_modify, if_pos rfl] at hw
    obtain ⟨u, -, rfl⟩ := Option.map_eq_some_iff.1 hw
    exact Variable.cache?_remember_of_lazy (by simpa using hk) x

end Records

/-! ## The invariant of a read -/

/-- What an evaluation of `r` keeps: its registry differs from `r` in caches only and keeps what
`r` has ready, and every value it has ready or remembers is the recursive value in `r`. -/
structure Agrees (r : Registry) (ev : Evaluation) : Prop where
  forget_eq : ev.registry.forget = r.forget
  keeps_ready : ∀ i v x, r.get? i = some v → v.ready? = some x → ev.registry.get? i = some v
  ready : ∀ i v x, ev.registry.get? i = some v → v.ready? = some x → x = r.recValue i
  known : ∀ i x, ev.find? i = some x → x = r.recValue i

namespace Agrees

variable {r : Registry} {ev : Evaluation}

theorem start {known : List (Nat × Float)}
    (hknown : ∀ i x, ({ registry := r, known } : Evaluation).find? i = some x → x = r.recValue i) :
    Agrees r { registry := r, known } :=
  ⟨rfl, fun _ _ _ hv _ => hv, fun _ _ _ hv hx => (recValue_of_ready? hv hx).symm, hknown⟩

theorem empty (r : Registry) : Agrees r { registry := r } :=
  start fun i x h => by simp [find?] at h

theorem get?_eq_some (ha : Agrees r ev) {i : Nat} {v : Variable}
    (hv : ev.registry.get? i = some v) : ∃ w, r.get? i = some w ∧ w.invalidate = v.invalidate := by
  have h := congrArg (·.get? i) ha.forget_eq
  simp only [get?_forget, hv, Option.map_some] at h
  obtain ⟨w, hw, hwv⟩ := Option.map_eq_some_iff.1 h.symm
  exact ⟨w, hw, hwv⟩

theorem get?_of_get?_eq_some (ha : Agrees r ev) {i : Nat} {w : Variable} (hw : r.get? i = some w) :
    ∃ v, ev.registry.get? i = some v ∧ v.invalidate = w.invalidate := by
  have h := congrArg (·.get? i) ha.forget_eq
  simp only [get?_forget, hw, Option.map_some] at h
  exact Option.map_eq_some_iff.1 h

theorem note (ha : Agrees r ev) {id : Nat} {x : Float} (hx : x = r.recValue id) :
    Agrees r (ev.note id x) := by
  refine ⟨ha.forget_eq, ha.keeps_ready, ha.ready, fun i y hy => ?_⟩
  rw [find?_note] at hy
  split at hy
  · next hi =>
      cases hy
      exact hi ▸ hx
  · exact ha.known i y hy

theorem remember (ha : Agrees r ev) {id : Nat} {v : Variable} (hv : ev.registry.get? id = some v)
    (hr : v.ready? = none) {x : Float} (hx : x = r.recValue id) :
    Agrees r ({ ev with registry := ev.registry.modify id (·.remember x) }.note id x) := by
  have ha' : Agrees r { ev with registry := ev.registry.modify id (·.remember x) } := by
    refine ⟨by rw [forget_modify_remember, ha.forget_eq], ?_, ?_, ha.known⟩
    · intro i w y hw hy
      rw [get?_modify]
      split
      · next hi =>
          subst hi
          rw [ha.keeps_ready id w y hw hy, Option.some.injEq] at hv
          subst hv
          simp [hy] at hr
      · exact ha.keeps_ready i w y hw hy
    · intro i u y hu hy
      rw [get?_modify] at hu
      split at hu
      · next hi =>
          subst hi
          obtain ⟨u', hu', rfl⟩ := Option.map_eq_some_iff.1 hu
          rcases Variable.ready?_remember hy with rfl | hy'
          · exact hx
          · exact ha.ready id u' y hu' hy'
      · exact ha.ready i u y hu hy
  exact ha'.note hx

/-- The recursive value of a variable with nothing ready in an evaluation that keeps the
invariant is its program run on the recursive values of what it reads. -/
theorem recValue_eq_run (hw : r.WellFormed) (ha : Agrees r ev) {id : Nat} {v : Variable}
    {f : BoundFormula} (hv : ev.registry.get? id = some v) (hready : v.ready? = none)
    (hf : v.formula? = some f) : r.recValue id = f.program.run (f.refs.map r.recValue) := by
  obtain ⟨w, hw', hwv⟩ := ha.get?_eq_some hv
  have hwf : w.formula? = some f := by
    rw [← formula?_invalidate, hwv, formula?_invalidate, hf]
  have hwr : w.ready? = none := by
    cases hy : w.ready? with
    | none => rfl
    | some y =>
        rw [ha.keeps_ready id w y hw' hy, Option.some.injEq] at hv
        subst hv
        simp [hy] at hready
  exact recValue_of_formula hw hw' hwr hwf

theorem refsOf_eq (ha : Agrees r ev) (i : Nat) : ev.registry.refsOf i = r.refsOf i := by
  rw [← refsOf_forget, ha.forget_eq, refsOf_forget]

end Agrees

/-! ## What a read has to remember -/

/-- The variable at `i` has nothing ready: it is a delegate, or a lazy variable with a stale
cache. -/
def Unready (ev : Evaluation) (i : Nat) : Prop :=
  ∃ v, ev.registry.get? i = some v ∧ v.ready? = none

/-- The places a read of `roots` from `ev` has to remember: a root not remembered, and a place
not remembered that an unready pending place reads. -/
inductive Pending (ev : Evaluation) (roots : List Nat) : Nat → Prop where
  | root {d : Nat} : d ∈ roots → ev.find? d = none → Pending ev roots d
  | ref {i d : Nat} : Pending ev roots i → ev.Unready i → d ∈ ev.registry.refsOf i →
      ev.find? d = none → Pending ev roots d

/-- Two evaluations of one registry that remember the same values. -/
structure Same (ev ev' : Evaluation) : Prop where
  registry_eq : ev.registry = ev'.registry
  find?_eq : ∀ i, ev.find? i = ev'.find? i

theorem Same.refl (ev : Evaluation) : ev.Same ev := ⟨rfl, fun _ => rfl⟩

namespace Records

variable {ev ev₁ : Evaluation} {new : List (Nat × Float)}

theorem find?_eq_none (h : ev.Records new ev₁) {i : Nat} (hi : ev₁.find? i = none) :
    ev.find? i = none := by
  rw [find?_eq_none_iff] at hi ⊢
  rw [h.known_eq, List.map_append] at hi
  exact fun hm => hi (List.mem_append_right _ hm)

theorem isSome_find? (h : ev.Records new ev₁) {i : Nat} (hi : (ev.find? i).isSome) :
    (ev₁.find? i).isSome :=
  isSome_find?_append ⟨new, h.known_eq⟩ hi

theorem not_mem_of_find?_eq_none (h : ev.Records new ev₁) {i : Nat} (hi : ev₁.find? i = none) :
    i ∉ new.map Prod.fst := by
  intro hm
  obtain ⟨p, hp, rfl⟩ := List.mem_map.1 hm
  simp [h.find?_of_mem hp] at hi

theorem mem_of_find? (h : ev.Records new ev₁) {i : Nat} (hi : ev.find? i = none)
    (hi₁ : (ev₁.find? i).isSome) : i ∈ new.map Prod.fst := by
  by_contra hm
  rw [h.find?_eq hm, hi] at hi₁
  cases hi₁

end Records

namespace Pending

variable {ev ev₁ : Evaluation} {roots roots' : List Nat} {i : Nat}

theorem find?_eq_none (h : ev.Pending roots i) : ev.find? i = none := by
  cases h with
  | root _ hd => exact hd
  | ref _ _ _ hd => exact hd

theorem mono (h : ev.Pending roots i) (hsub : ∀ d ∈ roots, d ∈ roots') : ev.Pending roots' i := by
  induction h with
  | root hd hfind => exact .root (hsub _ hd) hfind
  | ref _ hu hd hfind ih => exact .ref ih hu hd hfind

theorem of_refs (h : ev.Pending roots i) {id : Nat} (hid : ev.Pending roots' id)
    (hu : ev.Unready id) (hroots : ∀ d ∈ roots, d ∈ ev.registry.refsOf id) :
    ev.Pending roots' i := by
  induction h with
  | root hd hfind => exact .ref hid hu (hroots _ hd) hfind
  | ref _ hu' hd hfind ih => exact .ref ih hu' hd hfind

theorem of_records {new : List (Nat × Float)} (hrec : ev.Records new ev₁)
    (h : ev₁.Pending roots i) : ev.Pending roots i := by
  induction h with
  | root hd hfind => exact .root hd (hrec.find?_eq_none hfind)
  | ref hi hu hd hfind ih =>
      have hget := hrec.frame _ (hrec.not_mem_of_find?_eq_none hi.find?_eq_none)
      obtain ⟨v, hv, hr⟩ := hu
      rw [hget] at hv
      exact .ref ih ⟨v, hv, hr⟩ (refsOf_congr hget ▸ hd) (hrec.find?_eq_none hfind)

theorem congr (hs : ev.Same ev₁) (h : ev.Pending roots i) : ev₁.Pending roots i := by
  induction h with
  | root hd hfind => exact .root hd (by rw [← hs.find?_eq, hfind])
  | ref _ hu hd hfind ih =>
      refine .ref ih (by rwa [Unready, ← hs.registry_eq]) (by rwa [← hs.registry_eq]) ?_
      rw [← hs.find?_eq, hfind]

variable {r : Registry}

theorem le (hw : r.WellFormed) (ha : Agrees r ev) (h : ev.Pending roots i) :
    ∃ d ∈ roots, i ≤ d := by
  induction h with
  | root hd _ => exact ⟨_, hd, Nat.le_refl _⟩
  | @ref j d' _ hu hd _ ih =>
      obtain ⟨d, hd', hjd⟩ := ih
      obtain ⟨v, hv, -⟩ := hu
      obtain ⟨w, hw', -⟩ := ha.get?_eq_some hv
      rw [ha.refsOf_eq, refsOf_of_get? hw'] at hd
      exact ⟨d, hd', Nat.le_of_lt (Nat.lt_of_lt_of_le (hw.refs_lt j w hw' d' hd) hjd)⟩

theorem upstream (ha : Agrees r ev) {root : Nat} (h : ev.Pending [root] i) : r.Upstream root i := by
  induction h with
  | root hd _ => rw [List.mem_singleton.1 hd]; exact upstream_self r _
  | @ref j d _ hu hd _ ih =>
      obtain ⟨v, hv, -⟩ := hu
      obtain ⟨w, hw', -⟩ := ha.get?_eq_some hv
      rw [ha.refsOf_eq] at hd
      exact ih.trans ((upstream_iff hw').2 (.inr ⟨d, by rwa [← refsOf_of_get? hw'], upstream_self r d⟩))

end Pending

/-! ## What a read leaves -/

/-- A read of `roots` from `ev` that leaves `ev'`: it remembers the entries `new` as `Records`
says and keeps the invariant; it finds every root; each place it remembers is pending from the
roots, and each it remembers with nothing ready has what it reads remembered. -/
structure ReadsOut (r : Registry) (ev : Evaluation) (roots : List Nat) (new : List (Nat × Float))
    (ev' : Evaluation) : Prop where
  records : ev.Records new ev'
  agrees : Agrees r ev'
  roots_found : ∀ d ∈ roots, (ev'.find? d).isSome
  pending : ∀ p ∈ new, ev.Pending roots p.1
  inputs_found : ∀ p ∈ new, ev.Unready p.1 → ∀ d ∈ ev.registry.refsOf p.1, (ev'.find? d).isSome

namespace ReadsOut

variable {r : Registry} {ev ev₁ ev₂ : Evaluation} {roots roots' : List Nat}
  {new new' : List (Nat × Float)} {id : Nat}

theorem nil (ha : Agrees r ev) : ReadsOut r ev [] [] ev :=
  ⟨.refl ev, ha, by simp, by simp, by simp⟩

theorem known (ha : Agrees r ev) {x : Float} (hfind : ev.find? id = some x) :
    ReadsOut r ev [id] [] ev :=
  ⟨.refl ev, ha, by simp [hfind], by simp, by simp⟩

theorem ready (ha : Agrees r ev) (hfind : ev.find? id = none) {v : Variable}
    (hv : ev.registry.get? id = some v) {x : Float} (hx : v.ready? = some x) :
    ReadsOut r ev [id] [(id, x)] (ev.note id x) := by
  refine ⟨Records.note hfind fun w hw hk => ?_, ha.note (ha.ready id v x hv hx),
    by simp [find?_note], by simpa using Pending.root (List.mem_singleton_self id) hfind, ?_⟩
  · rw [hv, Option.some.injEq] at hw
    subst hw
    exact Variable.cache?_of_ready? hk hx
  · simp only [List.mem_singleton, forall_eq, Unready]
    rintro ⟨w, hw, hw'⟩
    rw [hv, Option.some.injEq] at hw
    subst hw
    simp [hx] at hw'

theorem append (h₁ : ReadsOut r ev roots new ev₁) (h₂ : ReadsOut r ev₁ roots' new' ev₂) :
    ReadsOut r ev (roots ++ roots') (new' ++ new) ev₂ := by
  refine ⟨h₁.records.trans h₂.records, h₂.agrees, ?_, ?_, ?_⟩
  · intro d hd
    rcases List.mem_append.1 hd with hd | hd
    · exact h₂.records.isSome_find? (h₁.roots_found d hd)
    · exact h₂.roots_found d hd
  · intro p hp
    rcases List.mem_append.1 hp with hp | hp
    · exact ((h₂.pending p hp).of_records h₁.records).mono fun d hd => List.mem_append_right _ hd
    · exact (h₁.pending p hp).mono fun d hd => List.mem_append_left _ hd
  · intro p hp hu d hd
    rcases List.mem_append.1 hp with hp | hp
    · -- the second read remembered `p`, so the first left it as it was
      have hnot := h₁.records.not_mem_of_find?_eq_none (h₂.records.not_known p hp)
      have hget := h₁.records.frame _ hnot
      obtain ⟨v, hv, hr⟩ := hu
      exact h₂.inputs_found p hp ⟨v, by rw [hget]; exact hv, hr⟩ d ((refsOf_congr hget).symm ▸ hd)
    · exact h₂.records.isSome_find? (h₁.inputs_found p hp hu d hd)

theorem remembered_eq (ha : Agrees r ev) {refs : List Nat} (hfound : ∀ d ∈ refs, (ev.find? d).isSome) :
    ev.remembered refs = .ok (refs.map r.recValue) := by
  induction refs with
  | nil => rfl
  | cons d ds ih =>
      obtain ⟨x, hx⟩ := Option.isSome_iff_exists.1 (hfound d List.mem_cons_self)
      rw [remembered, hx, ih fun d' hd' => hfound d' (List.mem_cons_of_mem d hd'), ha.known d x hx]
      rfl

/-- A read of places that a formula reads, covering those not yet remembered, leaves the
formula's place as it was, since all it reads is earlier, and finds all the formula reads. -/
theorem untouched (hw : r.WellFormed) (ha : Agrees r ev) {v : Variable} {f : BoundFormula}
    (hv : ev.registry.get? id = some v) (hf : v.formula? = some f)
    (hsub : ∀ d ∈ roots, d ∈ f.refs) (hcover : ∀ d ∈ f.refs, d ∈ roots ∨ (ev.find? d).isSome)
    (h : ReadsOut r ev roots new ev₁) :
    id ∉ new.map Prod.fst ∧ ∀ d ∈ f.refs, (ev₁.find? d).isSome := by
  refine ⟨fun hm => ?_, fun d hd => (hcover d hd).elim (h.roots_found d) h.records.isSome_find?⟩
  obtain ⟨p, hp, rfl⟩ := List.mem_map.1 hm
  obtain ⟨d, hd, hpd⟩ := (h.pending p hp).le hw ha
  obtain ⟨w, hw', -⟩ := ha.get?_eq_some hv
  have hlt := hw.refs_lt _ w hw' d (by
    rw [← refsOf_of_get? hw', ← ha.refsOf_eq, refsOf_of_get? hv, refs_eq_of_formula? hf]
    exact hsub d hd)
  omega

/-- Computing a formula once the places it reads are read: the read of those places, with the
value of the formula remembered and kept, is a read of the formula's place. -/
theorem compute (hw : r.WellFormed) (ha : Agrees r ev) (hfind : ev.find? id = none)
    {v : Variable} {f : BoundFormula} (hv : ev.registry.get? id = some v) (hready : v.ready? = none)
    (hf : v.formula? = some f) (hsub : ∀ d ∈ roots, d ∈ f.refs)
    (hcover : ∀ d ∈ f.refs, d ∈ roots ∨ (ev.find? d).isSome) (h : ReadsOut r ev roots new ev₁) :
    ReadsOut r ev [id] ((id, r.recValue id) :: new)
      ({ ev₁ with registry := ev₁.registry.modify id (·.remember (r.recValue id)) }.note id
        (r.recValue id)) := by
  have hrefs : ev.registry.refsOf id = f.refs := by
    rw [refsOf_of_get? hv, refs_eq_of_formula? hf]
  have hu : ev.Unready id := ⟨v, hv, hready⟩
  have hid : ev.Pending [id] id := .root (List.mem_singleton_self id) hfind
  obtain ⟨hnot, hfound⟩ := h.untouched hw ha hv hf hsub hcover
  have hget₁ : ev₁.registry.get? id = some v := (h.records.frame id hnot).trans hv
  have hgrow : ∀ d, (ev₁.find? d).isSome →
      (({ ev₁ with registry := ev₁.registry.modify id (·.remember (r.recValue id)) }.note id
        (r.recValue id)).find? d).isSome := fun d hd => by
    rw [find?_note]
    split <;> simp_all [find?]
  refine ⟨h.records.trans (Records.remember (h.records.find?_eq hnot ▸ hfind) _),
    h.agrees.remember hget₁ hready rfl, by simp [find?_note], ?_, ?_⟩
  · intro p hp
    rcases List.mem_cons.1 hp with rfl | hp
    · exact hid
    · exact (h.pending p hp).of_refs hid hu fun d hd => hrefs ▸ hsub d hd
  · intro p hp hup d hd
    rcases List.mem_cons.1 hp with rfl | hp
    · exact hgrow d (hfound d (hrefs ▸ hd))
    · exact hgrow d (h.inputs_found p hp hup d hd)

end ReadsOut

/-- From an evaluation that keeps the invariant, a read of a live variable returns its recursive
value, and a read of the references of a formula, all earlier and live, returns theirs; each is a
read as `ReadsOut` says. -/
theorem valueAt_readsOut {r : Registry} (hw : r.WellFormed) :
    (∀ id ev, Agrees r ev → (r.get? id).isSome →
      ∃ ev' new, valueAt id ev = .ok (r.recValue id, ev') ∧ ReadsOut r ev [id] new ev') ∧
    (∀ id refs ev, Agrees r ev → (∀ d ∈ refs, d < id ∧ (r.get? d).isSome) →
      ∃ ev' new, inputsAt id refs ev = .ok (refs.map r.recValue, ev') ∧
        ReadsOut r ev refs new ev') := by
  apply valueAt.mutual_induct
    (fun id ev => Agrees r ev → (r.get? id).isSome →
      ∃ ev' new, valueAt id ev = .ok (r.recValue id, ev') ∧ ReadsOut r ev [id] new ev')
    (fun id refs ev => Agrees r ev → (∀ d ∈ refs, d < id ∧ (r.get? d).isSome) →
      ∃ ev' new, inputsAt id refs ev = .ok (refs.map r.recValue, ev') ∧
        ReadsOut r ev refs new ev')
  case _ =>
    intro id ev x hfind ha _
    refine ⟨ev, [], ?_, .known ha hfind⟩
    rw [valueAt, hfind, ha.known id x hfind]
  case _ =>
    intro id ev hfind hget ha hlive
    obtain ⟨w, hw'⟩ := isSome_get?_iff.1 hlive
    obtain ⟨v, hv, -⟩ := ha.get?_of_get?_eq_some hw'
    simp [hget] at hv
  case _ =>
    intro id ev hfind v hget x hready ha _
    refine ⟨ev.note id x, [(id, x)], ?_, .ready ha hfind hget hready⟩
    rw [valueAt, hfind]
    simp only [hget, hready]
    rw [ha.ready id v x hget hready]
  case _ =>
    intro id ev hfind v hget hready hformula _ _
    have h := Variable.isSome_formula?_of_ready?_none hready
    simp [hformula] at h
  case _ =>
    intro id ev hfind v hget hready f hformula e hinputs ih ha _
    obtain ⟨w, hw', hwv⟩ := ha.get?_eq_some hget
    obtain ⟨ev', new, h, -⟩ := ih ha fun d hd => by
      rw [← refs_eq_of_formula? (by rw [← formula?_invalidate, hwv, formula?_invalidate, hformula])]
        at hd
      exact ⟨hw.refs_lt id w hw' d hd, hw.refs_live id w hw' d hd⟩
    rw [hinputs] at h
    cases h
  case _ =>
    intro id ev hfind v hget hready f hformula xs ev₁ hinputs ih ha _
    obtain ⟨w, hw', hwv⟩ := ha.get?_eq_some hget
    have hwf : w.formula? = some f := by
      rw [← formula?_invalidate, hwv, formula?_invalidate, hformula]
    obtain ⟨ev₂, new, h₂, hread⟩ := ih ha fun d hd => by
      rw [← refs_eq_of_formula? hwf] at hd
      exact ⟨hw.refs_lt id w hw' d hd, hw.refs_live id w hw' d hd⟩
    rw [hinputs] at h₂
    obtain ⟨rfl, rfl⟩ : xs = f.refs.map r.recValue ∧ ev₁ = ev₂ := by simpa using h₂
    have hx := (ha.recValue_eq_run hw hget hready hformula).symm
    refine ⟨_, _, ?_, hread.compute hw ha hfind hget hready hformula (fun _ hd => hd)
      (fun d hd => .inl hd)⟩
    rw [valueAt, hfind]
    simp only [hget, hready, hformula, hinputs, hx]
  case _ =>
    intro id ev ha _
    exact ⟨ev, [], by rw [inputsAt]; rfl, .nil ha⟩
  case _ =>
    intro id ev d ds hd e hvalue ih ha hrefs
    obtain ⟨ev', new, h, -⟩ := ih ha (hrefs d List.mem_cons_self).2
    rw [hvalue] at h
    cases h
  case _ =>
    intro id ev d ds hd x ev₁ hvalue e hrest ih₁ ih₂ ha hrefs
    obtain ⟨ev₂, new, h₂, hread⟩ := ih₁ ha (hrefs d List.mem_cons_self).2
    rw [hvalue] at h₂
    obtain ⟨rfl, rfl⟩ : x = r.recValue d ∧ ev₁ = ev₂ := by simpa using h₂
    obtain ⟨ev₃, new', h₃, -⟩ :=
      ih₂ hread.agrees fun d' hd' => hrefs d' (List.mem_cons_of_mem d hd')
    rw [hrest] at h₃
    cases h₃
  case _ =>
    intro id ev d ds hd x ev₁ hvalue ys ev₂ hrest ih₁ ih₂ ha hrefs
    obtain ⟨ev₃, new₁, h₃, hread₁⟩ := ih₁ ha (hrefs d List.mem_cons_self).2
    rw [hvalue] at h₃
    obtain ⟨rfl, rfl⟩ : x = r.recValue d ∧ ev₁ = ev₃ := by simpa using h₃
    obtain ⟨ev₄, new₂, h₄, hread₂⟩ :=
      ih₂ hread₁.agrees fun d' hd' => hrefs d' (List.mem_cons_of_mem d hd')
    rw [hrest] at h₄
    obtain ⟨rfl, rfl⟩ : ys = ds.map r.recValue ∧ ev₂ = ev₄ := by simpa using h₄
    refine ⟨ev₂, new₂ ++ new₁, ?_, hread₁.append hread₂⟩
    rw [inputsAt]
    simp only [hd, if_true, hvalue, hrest, List.map_cons]
  case _ =>
    intro id ev d ds hd ha hrefs
    exact absurd (hrefs d List.mem_cons_self).1 hd

end Recalc.Evaluation
