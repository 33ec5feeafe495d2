import Recalc.Registry.Update
import Recalc.Registry.Lookup
import Recalc.Proofs.Lowering
import Recalc.Proofs.Reading

/-! # Every reachable registry is well formed -/

namespace Recalc.Registry

/-! ## Places -/

theorem isSome_get?_iff {r : Registry} {i : Nat} : (r.get? i).isSome ↔ ∃ v, r.get? i = some v :=
  Option.isSome_iff_exists

theorem lt_size_of_get? {r : Registry} {i : Nat} {v : Variable} (h : r.get? i = some v) :
    i < r.slots.size := by
  by_cases hi : i < r.slots.size
  · exact hi
  · simp [get?, Array.getElem?_eq_none (Nat.le_of_not_lt hi)] at h

theorem lt_size_of_isSome {r : Registry} {i : Nat} (h : (r.get? i).isSome) : i < r.slots.size := by
  obtain ⟨v, hv⟩ := isSome_get?_iff.1 h
  exact lt_size_of_get? hv

@[simp] theorem mem_live {r : Registry} {i : Nat} : i ∈ r.live ↔ (r.get? i).isSome := by
  simp only [live, List.mem_filter, List.mem_range, and_iff_right_iff_imp]
  exact lt_size_of_isSome

theorem nodup_live (r : Registry) : r.live.Nodup :=
  (List.nodup_range).filter _

theorem refsOf_of_get? {r : Registry} {i : Nat} {v : Variable} (h : r.get? i = some v) :
    r.refsOf i = v.refs := by
  simp [refsOf, h]

theorem refsOf_congr {r r' : Registry} {i : Nat} (h : r'.get? i = r.get? i) :
    r'.refsOf i = r.refsOf i := by
  simp only [refsOf, h]

theorem refsOf_of_get?_none {r : Registry} {i : Nat} (h : r.get? i = none) : r.refsOf i = [] := by
  simp [refsOf, h]

theorem isSome_of_mem_refsOf {r : Registry} {i d : Nat} (h : d ∈ r.refsOf i) :
    (r.get? i).isSome := by
  cases hi : r.get? i with
  | none => simp [refsOf_of_get?_none hi] at h
  | some v => rfl

theorem mem_readersOf {r : Registry} {i d : Nat} :
    i ∈ r.readersOf d ↔ (r.get? i).isSome ∧ d ∈ r.refsOf i := by
  simp [readersOf]

theorem nameOf_of_get? {r : Registry} {i : Nat} {v : Variable} (h : r.get? i = some v) :
    r.nameOf i = v.name := by
  simp [nameOf, h]

theorem find?_eq_some {r : Registry} {x : String} {i : Nat} (h : r.find? x = some i) :
    ∃ v, r.get? i = some v ∧ v.name = x := by
  have hp := List.find?_some h
  cases hv : r.get? i with
  | none => simp [hv] at hp
  | some v => exact ⟨v, rfl, by simpa [hv] using hp⟩

theorem find?_eq_none {r : Registry} {x : String} :
    r.find? x = none ↔ ∀ i v, r.get? i = some v → v.name ≠ x := by
  simp only [find?, List.find?_eq_none, mem_live]
  constructor
  · intro h i v hv hname
    have := h i (by simp [hv])
    simp [hv, hname] at this
  · intro h i _
    cases hv : r.get? i with
    | none => simp
    | some v => simpa using h i v hv

theorem refs_eq_of_formula? {v : Variable} {f : BoundFormula} (h : v.formula? = some f) :
    v.refs = f.refs := by
  simp [Variable.refs, h]

theorem refs_eq_nil_of_formula? {v : Variable} (h : v.formula? = none) : v.refs = [] := by
  simp [Variable.refs, h]

theorem ext_get? {r r' : Registry} (hident : r.ident = r'.ident)
    (hsize : r.slots.size = r'.slots.size) (h : ∀ i, r.get? i = r'.get? i) : r = r' := by
  rcases r with ⟨ident, slots⟩
  rcases r' with ⟨ident', slots'⟩
  simp only at hident hsize
  subst hident
  congr 1
  refine Array.ext hsize fun i hi hi' => ?_
  simpa [get?, Array.getElem?_eq_getElem hi, Array.getElem?_eq_getElem hi'] using h i

/-! ## Changing places -/

theorem get?_push (r : Registry) (v : Variable) (i : Nat) :
    ({ r with slots := r.slots.push (some v) } : Registry).get? i =
      if i = r.slots.size then some v else r.get? i := by
  simp only [get?, Array.getElem?_push]
  split <;> rfl

theorem get?_push_eq_some {r : Registry} {v w : Variable} {i : Nat} :
    ({ r with slots := r.slots.push (some v) } : Registry).get? i = some w ↔
      (i = r.slots.size ∧ w = v) ∨ r.get? i = some w := by
  have hpast : r.get? r.slots.size = none := by simp [get?]
  rw [get?_push]
  split
  · next hi => simp [hi, hpast, eq_comm]
  · next hi => simp [hi]

theorem get?_modify (r : Registry) (id : Nat) (g : Variable → Variable) (i : Nat) :
    (r.modify id g).get? i = if id = i then (r.get? i).map g else r.get? i := by
  simp only [get?, modify, Array.getElem?_modify]
  split
  · cases r.slots[i]? with
    | none => rfl
    | some o => cases o <;> rfl
  · rfl

theorem get?_set_none (r : Registry) (id i : Nat) :
    ({ r with slots := r.slots.set! id none } : Registry).get? i =
      if id = i then none else r.get? i := by
  simp only [get?, Array.set!_eq_setIfInBounds, Array.getElem?_setIfInBounds]
  split
  · split <;> rfl
  · rfl

theorem get?_set_none_eq_some {r : Registry} {id i : Nat} {w : Variable} :
    ({ r with slots := r.slots.set! id none } : Registry).get? i = some w ↔
      id ≠ i ∧ r.get? i = some w := by
  rw [get?_set_none]
  split
  · next hi => simp [hi]
  · next hi => simp [hi]

theorem get?_foldl_modify (g : Variable → Variable) (hg : ∀ v, g (g v) = g v) (ids : List Nat)
    (r : Registry) (i : Nat) :
    (ids.foldl (fun s j => s.modify j g) r).get? i =
      if i ∈ ids then (r.get? i).map g else r.get? i := by
  induction ids generalizing r with
  | nil => simp
  | cons j js ih =>
      rw [List.foldl_cons, ih, get?_modify]
      by_cases hij : i = j
      · subst hij
        by_cases hm : i ∈ js
        · simp [hm, Option.map_map, Function.comp_def, hg]
        · simp [hm]
      · simp [hij, Ne.symm hij]


/-! ## What each call does when it succeeds -/

theorem resolve_eq_ok {r : Registry} {h : Handle} {id : Nat} {v : Variable} :
    r.resolve h = .ok (id, v) ↔ h.home = r.ident ∧ id = h.id ∧ r.get? h.id = some v := by
  unfold resolve
  by_cases hh : h.home = r.ident
  · cases hv : r.get? h.id with
    | none => simp [hh]
    | some w =>
        simp only [hh, ne_eq, not_true_eq_false, if_false, Except.ok.injEq, Prod.mk.injEq,
          true_and, Option.some.injEq]
        constructor
        · rintro ⟨rfl, rfl⟩
          exact ⟨rfl, rfl⟩
        · rintro ⟨rfl, rfl⟩
          exact ⟨rfl, rfl⟩
  · simp [hh]

theorem checkNew_name {r : Registry} {v : Variable}
    (h : (match r.find? v.name with
      | some existing =>
        match r.findPath v.refs existing with
        | some path => throw (Error.cyclicReference v.name (v.name :: path.map r.nameOf))
        | none => throw (Error.duplicateName v.name)
      | _ => pure () : Except Error Unit) = .ok ()) :
    r.find? v.name = none := by
  cases hn : r.find? v.name with
  | none => rfl
  | some e =>
      rw [hn] at h
      cases hp : r.findPath v.refs e <;> simp [hp, throw, throwThe, MonadExceptOf.throw] at h

theorem checkNew_eq_ok {r : Registry} {v : Variable} (h : r.checkNew v = .ok ()) :
    (∀ f, v.formula? = some f → f.home = r.ident ∧ r.removedReference? f = none) ∧
      r.find? v.name = none := by
  unfold checkNew at h
  cases hf : v.formula? with
  | none =>
      simp only [hf] at h
      exact ⟨by simp, checkNew_name h⟩
  | some f =>
      simp only [hf] at h
      by_cases hhome : f.home = r.ident
      · cases hrem : r.removedReference? f with
        | none =>
            simp only [hhome, ne_eq, not_true_eq_false, if_false, hrem] at h
            refine ⟨?_, checkNew_name h⟩
            intro g hg
            cases hg
            exact ⟨hhome, hrem⟩
        | some name =>
            simp [hhome, hrem, throw, throwThe, MonadExceptOf.throw, bind, Except.bind] at h
      · simp [hhome, throw, throwThe, MonadExceptOf.throw, bind, Except.bind] at h

theorem register_eq_ok {r r' : Registry} {v : Variable} {id : Nat}
    (h : r.register v = .ok (id, r')) :
    r.checkNew v = .ok () ∧ id = r.slots.size ∧ r' = { r with slots := r.slots.push (some v) } := by
  unfold register at h
  cases hc : r.checkNew v with
  | error e => simp [hc, bind, Except.bind] at h
  | ok u =>
      simp [hc, bind, Except.bind, pure, Except.pure] at h
      exact ⟨rfl, h.1.symm, h.2.symm⟩

theorem setConstant_eq_ok {r r' : Registry} {h : Handle} {x : Float}
    (hs : r.setConstant h x = .ok r') :
    ∃ v c, h.home = r.ident ∧ r.get? h.id = some v ∧ v.body = .constant c ∧
      r' = ((r.modify h.id fun v => { v with body := .constant x }).walk h.id .readBy).foldl
        (fun s j => s.modify j Variable.invalidate)
        (r.modify h.id fun v => { v with body := .constant x }) := by
  unfold setConstant at hs
  cases hr : r.resolve h with
  | error e => simp [hr, bind, Except.bind] at hs
  | ok p =>
      obtain ⟨id, v⟩ := p
      obtain ⟨hh, rfl, hv⟩ := resolve_eq_ok.1 hr
      simp only [hr, hv, bind, Except.bind] at hs
      split at hs
      · rename_i c hc
        simp only [pure, Except.pure, Except.ok.injEq] at hs
        exact ⟨v, c, hh, hv, hc, hs.symm⟩
      · simp [throw, throwThe, MonadExceptOf.throw] at hs

theorem remove_eq_ok {r r' : Registry} {h : Handle} (hs : r.remove h = .ok r') :
    h.home = r.ident ∧ (r.get? h.id).isSome ∧ r.readersOf h.id = [] ∧
      r' = { r with slots := r.slots.set! h.id none } := by
  unfold remove at hs
  cases hr : r.resolve h with
  | error e => simp [hr, bind, Except.bind] at hs
  | ok p =>
      obtain ⟨id, v⟩ := p
      obtain ⟨hh, rfl, hv⟩ := resolve_eq_ok.1 hr
      simp only [hr, bind, Except.bind] at hs
      split at hs
      · rename_i hreaders
        simp only [pure, Except.pure, Except.ok.injEq] at hs
        exact ⟨hh, by simp [hv], hreaders, hs.symm⟩
      · simp [throw, throwThe, MonadExceptOf.throw] at hs


theorem value_of_get? {r : Registry} {h : Handle} {v : Variable} (hh : h.home = r.ident)
    (hv : r.get? h.id = some v) :
    r.value h = (Evaluation.valueAt h.id { registry := r }).map fun p => (p.1, p.2.registry) := by
  have hr : r.resolve h = .ok (h.id, v) := resolve_eq_ok.2 ⟨hh, rfl, hv⟩
  unfold value
  cases hval : Evaluation.valueAt h.id { registry := r } <;>
    simp [hr, hval, bind, Except.bind, pure, Except.pure, Except.map]

theorem value_eq_ok {r r' : Registry} {h : Handle} {x : Float} (hs : r.value h = .ok (x, r')) :
    ∃ ev, h.home = r.ident ∧ (r.get? h.id).isSome ∧
      Evaluation.valueAt h.id { registry := r } = .ok (x, ev) ∧ r' = ev.registry := by
  cases hr : r.resolve h with
  | error e => simp [value, hr, bind, Except.bind] at hs
  | ok p =>
      obtain ⟨id, v⟩ := p
      obtain ⟨hh, rfl, hv⟩ := resolve_eq_ok.1 hr
      rw [value_of_get? hh hv] at hs
      cases hval : Evaluation.valueAt h.id { registry := r } with
      | error e => simp [hval, Except.map] at hs
      | ok q =>
          simp only [hval, Except.map, Except.ok.injEq, Prod.mk.injEq] at hs
          exact ⟨q.2, hh, by simp [hv], by rw [← hs.1], hs.2.symm⟩

theorem snapshot_eq_ok {r r' : Registry} {entries : List Snapshot.Entry}
    (hs : r.snapshot = .ok (entries, r')) :
    ∃ ev, snapshotOf Evaluation.valueAt r.order { registry := r } = .ok (entries, ev) ∧
      r' = ev.registry := by
  unfold snapshot at hs
  cases hsnap : snapshotOf Evaluation.valueAt r.order { registry := r } with
  | error e => simp [hsnap, Except.map] at hs
  | ok q =>
      simp only [hsnap, Except.map, Except.ok.injEq, Prod.mk.injEq] at hs
      exact ⟨q.2, by rw [← hs.1], hs.2.symm⟩


/-! ## Calls that change only values and caches -/

@[simp] theorem name_invalidate (v : Variable) : v.invalidate.name = v.name := by
  rcases v with ⟨name, body⟩
  cases body <;> rfl

@[simp] theorem formula?_invalidate (v : Variable) : v.invalidate.formula? = v.formula? := by
  rcases v with ⟨name, body⟩
  cases body <;> rfl

@[simp] theorem invalidate_invalidate (v : Variable) : v.invalidate.invalidate = v.invalidate := by
  rcases v with ⟨name, body⟩
  cases body <;> rfl

@[simp] theorem invalidate_remember (v : Variable) (x : Float) :
    (v.remember x).invalidate = v.invalidate := by
  rcases v with ⟨name, body⟩
  cases body <;> rfl

/-- The registry with every lazy cache dropped: what reading a registry leaves as it was. -/
def forget (r : Registry) : Registry :=
  { r with slots := r.slots.map (Option.map Variable.invalidate) }

@[simp] theorem get?_forget (r : Registry) (i : Nat) :
    r.forget.get? i = (r.get? i).map Variable.invalidate := by
  simp only [forget, get?, Array.getElem?_map]
  cases r.slots[i]? with
  | none => rfl
  | some o => cases o <;> rfl

theorem forget_modify_of {g : Variable → Variable} (hg : ∀ v, (g v).invalidate = v.invalidate)
    (r : Registry) (id : Nat) : (r.modify id g).forget = r.forget := by
  simp only [forget, modify]
  congr 1
  apply Array.ext_getElem?
  intro i
  simp only [Array.getElem?_map, Array.getElem?_modify]
  split <;> simp [Option.map_map, Function.comp_def, hg]

theorem forget_modify_remember (r : Registry) (id : Nat) (x : Float) :
    (r.modify id (·.remember x)).forget = r.forget :=
  forget_modify_of (fun v => invalidate_remember v x) r id

/-- Two registries with the same identity and arena whose live places hold variables of the same
names and formulas: they differ at most in the values of constants and in caches. -/
structure SameShape (r r' : Registry) : Prop where
  ident_eq : r'.ident = r.ident
  size_eq : r'.slots.size = r.slots.size
  shape_eq : ∀ i, (r'.get? i).map (fun v => (v.name, v.formula?)) =
    (r.get? i).map (fun v => (v.name, v.formula?))

namespace SameShape

variable {r r' r'' : Registry}

theorem refl (r : Registry) : SameShape r r := ⟨rfl, rfl, fun _ => rfl⟩

theorem trans (h : SameShape r r') (h' : SameShape r' r'') : SameShape r r'' :=
  ⟨h'.ident_eq.trans h.ident_eq, h'.size_eq.trans h.size_eq,
    fun i => (h'.shape_eq i).trans (h.shape_eq i)⟩

theorem get?_eq_some (h : SameShape r r') {i : Nat} {v : Variable} (hv : r.get? i = some v) :
    ∃ v', r'.get? i = some v' ∧ v'.name = v.name ∧ v'.formula? = v.formula? := by
  have := h.shape_eq i
  rw [hv] at this
  cases hv' : r'.get? i with
  | none => simp [hv'] at this
  | some v' =>
      simp only [hv', Option.map_some, Option.some.injEq, Prod.mk.injEq] at this
      exact ⟨v', rfl, this⟩

theorem symm (h : SameShape r r') : SameShape r' r :=
  ⟨h.ident_eq.symm, h.size_eq.symm, fun i => (h.shape_eq i).symm⟩

theorem isSome_iff (h : SameShape r r') (i : Nat) : (r'.get? i).isSome ↔ (r.get? i).isSome := by
  have := congrArg Option.isSome (h.shape_eq i)
  simpa using this

theorem refsOf_eq (h : SameShape r r') (i : Nat) : r'.refsOf i = r.refsOf i := by
  cases hv : r.get? i with
  | none =>
      have : r'.get? i = none := by simpa [hv] using (h.isSome_iff i)
      rw [refsOf_of_get?_none this, refsOf_of_get?_none hv]
  | some v =>
      obtain ⟨v', hv', -, hf⟩ := h.get?_eq_some hv
      rw [refsOf_of_get? hv', refsOf_of_get? hv]
      simp [Variable.refs, hf]

theorem wellFormed (h : SameShape r r') (hw : r.WellFormed) : r'.WellFormed := by
  have back : ∀ i v', r'.get? i = some v' →
      ∃ v, r.get? i = some v ∧ v'.name = v.name ∧ v'.formula? = v.formula? := by
    intro i v' hv'
    obtain ⟨v, hv, hn, hf⟩ := h.symm.get?_eq_some hv'
    exact ⟨v, hv, hn.symm, hf.symm⟩
  have hrefs : ∀ v v' : Variable, v'.formula? = v.formula? → v'.refs = v.refs := by
    intro v v' hf
    simp [Variable.refs, hf]
  constructor
  · intro i v' hv' d hd
    obtain ⟨v, hv, -, hf⟩ := back i v' hv'
    exact hw.refs_lt i v hv d (hrefs v v' hf ▸ hd)
  · intro i v' hv' d hd
    obtain ⟨v, hv, -, hf⟩ := back i v' hv'
    rw [h.isSome_iff]
    exact hw.refs_live i v hv d (hrefs v v' hf ▸ hd)
  · intro i v' hv'
    obtain ⟨v, hv, -, hf⟩ := back i v' hv'
    rw [hrefs v v' hf]
    exact hw.refs_nodup i v hv
  · intro i v' f hv' hf'
    obtain ⟨v, hv, -, hf⟩ := back i v' hv'
    rw [h.ident_eq]
    exact hw.home_eq i v f hv (hf ▸ hf')
  · intro i v' f hv' hf'
    obtain ⟨v, hv, -, hf⟩ := back i v' hv'
    exact hw.lengths i v f hv (hf ▸ hf')
  · intro i j v' w' hv' hw' hname
    obtain ⟨v, hv, hn, -⟩ := back i v' hv'
    obtain ⟨w, hw2, hn', -⟩ := back j w' hw'
    exact hw.names_inj i j v w hv hw2 (by rw [← hn, ← hn', hname])

end SameShape

theorem sameShape_of_forget_eq {r r' : Registry} (h : r'.forget = r.forget) : SameShape r r' := by
  refine ⟨by simpa [forget] using congrArg Registry.ident h, ?_, ?_⟩
  · simpa [forget] using congrArg (fun s => s.slots.size) h
  · intro i
    have := congrArg (fun s => (s.get? i).map fun v => (v.name, v.formula?)) h
    simpa [Option.map_map, Function.comp_def] using this

theorem sameShape_modify {r : Registry} {id : Nat} {g : Variable → Variable}
    (hg : ∀ v, r.get? id = some v → (g v).name = v.name ∧ (g v).formula? = v.formula?) :
    SameShape r (r.modify id g) := by
  refine ⟨rfl, by simp [modify], ?_⟩
  intro i
  rw [get?_modify]
  split
  · rename_i hi
    subst hi
    cases hv : r.get? id with
    | none => rfl
    | some v =>
        obtain ⟨hn, hf⟩ := hg v hv
        simp [hn, hf]
  · rfl

theorem sameShape_foldl_invalidate (r : Registry) (ids : List Nat) :
    SameShape r (ids.foldl (fun s j => s.modify j Variable.invalidate) r) := by
  induction ids generalizing r with
  | nil => exact SameShape.refl r
  | cons j js ih =>
      rw [List.foldl_cons]
      exact (sameShape_modify fun v _ => ⟨name_invalidate v, formula?_invalidate v⟩).trans (ih _)


theorem sameShape_setConstant {r r' : Registry} {h : Handle} {x : Float}
    (hs : r.setConstant h x = .ok r') : SameShape r r' := by
  obtain ⟨v, c, -, hv, hc, rfl⟩ := setConstant_eq_ok hs
  refine (sameShape_modify ?_).trans (sameShape_foldl_invalidate _ _)
  intro w hw
  rw [hv, Option.some.injEq] at hw
  subst hw
  simp [Variable.formula?, hc]

end Recalc.Registry

namespace Recalc.Evaluation

@[simp] theorem registry_note (ev : Evaluation) (id : Nat) (x : Float) :
    (ev.note id x).registry = ev.registry := rfl

/-- Induction over the reads that succeed: a property that holds of a value remembered, of a
value found ready, and of a value computed from inputs that have it, holds of every read that
succeeds; likewise a property of the reads of a formula's references that holds of none and is
kept by reading one more. -/
theorem valueAt_ok_induct (P : Nat → Evaluation → Float → Evaluation → Prop)
    (Q : Nat → List Nat → Evaluation → List Float → Evaluation → Prop)
    (memo : ∀ id ev x, ev.find? id = some x → P id ev x ev)
    (ready : ∀ id ev v x, ev.find? id = none → ev.registry.get? id = some v →
      v.ready? = some x → P id ev x (ev.note id x))
    (computed : ∀ id ev v f xs ev₁, ev.find? id = none → ev.registry.get? id = some v →
      v.ready? = none → v.formula? = some f → inputsAt id f.refs ev = .ok (xs, ev₁) →
      Q id f.refs ev xs ev₁ →
      P id ev (f.program.run xs)
        ({ ev₁ with registry := ev₁.registry.modify id (·.remember (f.program.run xs)) }.note id
          (f.program.run xs)))
    (nil : ∀ id ev, Q id [] ev [] ev)
    (cons : ∀ id d ds ev x ev₁ xs ev₂, d < id → valueAt d ev = .ok (x, ev₁) → P d ev x ev₁ →
      inputsAt id ds ev₁ = .ok (xs, ev₂) → Q id ds ev₁ xs ev₂ → Q id (d :: ds) ev (x :: xs) ev₂) :
    (∀ id ev x ev', valueAt id ev = .ok (x, ev') → P id ev x ev') ∧
    (∀ id refs ev xs ev', inputsAt id refs ev = .ok (xs, ev') → Q id refs ev xs ev') := by
  apply valueAt.mutual_induct
    (fun id ev => ∀ x ev', valueAt id ev = .ok (x, ev') → P id ev x ev')
    (fun id refs ev => ∀ xs ev', inputsAt id refs ev = .ok (xs, ev') → Q id refs ev xs ev')
  case _ => -- a value remembered
    intro id ev x hfind y ev' h
    rw [valueAt, hfind] at h
    cases h
    exact memo id ev x hfind
  case _ => -- an empty place fails
    intro id ev hfind hget y ev' h
    rw [valueAt, hfind] at h
    simp [hget] at h
  case _ => -- a value ready
    intro id ev hfind v hget x hready y ev' h
    rw [valueAt, hfind] at h
    simp only [hget, hready, Except.ok.injEq, Prod.mk.injEq] at h
    obtain ⟨rfl, rfl⟩ := h
    exact ready id ev v x hfind hget hready
  case _ => -- nothing ready and no formula fails
    intro id ev hfind v hget hready hformula y ev' h
    rw [valueAt, hfind] at h
    simp [hget, hready, hformula] at h
  case _ => -- the inputs fail
    intro id ev hfind v hget hready f hformula e hinputs _ y ev' h
    rw [valueAt, hfind] at h
    simp [hget, hready, hformula, hinputs] at h
  case _ => -- computed from the inputs
    intro id ev hfind v hget hready f hformula xs ev₁ hinputs ih y ev' h
    rw [valueAt, hfind] at h
    simp only [hget, hready, hformula, hinputs, Except.ok.injEq, Prod.mk.injEq] at h
    obtain ⟨rfl, rfl⟩ := h
    exact computed id ev v f xs ev₁ hfind hget hready hformula hinputs (ih xs ev₁ hinputs)
  case _ => -- no references
    intro id ev xs ev' h
    rw [inputsAt] at h
    cases h
    exact nil id ev
  case _ => -- the first reference fails
    intro id ev d ds hd e hvalue _ xs ev' h
    rw [inputsAt] at h
    simp [hd, hvalue] at h
  case _ => -- the other references fail
    intro id ev d ds hd x ev₁ hvalue e hrest _ _ xs ev' h
    rw [inputsAt] at h
    simp [hd, hvalue, hrest] at h
  case _ => -- the first reference, then the others
    intro id ev d ds hd x ev₁ hvalue ys ev₂ hrest ih₁ ih₂ xs ev' h
    rw [inputsAt] at h
    simp only [hd, if_true, hvalue, hrest, Except.ok.injEq, Prod.mk.injEq] at h
    obtain ⟨rfl, rfl⟩ := h
    exact cons id d ds ev x ev₁ ys ev₂ hd hvalue (ih₁ x ev₁ hvalue) hrest (ih₂ ys ev₂ hrest)
  case _ => -- a reference to a later place fails
    intro id ev d ds hd xs ev' h
    rw [inputsAt] at h
    simp [hd] at h

theorem forget_valueAt :
    (∀ id ev x ev', valueAt id ev = .ok (x, ev') → ev'.registry.forget = ev.registry.forget) ∧
    (∀ id refs ev xs ev', inputsAt id refs ev = .ok (xs, ev') →
      ev'.registry.forget = ev.registry.forget) := by
  apply valueAt_ok_induct (fun _ ev _ ev' => ev'.registry.forget = ev.registry.forget)
    (fun _ _ ev _ ev' => ev'.registry.forget = ev.registry.forget)
  case memo => intros; rfl
  case ready => intros; rfl
  case computed =>
    intro id ev v f xs ev₁ _ _ _ _ _ ih
    simp [Registry.forget_modify_remember, ih]
  case nil => intros; rfl
  case cons =>
    intro id d ds ev x ev₁ xs ev₂ _ _ ih₁ _ ih₂
    rw [ih₂, ih₁]

end Recalc.Evaluation

namespace Recalc.Registry

section Snapshots

variable {read : Nat → Evaluation → Except Error (Float × Evaluation)}

theorem snapshotOf_cons_eq_ok {id : Nat} {ids : List Nat} {ev ev' : Evaluation}
    {entries : List Snapshot.Entry} (h : snapshotOf read (id :: ids) ev = .ok (entries, ev')) :
    ∃ x ev₁ rest, read id ev = .ok (x, ev₁) ∧ snapshotOf read ids ev₁ = .ok (rest, ev') := by
  unfold snapshotOf at h
  cases hget : ev.registry.get? id with
  | none => simp [hget] at h
  | some v =>
      cases hval : read id ev with
      | error e => simp [hget, hval] at h
      | ok p =>
          cases hrest : snapshotOf read ids p.2 with
          | error e => simp [hget, hval, hrest, Except.map] at h
          | ok q =>
              simp only [hget, hval, hrest, Except.map, Except.ok.injEq, Prod.mk.injEq] at h
              exact ⟨p.1, p.2, q.1, rfl, by rw [← h.2, hrest]⟩

theorem forget_snapshotOf
    (hread : ∀ id ev x ev', read id ev = .ok (x, ev') → ev'.registry.forget = ev.registry.forget)
    (ids : List Nat) (ev ev' : Evaluation) (entries : List Snapshot.Entry)
    (h : snapshotOf read ids ev = .ok (entries, ev')) : ev'.registry.forget = ev.registry.forget := by
  induction ids generalizing ev ev' entries with
  | nil =>
      simp only [snapshotOf, Except.ok.injEq, Prod.mk.injEq] at h
      rw [← h.2]
  | cons id ids ih =>
      obtain ⟨x, ev₁, rest, hval, hrest⟩ := snapshotOf_cons_eq_ok h
      rw [ih ev₁ ev' rest hrest, hread id ev x ev₁ hval]

end Snapshots

/-! ## Compiled formulas -/

theorem find?_inj {r : Registry} {x y : String} {i : Nat} (hx : r.find? x = some i)
    (hy : r.find? y = some i) : x = y := by
  obtain ⟨v, hv, rfl⟩ := find?_eq_some hx
  obtain ⟨w, hw, rfl⟩ := find?_eq_some hy
  rw [hv, Option.some.injEq] at hw
  rw [hw]

theorem bindNames_eq_ok {r : Registry} {xs : List String} {ids : List Nat}
    (h : r.bindNames xs = .ok ids) :
    ids.length = xs.length ∧ (∀ i ∈ ids, ∃ x ∈ xs, r.find? x = some i) ∧
      (xs.Nodup → ids.Nodup) := by
  induction xs generalizing ids with
  | nil =>
      simp only [bindNames, Except.ok.injEq] at h
      subst h
      simp
  | cons x xs ih =>
      unfold bindNames at h
      cases hx : r.find? x with
      | none => simp [hx] at h
      | some i =>
          cases hrest : r.bindNames xs with
          | error e => simp [hx, hrest, Except.map] at h
          | ok rest =>
              simp only [hx, hrest, Except.map, Except.ok.injEq] at h
              subst h
              obtain ⟨hlen, hmem, hnodup⟩ := ih hrest
              refine ⟨by simp [hlen], ?_, ?_⟩
              · intro j hj
                rcases List.mem_cons.1 hj with rfl | hj
                · exact ⟨x, by simp, hx⟩
                · obtain ⟨y, hy, hyj⟩ := hmem j hj
                  exact ⟨y, by simp [hy], hyj⟩
              · intro hxs
                rw [List.nodup_cons] at hxs ⊢
                refine ⟨?_, hnodup hxs.2⟩
                intro hi
                obtain ⟨y, hy, hyi⟩ := hmem i hi
                exact hxs.1 (find?_inj hx hyi ▸ hy)

end Recalc.Registry

namespace Recalc

theorem nodup_foldl_firstOccurrences {α : Type} [BEq α] [LawfulBEq α] (xs seen : List α)
    (h : seen.Nodup) :
    (xs.foldl (fun seen x => if seen.contains x then seen else seen ++ [x]) seen).Nodup := by
  induction xs generalizing seen with
  | nil => simpa using h
  | cons y ys ih =>
      rw [List.foldl_cons]
      apply ih
      by_cases hy : y ∈ seen
      · simpa [hy] using h
      · simp only [List.contains_iff_mem, hy, if_false]
        rw [List.nodup_append]
        refine ⟨h, List.pairwise_singleton _ y, ?_⟩
        rintro a ha b hb rfl
        simp only [List.mem_singleton] at hb
        exact hy (hb ▸ ha)

theorem nodup_firstOccurrences {α : Type} [BEq α] [LawfulBEq α] (xs : List α) :
    (firstOccurrences xs).Nodup :=
  nodup_foldl_firstOccurrences xs [] List.nodup_nil

/-- A formula that compiling some text against some registry gives. -/
def BoundFormula.Compiled (f : BoundFormula) : Prop :=
  ∃ (r : Registry) (limits : Limits) (src : String), r.compile limits src = .ok f

/-- A compiled formula reads each variable once, with one name and one input per variable. -/
theorem BoundFormula.Compiled.spec {f : BoundFormula} (hf : f.Compiled) :
    f.refs.Nodup ∧ f.names.length = f.refs.length ∧ f.program.inputs = f.refs.length := by
  obtain ⟨r, limits, src, hc⟩ := hf
  obtain ⟨g, refs, program, -, hb, -, rfl⟩ := Registry.compile_eq_ok hc
  obtain ⟨-, -, -, hinputs, -⟩ := Registry.compile_run_eq_eval hc
  obtain ⟨hlen, -, hnodup⟩ := Registry.bindNames_eq_ok hb
  exact ⟨hnodup (nodup_firstOccurrences _), hlen.symm, by simpa [hlen] using hinputs⟩

end Recalc

namespace Recalc.Registry

theorem forget_value {r r' : Registry} {h : Handle} {x : Float} (hs : r.value h = .ok (x, r')) :
    r'.forget = r.forget := by
  obtain ⟨ev, -, -, hval, rfl⟩ := value_eq_ok hs
  exact Evaluation.forget_valueAt.1 _ _ _ _ hval

theorem forget_snapshot {r r' : Registry} {entries : List Snapshot.Entry}
    (hs : r.snapshot = .ok (entries, r')) : r'.forget = r.forget := by
  obtain ⟨ev, hsnap, rfl⟩ := snapshot_eq_ok hs
  exact forget_snapshotOf (fun id ev x ev' => Evaluation.forget_valueAt.1 id ev x ev') _ _ _ _ hsnap

/-! ## Each call keeps a registry well formed -/

theorem wellFormed_empty (ident : Nat) : (Registry.empty ident).WellFormed := by
  have hnone : ∀ i, (Registry.empty ident).get? i = none := by
    intro i
    simp [Registry.empty, get?]
  constructor <;> intros <;> simp_all

theorem isSome_of_removedReference? {r : Registry} {f : BoundFormula}
    (h : r.removedReference? f = none) (hlen : f.names.length = f.refs.length) :
    ∀ d ∈ f.refs, (r.get? d).isSome := by
  intro d hd
  have hzip : d ∈ (f.refs.zip f.names).map Prod.fst := by
    rw [List.map_fst_zip (by omega)]
    exact hd
  obtain ⟨⟨d', name⟩, hmem, rfl⟩ := List.mem_map.1 hzip
  simp only [removedReference?, Option.map_eq_none_iff, List.find?_eq_none] at h
  exact Option.isSome_iff_ne_none.2 (by simpa using h _ hmem)

/-- A variable that passes the checks of registration keeps the registry well formed when it
takes the next place. -/
theorem WellFormed.push {r : Registry} {v : Variable} (hw : r.WellFormed)
    (hc : r.checkNew v = .ok ()) (hv : ∀ f, v.formula? = some f → f.Compiled) :
    ({ r with slots := r.slots.push (some v) } : Registry).WellFormed := by
  obtain ⟨hformula, hname⟩ := checkNew_eq_ok hc
  have hnew : ∀ d ∈ v.refs, (r.get? d).isSome := by
    intro d hd
    cases hf : v.formula? with
    | none => simp [refs_eq_nil_of_formula? hf] at hd
    | some f =>
        rw [refs_eq_of_formula? hf] at hd
        exact isSome_of_removedReference? (hformula f hf).2 (hv f hf).spec.2.1 d hd
  have hold : ∀ d, (r.get? d).isSome →
      (({ r with slots := r.slots.push (some v) } : Registry).get? d) = r.get? d := by
    intro d hd
    rw [get?_push, if_neg (Nat.ne_of_lt (lt_size_of_isSome hd))]
  constructor
  · intro i w hiw d hd
    rcases get?_push_eq_some.1 hiw with ⟨rfl, rfl⟩ | hiw
    · exact lt_size_of_isSome (hnew d hd)
    · exact hw.refs_lt i w hiw d hd
  · intro i w hiw d hd
    rcases get?_push_eq_some.1 hiw with ⟨rfl, rfl⟩ | hiw
    · rw [hold d (hnew d hd)]
      exact hnew d hd
    · have hd' := hw.refs_live i w hiw d hd
      rw [hold d hd']
      exact hd'
  · intro i w hiw
    rcases get?_push_eq_some.1 hiw with ⟨rfl, rfl⟩ | hiw
    · cases hf : w.formula? with
      | none => simp [refs_eq_nil_of_formula? hf]
      | some f =>
          rw [refs_eq_of_formula? hf]
          exact (hv f hf).spec.1
    · exact hw.refs_nodup i w hiw
  · intro i w f hiw hf
    rcases get?_push_eq_some.1 hiw with ⟨rfl, rfl⟩ | hiw
    · exact (hformula f hf).1
    · exact hw.home_eq i w f hiw hf
  · intro i w f hiw hf
    rcases get?_push_eq_some.1 hiw with ⟨rfl, rfl⟩ | hiw
    · exact ⟨(hv f hf).spec.2.1, (hv f hf).spec.2.2⟩
    · exact hw.lengths i w f hiw hf
  · -- the new name is free among the live variables
    intro i j w w' hiw hjw hnames
    rcases get?_push_eq_some.1 hiw with ⟨rfl, rfl⟩ | hio <;>
      rcases get?_push_eq_some.1 hjw with ⟨rfl, rfl⟩ | hjo
    · rfl
    · exact absurd hnames.symm (find?_eq_none.1 hname j w' hjo)
    · exact absurd hnames (find?_eq_none.1 hname i w hio)
    · exact hw.names_inj i j w w' hio hjo hnames

theorem WellFormed.register {r r' : Registry} {v : Variable} {id : Nat} (hw : r.WellFormed)
    (h : r.register v = .ok (id, r')) (hv : ∀ f, v.formula? = some f → f.Compiled) :
    r'.WellFormed := by
  obtain ⟨hc, -, rfl⟩ := register_eq_ok h
  exact hw.push hc hv

theorem WellFormed.remove {r r' : Registry} {h : Handle} (hw : r.WellFormed)
    (hs : r.remove h = .ok r') : r'.WellFormed := by
  obtain ⟨-, -, hreaders, rfl⟩ := remove_eq_ok hs
  constructor
  · intro i w hiw d hd
    exact hw.refs_lt i w (get?_set_none_eq_some.1 hiw).2 d hd
  · intro i w hiw d hd
    obtain ⟨-, hiw⟩ := get?_set_none_eq_some.1 hiw
    have hne : h.id ≠ d := by
      rintro rfl
      have : i ∈ r.readersOf h.id :=
        mem_readersOf.2 ⟨by simp [hiw], by rw [refsOf_of_get? hiw]; exact hd⟩
      simp [hreaders] at this
    rw [get?_set_none, if_neg hne]
    exact hw.refs_live i w hiw d hd
  · intro i w hiw
    exact hw.refs_nodup i w (get?_set_none_eq_some.1 hiw).2
  · intro i w f hiw hf
    exact hw.home_eq i w f (get?_set_none_eq_some.1 hiw).2 hf
  · intro i w f hiw hf
    exact hw.lengths i w f (get?_set_none_eq_some.1 hiw).2 hf
  · intro i j w w' hiw hjw hnames
    exact hw.names_inj i j w w' (get?_set_none_eq_some.1 hiw).2 (get?_set_none_eq_some.1 hjw).2
      hnames

/-! ## Reachable registries -/

def Live (r : Registry) (h : Handle) : Prop := h.home = r.ident ∧ (r.get? h.id).isSome

/-- One call of the registry's interface that succeeds, from the registry before the call to the
one after it. A registered formula comes from compiling some text against some registry at some
time; a call that fails leaves the registry as it was, and reference queries and other lookups
only read it. -/
inductive Step : Registry → Registry → Prop where
  | addConstant {r r' : Registry} (name : String) (x : Float) (id : Nat) :
      r.addConstant name x = .ok (id, r') → Step r r'
  | addDelegate {r r' : Registry} (name : String) (f : BoundFormula) (id : Nat) :
      f.Compiled → r.addDelegate name f = .ok (id, r') → Step r r'
  | addLazy {r r' : Registry} (name : String) (f : BoundFormula) (id : Nat) :
      f.Compiled → r.addLazy name f = .ok (id, r') → Step r r'
  | setConstant {r r' : Registry} (h : Handle) (x : Float) :
      r.setConstant h x = .ok r' → Step r r'
  | remove {r r' : Registry} (h : Handle) : r.remove h = .ok r' → Step r r'
  | value {r r' : Registry} (h : Handle) (x : Float) : r.value h = .ok (x, r') → Step r r'
  | snapshot {r r' : Registry} (entries : List Snapshot.Entry) :
      r.snapshot = .ok (entries, r') → Step r r'

/-- The registries reached from an empty one by calls that succeed. -/
inductive Reachable : Registry → Prop where
  | empty (ident : Nat) : Reachable (Registry.empty ident)
  | step {r r' : Registry} : Reachable r → Step r r' → Reachable r'

theorem Step.wellFormed {r r' : Registry} (hs : Step r r') (hw : r.WellFormed) :
    r'.WellFormed := by
  cases hs with
  | addConstant name x id h => exact hw.register h (by simp [Variable.formula?])
  | addDelegate name f id hf h =>
      exact hw.register h fun g hg => by
        simp only [Variable.formula?, Option.some.injEq] at hg
        exact hg ▸ hf
  | addLazy name f id hf h =>
      exact hw.register h fun g hg => by
        simp only [Variable.formula?, Option.some.injEq] at hg
        exact hg ▸ hf
  | setConstant h x hs => exact (sameShape_setConstant hs).wellFormed hw
  | remove h hs => exact hw.remove hs
  | value h x hs => exact (sameShape_of_forget_eq (forget_value hs)).wellFormed hw
  | snapshot entries hs => exact (sameShape_of_forget_eq (forget_snapshot hs)).wellFormed hw

/-- Every reachable registry is well formed. -/
theorem Reachable.wellFormed {r : Registry} (h : r.Reachable) : r.WellFormed := by
  induction h with
  | empty ident => exact wellFormed_empty ident
  | step _ hs ih => exact hs.wellFormed ih

/-! ## A sample registry -/

def sampleFormulaD : BoundFormula :=
  { home := 0, source := "a", names := ["a"], refs := [0],
    program := ⟨[⟨.load, 0, [.input 0]⟩], 0, 1⟩ }

def sampleFormulaL : BoundFormula :=
  { home := 0, source := "d", names := ["d"], refs := [1],
    program := ⟨[⟨.load, 0, [.input 0]⟩], 0, 1⟩ }

def sampleFormulaM : BoundFormula :=
  { home := 0, source := "l + d", names := ["l", "d"], refs := [2, 1],
    program := ⟨[⟨.load, 0, [.input 0]⟩, ⟨.load, 1, [.input 1]⟩, ⟨.add, 2, [.ref 0, .ref 1]⟩], 2, 2⟩ }

/-- Four variables: a constant `a` of value `x`, a delegate `d` reading it, a lazy `l` reading
`d` with cache `c`, and a delegate `m` reading `l` and `d`. -/
def sample (x : Float) (c : Cache) : Registry :=
  ⟨0, #[some ⟨"a", .constant x⟩, some ⟨"d", .delegate sampleFormulaD⟩,
    some ⟨"l", .lazy sampleFormulaL c⟩, some ⟨"m", .delegate sampleFormulaM⟩]⟩

/-- The sample's formulas come from compiling their texts against the registry of the moment. -/
theorem compiled_sampleFormulas :
    sampleFormulaD.Compiled ∧ sampleFormulaL.Compiled ∧ sampleFormulaM.Compiled := by
  have ha : Text.isBlank 'a' = false := by decide
  have hd : Text.isBlank 'd' = false := by decide
  have hl : Text.isBlank 'l' = false := by decide
  have hname (x : String) : Formula.Derives .product [.name x] (.var x) := by
    simpa using Formula.Derives.product (.power (.base .name)) .productEnd
  have hpa : Formula.parse {} "a" = .ok (.var "a") := by
    have hscan : Formula.Tokens.scan "a" = .append [⟨.name "a", 0⟩] (.done 1) := by
      simp [Formula.Tokens.scan, Formula.Tokens.scanFrom, Formula.singleSymbol?,
        Formula.isNameStart, ha]
    exact Formula.parse_of_derives (by decide) (by decide) hscan
      (by simpa using Formula.Derives.sum (hname "a") .sumEnd) (by decide)
  have hpd : Formula.parse {} "d" = .ok (.var "d") := by
    have hscan : Formula.Tokens.scan "d" = .append [⟨.name "d", 0⟩] (.done 1) := by
      simp [Formula.Tokens.scan, Formula.Tokens.scanFrom, Formula.singleSymbol?,
        Formula.isNameStart, hd]
    exact Formula.parse_of_derives (by decide) (by decide) hscan
      (by simpa using Formula.Derives.sum (hname "d") .sumEnd) (by decide)
  have hpm : Formula.parse {} "l + d" = .ok (.bin .add (.var "l") (.var "d")) := by
    have hscan : Formula.Tokens.scan "l + d" =
        .append [⟨.name "l", 0⟩, ⟨.plus, 2⟩, ⟨.name "d", 4⟩] (.done 5) := by
      have hsp : Text.isBlank ' ' = true := by decide
      have hp : Text.isBlank '+' = false := by decide
      have hsp1 : ' '.utf8Size = 1 := rfl
      have hp1 : '+'.utf8Size = 1 := rfl
      simp [Formula.Tokens.scan, Formula.Tokens.scanFrom, Formula.singleSymbol?,
        Formula.isNameStart, Formula.isNameChar, hl, hd, hp, hsp, hsp1, hp1]
    exact Formula.parse_of_derives (by decide) (by decide) hscan
      (by simpa using Formula.Derives.sum (hname "l") (.sumMore rfl (hname "d") .sumEnd))
      (by decide)
  have hfd : sampleFormulaD.Compiled :=
    ⟨⟨0, #[some ⟨"a", .constant 1⟩]⟩, {}, "a", by unfold compile; rw [hpa]; rfl⟩
  have hfl : sampleFormulaL.Compiled :=
    ⟨⟨0, #[some ⟨"a", .constant 1⟩, some ⟨"d", .delegate sampleFormulaD⟩]⟩, {}, "d",
      by unfold compile; rw [hpd]; rfl⟩
  have hfm : sampleFormulaM.Compiled :=
    ⟨⟨0, #[some ⟨"a", .constant 1⟩, some ⟨"d", .delegate sampleFormulaD⟩,
      some ⟨"l", .lazy sampleFormulaL .stale⟩]⟩, {}, "l + d", by unfold compile; rw [hpm]; rfl⟩
  exact ⟨hfd, hfl, hfm⟩

/-- Registering `a = 1`, then `d`, `l` and `m` from their texts. -/
theorem reachable_sample : (sample 1 .stale).Reachable := by
  obtain ⟨hfd, hfl, hfm⟩ := compiled_sampleFormulas
  exact (((Reachable.empty 0).step (.addConstant "a" 1 0 rfl)).step
    (.addDelegate "d" sampleFormulaD 1 hfd rfl) |>.step (.addLazy "l" sampleFormulaL 2 hfl rfl)).step
    (.addDelegate "m" sampleFormulaM 3 hfm rfl)

/-- Reading `l` computes it through `d` from `a` and fills its cache. -/
theorem value_sample_l (x : Float) :
    (sample x .stale).value ⟨0, 2⟩ = .ok (x, sample x (.fresh x)) := by
  simp only [value, resolve, bind, Except.bind, pure, Except.pure, sample, get?]
  simp [Evaluation.valueAt, Evaluation.inputsAt, Evaluation.find?, Evaluation.note, get?,
    Variable.ready?, Variable.formula?, sampleFormulaD, sampleFormulaL]
  exact ⟨rfl, rfl⟩

/-- Assigning `a` makes `l`, which reads it through the delegate `d`, stale. -/
theorem setConstant_sample :
    (sample 1 (.fresh 1)).setConstant ⟨0, 0⟩ 2 = .ok (sample 2 .stale) := by
  rfl

theorem reachable_sample_read : (sample 1 (.fresh 1)).Reachable :=
  reachable_sample.step (.value ⟨0, 2⟩ 1 (value_sample_l 1))

theorem reachable_sample_set : (sample 2 .stale).Reachable :=
  reachable_sample_read.step (.setConstant ⟨0, 0⟩ 2 setConstant_sample)

end Recalc.Registry
