import Recalc.Proofs.Walk

/-! # The meaning of a variable depends only on what it reaches, up to caches, and so do the calls -/

namespace Recalc.Registry

/-! ## Unfolding the meaning -/

theorem denote_of_get?_none {r : Registry} {i : Nat} (h : r.get? i = none) : r.denote i = 0 := by
  rw [denote, h]

theorem denote_of_constant {r : Registry} {i : Nat} {v : Variable} {x : Float}
    (hv : r.get? i = some v) (hx : v.body = .constant x) : r.denote i = x := by
  rw [denote, hv]
  simp only [hx]

theorem denote_of_formula {r : Registry} {i : Nat} {v : Variable} {f : BoundFormula}
    (hv : r.get? i = some v) (hf : v.formula? = some f) :
    r.denote i = f.program.run (f.refs.map fun d => if d < i then r.denote d else 0) := by
  rw [denote, hv]
  rcases v with ⟨name, body⟩
  cases body <;> simp_all [Variable.formula?]

/-- In a well-formed registry a formula reads only earlier places, so its meaning is its program
run on the meanings of what it reads. -/
theorem denote_of_formula_of_wellFormed {r : Registry} (hw : r.WellFormed) {i : Nat}
    {v : Variable} {f : BoundFormula} (hv : r.get? i = some v) (hf : v.formula? = some f) :
    r.denote i = f.program.run (f.refs.map r.denote) := by
  rw [denote_of_formula hv hf]
  congr 1
  apply List.map_congr_left
  intro d hd
  have hlt : d < i := hw.refs_lt i v hv d (by rw [refs_eq_of_formula? hf]; exact hd)
  simp [hlt]

/-! ## What the meaning depends on -/

theorem body_of_invalidate_eq {v w : Variable} (h : w.invalidate = v.invalidate) {x : Float}
    (hx : v.body = .constant x) : w.body = .constant x := by
  rcases v with ⟨name, body⟩
  rcases w with ⟨name', body'⟩
  simp only at hx
  subst hx
  cases body' <;> simp_all [Variable.invalidate]

theorem exists_constant_of_formula?_none {v : Variable} (h : v.formula? = none) :
    ∃ x, v.body = .constant x := by
  rcases v with ⟨name, body⟩
  cases body <;> simp_all [Variable.formula?]

theorem SameShape.reaches_iff {r r' : Registry} (h : SameShape r r') {dir : Direction}
    {i j : Nat} : r'.Reaches dir i j ↔ r.Reaches dir i j := by
  have hedge : r'.Edge dir = r.Edge dir := by
    funext a b
    cases dir <;> simp [Edge, h.isSome_iff, h.refsOf_eq]
  rw [reaches_iff_transGen, reaches_iff_transGen, hedge]

theorem Reaches.exists_edge_last {r : Registry} {dir : Direction} {i j : Nat}
    (h : r.Reaches dir i j) : ∃ k, r.Edge dir k j := by
  cases h with
  | edge e => exact ⟨i, e⟩
  | step _ e => exact ⟨_, e⟩

/-- The meaning of a variable depends only on the variables it reaches, and on those only up to
their caches. -/
theorem denote_congr {r r' : Registry} (i : Nat)
    (h : ∀ j, (j = i ∨ r.Reaches .reads i j) →
      (r'.get? j).map Variable.invalidate = (r.get? j).map Variable.invalidate) :
    r'.denote i = r.denote i := by
  -- on the place: a formula counts only the earlier places it reads
  induction i using Nat.strongRecOn with
  | ind i ih =>
      have hi := h i (.inl rfl)
      cases hv : r.get? i with
      | none =>
          have hv' : r'.get? i = none := by simpa [hv] using hi
          rw [denote_of_get?_none hv, denote_of_get?_none hv']
      | some v =>
          obtain ⟨v', hv', hinv⟩ : ∃ v', r'.get? i = some v' ∧ v'.invalidate = v.invalidate := by
            cases hw' : r'.get? i <;> simp_all
          cases hf : v.formula? with
          | none =>
              obtain ⟨x, hx⟩ := exists_constant_of_formula?_none hf
              rw [denote_of_constant hv hx, denote_of_constant hv' (body_of_invalidate_eq hinv hx)]
          | some f =>
              have hf' : v'.formula? = some f := by
                rw [← formula?_invalidate, hinv, formula?_invalidate, hf]
              rw [denote_of_formula hv hf, denote_of_formula hv' hf']
              congr 1
              apply List.map_congr_left
              intro d hd
              split
              · next hlt =>
                  have he : r.Edge .reads i d :=
                    ⟨by simp [hv], by rw [refsOf_of_get? hv, refs_eq_of_formula? hf]; exact hd⟩
                  apply ih d hlt
                  rintro j (rfl | hj)
                  · exact h j (.inr (.edge he))
                  · exact h j (.inr (Reaches.of_edge_reaches he hj))
              · rfl

theorem denote_eq_of_forget_eq {r r' : Registry} (h : r'.forget = r.forget) (i : Nat) :
    r'.denote i = r.denote i :=
  denote_congr i fun j _ => by simpa using congrArg (·.get? j) h

/-! ## Lookups see a registry only up to its caches -/

@[simp] theorem refs_invalidate (v : Variable) : v.invalidate.refs = v.refs := by
  simp [Variable.refs]

@[simp] theorem ident_forget (r : Registry) : r.forget.ident = r.ident := rfl

@[simp] theorem size_forget (r : Registry) : r.forget.slots.size = r.slots.size := by
  simp [forget]

@[simp] theorem forget_forget (r : Registry) : r.forget.forget = r.forget := by
  simp [forget, Function.comp_def]

@[simp] theorem live_forget (r : Registry) : r.forget.live = r.live := by
  simp [live]

@[simp] theorem refsOf_forget (r : Registry) : r.forget.refsOf = r.refsOf := by
  funext i
  simp only [refsOf, get?_forget]
  cases r.get? i <;> simp

@[simp] theorem nameOf_forget (r : Registry) : r.forget.nameOf = r.nameOf := by
  funext i
  simp only [nameOf, get?_forget]
  cases r.get? i <;> simp

@[simp] theorem find?_forget (r : Registry) (x : String) : r.forget.find? x = r.find? x := by
  simp [find?, Option.any_map]

@[simp] theorem readersOf_forget (r : Registry) : r.forget.readersOf = r.readersOf := by
  funext d
  simp [readersOf]

@[simp] theorem findPath_forget (r : Registry) (starts : List Nat) (target : Nat) :
    r.forget.findPath starts target = r.findPath starts target := by
  simp [findPath]

@[simp] theorem removedReference?_forget (r : Registry) (f : BoundFormula) :
    r.forget.removedReference? f = r.removedReference? f := by
  simp [removedReference?]

@[simp] theorem checkNew_forget (r : Registry) (v : Variable) :
    r.forget.checkNew v = r.checkNew v := by
  simp [checkNew]

theorem resolve_forget (r : Registry) (h : Handle) :
    r.forget.resolve h = (r.resolve h).map fun p => (p.1, p.2.invalidate) := by
  unfold resolve
  simp only [ident_forget, get?_forget]
  split
  · rfl
  · cases r.get? h.id <;> rfl

/-! ## Calls commute with dropping caches -/

theorem forget_modify_forget {g : Variable → Variable}
    (hg : ∀ v, (g v.invalidate).invalidate = (g v).invalidate) (r : Registry) (id : Nat) :
    (r.forget.modify id g).forget = (r.modify id g).forget := by
  simp only [forget, modify]
  congr 1
  apply Array.ext_getElem?
  intro i
  simp only [Array.getElem?_map, Array.getElem?_modify]
  split <;> simp [Option.map_map, Function.comp_def, hg]

theorem forget_foldl_invalidate (ids : List Nat) (r : Registry) :
    (ids.foldl (fun s j => s.modify j Variable.invalidate) r).forget = r.forget := by
  induction ids generalizing r with
  | nil => rfl
  | cons j js ih => rw [List.foldl_cons, ih, forget_modify_of invalidate_invalidate]

theorem forget_set_none (r : Registry) (id : Nat) :
    ({ r with slots := r.slots.set! id none } : Registry).forget =
      { r.forget with slots := r.forget.slots.set! id none } := by
  simp only [forget]
  congr 1
  apply Array.ext_getElem?
  intro i
  simp only [Array.set!_eq_setIfInBounds, Array.getElem?_map, Array.getElem?_setIfInBounds]
  split <;> simp

theorem register_forget (r : Registry) (v : Variable) :
    (r.forget.register v).map (fun p => (p.1, p.2.forget)) =
      (r.register v).map (fun p => (p.1, p.2.forget)) := by
  unfold register
  rw [checkNew_forget]
  cases r.checkNew v <;>
    simp [bind, Except.bind, pure, Except.pure, Except.map, forget, Function.comp_def]

/-- The walk of an assignment need not be compared: the caches it drops are forgotten anyway. -/
theorem setConstant_forget (r : Registry) (h : Handle) (x : Float) :
    (r.forget.setConstant h x).map forget = (r.setConstant h x).map forget := by
  unfold setConstant
  rw [resolve_forget]
  cases hr : r.resolve h with
  | error e => simp [bind, Except.bind, Except.map]
  | ok p =>
      obtain ⟨id, name, body⟩ := p
      obtain ⟨-, rfl, hv⟩ := resolve_eq_ok.1 hr
      cases body <;>
        simp [bind, Except.bind, pure, Except.pure, Except.map, Variable.invalidate, get?_forget, hv,
          forget_foldl_invalidate, throw, throwThe, MonadExceptOf.throw]
      rw [forget_modify_forget]
      intro v
      simp

theorem remove_forget (r : Registry) (h : Handle) :
    (r.forget.remove h).map forget = (r.remove h).map forget := by
  unfold remove
  rw [resolve_forget, readersOf_forget]
  cases r.resolve h with
  | error e => simp [bind, Except.bind, Except.map]
  | ok p =>
      obtain ⟨id, v⟩ := p
      cases hrd : r.readersOf id with
      | nil =>
          simp only [Except.map, bind, Except.bind, hrd, pure, Except.pure]
          rw [forget_set_none, forget_set_none, forget_forget]
      | cons d ds =>
          simp [Except.map, bind, Except.bind, hrd, throw, throwThe, MonadExceptOf.throw]

end Recalc.Registry
