import Recalc.Proofs.Coherence

/-! # An assignment sets a constant and drops every cache that reaches it, or is refused and changes
nothing -/

namespace Recalc.Registry

/-! ## Registries of the same shape -/

namespace SameShape

variable {r r' : Registry}

theorem live_eq (h : SameShape r r') : r'.live = r.live := by
  have hlive : ∀ i, (r'.get? i).isSome = (r.get? i).isSome := fun i =>
    Bool.eq_iff_iff.2 (h.isSome_iff i)
  simp only [live, h.size_eq, hlive]

theorem find?_eq (h : SameShape r r') : r'.find? = r.find? := by
  funext x
  simp only [find?, h.live_eq]
  congr 1
  funext i
  cases hv : r.get? i with
  | none =>
      have hv' : r'.get? i = none := by simpa [hv] using h.isSome_iff i
      simp [hv']
  | some v =>
      obtain ⟨v', hv', hname, -⟩ := h.get?_eq_some hv
      simp [hv', hname]

theorem readerTable_eq (h : SameShape r r') : r'.readerTable = r.readerTable := by
  have hrefs : r'.refsOf = r.refsOf := funext h.refsOf_eq
  simp only [readerTable, h.live_eq, hrefs, h.size_eq]

end SameShape

/-! ## What the call returns -/

section Returns

variable {r : Registry} {h : Handle}

theorem setConstant_of_foreign (hh : h.home ≠ r.ident) (x : Float) :
    r.setConstant h x = .error .foreignVariable := by
  simp [setConstant, resolve, hh, bind, Except.bind]

theorem setConstant_of_removed (hh : h.home = r.ident) (hv : r.get? h.id = none) (x : Float) :
    r.setConstant h x = .error (.removedVariable h.id) := by
  simp [setConstant, resolve, hh, hv, bind, Except.bind]

theorem setConstant_of_kind {v : Variable} (hh : h.home = r.ident) (hv : r.get? h.id = some v)
    (hk : v.kind ≠ .constant) (x : Float) :
    r.setConstant h x = .error (.notConstant v.name) := by
  have hr : r.resolve h = .ok (h.id, v) := resolve_eq_ok.2 ⟨hh, rfl, hv⟩
  rcases v with ⟨name, body⟩
  cases body with
  | constant c => simp [Variable.kind] at hk
  | delegate f => simp [setConstant, hr, hv, bind, Except.bind, throw, throwThe, MonadExceptOf.throw]
  | lazy f c => simp [setConstant, hr, hv, bind, Except.bind, throw, throwThe, MonadExceptOf.throw]

/-- The constant with its new value: the registry the walk of an assignment runs on. -/
def assign (r : Registry) (id : Nat) (x : Float) : Registry :=
  r.modify id fun v => { v with body := .constant x }

theorem setConstant_of_constant {v : Variable} {c : Float} (hh : h.home = r.ident)
    (hv : r.get? h.id = some v) (hc : v.body = .constant c) (x : Float) :
    r.setConstant h x = .ok (((r.assign h.id x).walk h.id .readBy).foldl
      (fun s j => s.modify j Variable.invalidate) (r.assign h.id x)) := by
  have hr : r.resolve h = .ok (h.id, v) := resolve_eq_ok.2 ⟨hh, rfl, hv⟩
  simp [setConstant, assign, hr, hv, hc, bind, Except.bind, pure, Except.pure]

end Returns

/-! ## The registry after an assignment -/

section Effect

variable {r : Registry} {h : Handle} {v : Variable} {c : Float}

theorem sameShape_assign (hv : r.get? h.id = some v) (hc : v.body = .constant c) (x : Float) :
    SameShape r (r.assign h.id x) :=
  sameShape_modify fun w hw => by
    rw [hv, Option.some.injEq] at hw
    subst hw
    simp [Variable.formula?, hc]

theorem mem_walk_assign (hw : r.WellFormed) (hv : r.get? h.id = some v)
    (hc : v.body = .constant c) (x : Float) (i : Nat) :
    i ∈ (r.assign h.id x).walk h.id .readBy ↔ r.Reaches .readBy h.id i := by
  have hshape := sameShape_assign hv hc x
  rw [mem_walk_iff (hshape.wellFormed hw), hshape.reaches_iff]

end Effect

/-! ## Every assignment -/

/-- What assigning `x` through the handle `h` does to the registry `r`. On a live constant of `r`
the call succeeds: the constant holds `x`, every variable that reads it along a chain (those a
`referencing` query with every reach lists) keeps its name and formula but loses its cached value,
and every other variable, the names and the edges of the graph stay as they were. Any other
handle is refused: one of another registry, then one whose variable was removed, then one of a
variable that is no constant; and a refused call leaves the registry as it was. -/
structure SetsConstant (r : Registry) (h : Handle) (x : Float) : Prop where
  ok : ∀ v c, h.home = r.ident → r.get? h.id = some v → v.body = .constant c →
    ∃ r', r.setConstant h x = .ok r' ∧ r'.ident = r.ident ∧ r'.slots.size = r.slots.size ∧
      r'.get? h.id = some { v with body := .constant x } ∧
      (∀ i, r.Reaches .readBy h.id i → r'.get? i = (r.get? i).map Variable.invalidate) ∧
      (∀ i, i ≠ h.id → ¬r.Reaches .readBy h.id i → r'.get? i = r.get? i) ∧
      r'.find? = r.find? ∧ r'.refsOf = r.refsOf ∧ r'.readerTable = r.readerTable
  foreign : h.home ≠ r.ident → r.setConstant h x = .error .foreignVariable
  removed : h.home = r.ident → r.get? h.id = none →
    r.setConstant h x = .error (.removedVariable h.id)
  notConstant : ∀ v, h.home = r.ident → r.get? h.id = some v → v.kind ≠ .constant →
    r.setConstant h x = .error (.notConstant v.name)
  unchanged : ∀ e, r.setConstant h x = .error e → (Call.setConstant h x).apply r = r

theorem Reachable.setsConstant {r : Registry} (hr : r.Reachable) (h : Handle) (x : Float) :
    r.SetsConstant h x where
  ok v c hh hv hc := by
    have hw := hr.wellFormed
    have hs := setConstant_of_constant hh hv hc x
    have hshape := sameShape_setConstant hs
    refine ⟨_, hs, hshape.ident_eq, hshape.size_eq, ?_, ?_, ?_, hshape.find?_eq,
      funext hshape.refsOf_eq, hshape.readerTable_eq⟩
    · -- the walk leaves out the constant itself
      have hself : ¬r.Reaches .readBy h.id h.id := not_reaches_self hw .readBy h.id
      rw [get?_foldl_modify _ invalidate_invalidate,
        if_neg fun hm => hself ((mem_walk_assign hw hv hc x h.id).1 hm)]
      simp [assign, get?_modify, hv]
    · intro i hi
      -- the constant reaches no variable that reads it, so `i` is another place
      have hne : h.id ≠ i := by
        rintro rfl
        exact not_reaches_self hw .readBy h.id hi
      rw [get?_foldl_modify _ invalidate_invalidate, if_pos ((mem_walk_assign hw hv hc x i).2 hi)]
      simp [assign, get?_modify, hne]
    · intro i hne hi
      rw [get?_foldl_modify _ invalidate_invalidate,
        if_neg fun hm => hi ((mem_walk_assign hw hv hc x i).1 hm)]
      simp [assign, get?_modify, Ne.symm hne]
  foreign hh := setConstant_of_foreign hh x
  removed hh hv := setConstant_of_removed hh hv x
  notConstant _ hh hv hk := setConstant_of_kind hh hv hk x
  unchanged e he := by simp [Call.apply, he, Registry.settle]

end Recalc.Registry
