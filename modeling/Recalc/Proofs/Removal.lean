import Recalc.Proofs.Meaning
import Recalc.Proofs.Registration

/-! # Removal empties the place of a variable nothing reads and changes nothing else, or is refused -/

namespace Recalc.Registry

open Relation

/-! ## Calls through a handle that does not resolve -/

/-- Every call through a handle is refused with `e`. -/
structure Refuses (r : Registry) (h : Handle) (e : Error) : Prop where
  value : r.value h = .error e
  setConstant : ∀ x, r.setConstant h x = .error e
  remove : r.remove h = .error e
  lookup : r.lookup h = .error e
  related : ∀ dir reach, r.related h dir reach = .error e
  references : ∀ reach, r.references h reach = .error e
  referencing : ∀ reach, r.referencing h reach = .error e

/-- Each call through a handle resolves it first, so a handle that does not resolve is refused by
every call, for the reason it does not resolve. -/
theorem refuses_of_resolve {r : Registry} {h : Handle} {e : Error}
    (hres : r.resolve h = .error e) : r.Refuses h e := by
  have hrel : ∀ dir reach, r.related h dir reach = .error e := by
    intro dir reach
    simp [related, hres, bind, Except.bind]
  refine ⟨?_, fun x => ?_, ?_, ?_, hrel, fun reach => ?_, fun reach => ?_⟩
  · simp [value, hres, bind, Except.bind]
  · simp [setConstant, hres, bind, Except.bind]
  · simp [remove, hres, bind, Except.bind]
  · simp [lookup, hres, Except.map]
  · simp [references, hrel, Except.map]
  · simp [referencing, hrel, Except.map]

theorem resolve_of_foreign {r : Registry} {h : Handle} (hh : h.home ≠ r.ident) :
    r.resolve h = .error .foreignVariable := by
  simp [resolve, hh]

theorem resolve_of_get?_none {r : Registry} {h : Handle} (hh : h.home = r.ident)
    (hv : r.get? h.id = none) : r.resolve h = .error (.removedVariable h.id) := by
  simp [resolve, hh, hv]

/-! ## The registry with one place emptied -/

section Emptied

variable (r : Registry) (id : Nat)

theorem live_set_none :
    ({ r with slots := r.slots.set! id none } : Registry).live = r.live.filter (· ≠ id) := by
  simp only [live, Array.size_set!, List.filter_filter]
  refine List.filter_congr fun i _ => ?_
  rw [get?_set_none]
  by_cases hi : id = i
  · simp [hi]
  · simp [hi, Ne.symm hi]

theorem refsOf_set_none (i : Nat) :
    ({ r with slots := r.slots.set! id none } : Registry).refsOf i =
      if id = i then [] else r.refsOf i := by
  unfold refsOf
  rw [get?_set_none]
  by_cases hi : id = i
  · simp [hi]
  · simp [hi]

theorem nameOf_set_none {i : Nat} (hi : i ≠ id) :
    ({ r with slots := r.slots.set! id none } : Registry).nameOf i = r.nameOf i := by
  unfold nameOf
  rw [get?_set_none, if_neg (Ne.symm hi)]

theorem entries_set_none :
    ({ r with slots := r.slots.set! id none } : Registry).entries =
      r.entries.filter (·.1 ≠ id) := by
  unfold entries
  rw [live_set_none, List.filter_map]
  refine List.map_congr_left fun i hi => ?_
  rw [nameOf_set_none r id (by simpa using (List.mem_filter.1 hi).2)]

theorem readersOf_set_none (d : Nat) :
    ({ r with slots := r.slots.set! id none } : Registry).readersOf d =
      (r.readersOf d).filter (· ≠ id) := by
  unfold readersOf
  rw [live_set_none, List.filter_filter, List.filter_filter]
  refine List.filter_congr fun i _ => ?_
  rw [refsOf_set_none]
  by_cases hi : id = i
  · simp [hi]
  · simp [hi, Ne.symm hi, Bool.and_comm]

/-- Emptying a place that no variable reads keeps the meaning of every other place: nothing else
reaches it. -/
theorem denote_set_none {j : Nat} (hreaders : r.readersOf id = []) (hj : j ≠ id) :
    ({ r with slots := r.slots.set! id none } : Registry).denote j = r.denote j := by
  refine denote_congr j fun k hk => ?_
  have hk : k ≠ id := by
    rcases hk with rfl | hreach
    · exact hj
    · rintro rfl
      -- the last edge into the emptied place would make its source a reader
      obtain ⟨x, hlive, hx⟩ := hreach.exists_edge_last
      have : x ∈ r.readersOf k := mem_readersOf.2 ⟨hlive, hx⟩
      simp [hreaders] at this
  rw [get?_set_none, if_neg (Ne.symm hk)]

theorem find?_set_none {v : Variable} (hw : r.WellFormed) (hv : r.get? id = some v) :
    ({ r with slots := r.slots.set! id none } : Registry).find? v.name = none := by
  refine find?_eq_none.2 fun i w hiw hname => ?_
  obtain ⟨hne, hiw⟩ := get?_set_none_eq_some.1 hiw
  exact hne (hw.names_inj i id w v hiw hv hname).symm

end Emptied

theorem addConstant_of_find?_none {r : Registry} {x : String} (hfree : r.find? x = none)
    (c : Float) :
    r.addConstant x c =
      .ok (r.slots.size, { r with slots := r.slots.push (some ⟨x, .constant c⟩) }) := by
  simp [addConstant, register, checkNew, Variable.formula?, hfree, bind, Except.bind, pure,
    Except.pure]

/-! ## What later calls keep -/

theorem SameShape.get?_eq_none {r r' : Registry} (h : SameShape r r') {i : Nat}
    (hi : r.get? i = none) : r'.get? i = none := by
  have := h.shape_eq i
  rw [hi, Option.map_none, Option.map_eq_none_iff] at this
  exact this

/-- A call keeps the registry's identity, never shrinks its arena, and leaves an empty place of
the arena empty: registration takes a new place, and the other calls fill no place. -/
theorem Step.keeps_empty {r r' : Registry} (hs : Step r r') :
    r'.ident = r.ident ∧ r.slots.size ≤ r'.slots.size ∧
      ∀ i < r.slots.size, r.get? i = none → r'.get? i = none := by
  have hpush : ∀ v id, r.register v = .ok (id, r') → r'.ident = r.ident ∧
      r.slots.size ≤ r'.slots.size ∧
        ∀ i < r.slots.size, r.get? i = none → r'.get? i = none := by
    intro v id h
    obtain ⟨-, -, rfl⟩ := register_eq_ok h
    refine ⟨rfl, by simp, fun i hi hnone => ?_⟩
    rw [get?_push, if_neg (Nat.ne_of_lt hi), hnone]
  have hsame : SameShape r r' → r'.ident = r.ident ∧ r.slots.size ≤ r'.slots.size ∧
      ∀ i < r.slots.size, r.get? i = none → r'.get? i = none := fun h =>
    ⟨h.ident_eq, Nat.le_of_eq h.size_eq.symm, fun _ _ hi => h.get?_eq_none hi⟩
  cases hs with
  | addConstant name x id h => exact hpush _ id h
  | addDelegate name f id _ h => exact hpush _ id h
  | addLazy name f id _ h => exact hpush _ id h
  | setConstant h x hs => exact hsame (sameShape_setConstant hs)
  | remove h hs =>
      obtain ⟨-, -, -, rfl⟩ := remove_eq_ok hs
      refine ⟨rfl, by simp, fun i _ hnone => ?_⟩
      rw [get?_set_none]
      split
      · rfl
      · exact hnone
  | value h x hs => exact hsame (sameShape_of_forget_eq (forget_value hs))
  | snapshot entries hs => exact hsame (sameShape_of_forget_eq (forget_snapshot hs))

/-- Along any run of calls the identity stays, the arena never shrinks, and an empty place of it
stays empty. -/
theorem Steps.keeps_empty {r r' : Registry} (hs : ReflTransGen Step r r') :
    r'.ident = r.ident ∧ r.slots.size ≤ r'.slots.size ∧
      ∀ i < r.slots.size, r.get? i = none → r'.get? i = none := by
  induction hs with
  | refl => exact ⟨rfl, Nat.le_refl _, fun _ _ hi => hi⟩
  | tail _ hstep ih =>
      obtain ⟨hident, hsize, hempty⟩ := ih
      obtain ⟨hident', hsize', hempty'⟩ := hstep.keeps_empty
      exact ⟨hident'.trans hident, Nat.le_trans hsize hsize', fun i hi hnone =>
        hempty' i (Nat.lt_of_lt_of_le hi hsize) (hempty i hi hnone)⟩

/-! ## Removal -/

/-- What removing the variable of handle `h` from `r` gave, `r'`: the variable's place is empty
and the arena as long as before; every other place holds what it held, with the same meaning; the
names of the live variables and the readers of every place lose the variable's place, the rest in
order; its name is free for a new constant; and from then on no registration takes its place and
every call through `h` is refused as naming a removed variable. -/
structure Removes (r : Registry) (h : Handle) (r' : Registry) : Prop where
  ident_eq : r'.ident = r.ident
  size_eq : r'.slots.size = r.slots.size
  get?_self : r'.get? h.id = none
  get?_other : ∀ j, j ≠ h.id → r'.get? j = r.get? j
  denote_other : ∀ j, j ≠ h.id → r'.denote j = r.denote j
  entries : r'.entries = r.entries.filter (·.1 ≠ h.id)
  readers : ∀ d, r'.readerTable.getD d [] = (r.readerTable.getD d []).filter (· ≠ h.id)
  name_free : ∀ v, r.get? h.id = some v → r'.find? v.name = none ∧
    ∀ c, r'.addConstant v.name c =
      .ok (r'.slots.size, { r' with slots := r'.slots.push (some ⟨v.name, .constant c⟩) })
  later : ∀ r'', ReflTransGen Step r' r'' →
    (∀ v id r''', r''.register v = .ok (id, r''') → id ≠ h.id) ∧
      r''.Refuses h (.removedVariable h.id)

theorem remove_of_unread {r : Registry} {h : Handle} {v : Variable} (hh : h.home = r.ident)
    (hv : r.get? h.id = some v) (hreaders : r.readersOf h.id = []) :
    r.remove h = .ok { r with slots := r.slots.set! h.id none } := by
  have hres : r.resolve h = .ok (h.id, v) := resolve_eq_ok.2 ⟨hh, rfl, hv⟩
  simp [remove, hres, hreaders, bind, Except.bind, pure, Except.pure]

theorem removes_set_none {r : Registry} (hw : r.WellFormed) {h : Handle} {v : Variable}
    (hh : h.home = r.ident) (hv : r.get? h.id = some v) (hreaders : r.readersOf h.id = []) :
    Removes r h { r with slots := r.slots.set! h.id none } := by
  have hw' : ({ r with slots := r.slots.set! h.id none } : Registry).WellFormed :=
    hw.remove (remove_of_unread hh hv hreaders)
  have hself : ({ r with slots := r.slots.set! h.id none } : Registry).get? h.id = none := by
    rw [get?_set_none, if_pos rfl]
  have hlt : h.id < r.slots.size := lt_size_of_get? hv
  refine ⟨rfl, by simp, hself, fun j hj => ?_, fun j hj => denote_set_none r h.id hreaders hj,
    entries_set_none r h.id, fun d => ?_, fun w hw'' => ?_, fun r'' hsteps => ?_⟩
  · rw [get?_set_none, if_neg (Ne.symm hj)]
  · rw [getD_readerTable hw', getD_readerTable hw, readersOf_set_none]
  · obtain rfl : w = v := Option.some.inj (hw''.symm.trans hv)
    have hfree := find?_set_none r h.id hw hv
    exact ⟨hfree, addConstant_of_find?_none hfree⟩
  · obtain ⟨hident, hsize, hempty⟩ := Steps.keeps_empty hsteps
    simp only [Array.size_set!] at hsize hempty
    refine ⟨fun w id r''' hreg => ?_, refuses_of_resolve ?_⟩
    · -- a registration takes the place at the end of the arena, past the removed one
      obtain ⟨-, rfl, -⟩ := register_eq_ok hreg
      omega
    · exact resolve_of_get?_none (hh.trans hident.symm) (hempty h.id hlt hself)

/-- How removal ends, by what the handle names. -/
structure RemoveOutcome (r : Registry) (h : Handle) : Prop where
  foreign : h.home ≠ r.ident → r.remove h = .error .foreignVariable
  removed : h.home = r.ident → r.get? h.id = none →
    r.remove h = .error (.removedVariable h.id)
  referenced : ∀ v, h.home = r.ident → r.get? h.id = some v → r.readersOf h.id ≠ [] →
    ∃ names, r.referencing h .direct = .ok names ∧
      r.remove h = .error (.stillReferenced v.name names)
  removes : ∀ v, h.home = r.ident → r.get? h.id = some v → r.readersOf h.id = [] →
    ∃ r', r.remove h = .ok r' ∧ Removes r h r'

/-- In a reachable registry, removal refuses a handle that does not resolve for the reason it
does not, and a variable that live variables read with their names, sorted, as the direct
reference query gives them; otherwise it empties the variable's place and nothing else. -/
theorem reachable_removeOutcome {r : Registry} (hr : r.Reachable) (h : Handle) :
    r.RemoveOutcome h := by
  have hw := hr.wellFormed
  refine ⟨fun hh => (refuses_of_resolve (resolve_of_foreign hh)).remove,
    fun hh hv => (refuses_of_resolve (resolve_of_get?_none hh hv)).remove, ?_, ?_⟩
  · intro v hh hv hreaders
    have hres : r.resolve h = .ok (h.id, v) := resolve_eq_ok.2 ⟨hh, rfl, hv⟩
    refine ⟨sortNames ((r.readersOf h.id).map r.nameOf), ?_, ?_⟩
    · -- the direct query lists the stored readers, which are the live variables that read it
      have hlive : r.Live h := ⟨hh, by simp [hv]⟩
      have hdirect := related_direct hlive .readBy
      simp [referencing, hdirect, neighbours, getD_readerTable hw, Except.map]
    · obtain ⟨d, ds, hds⟩ := List.exists_cons_of_ne_nil hreaders
      simp [remove, hres, hds, bind, Except.bind, throw, throwThe, MonadExceptOf.throw]
  · intro v hh hv hreaders
    exact ⟨_, remove_of_unread hh hv hreaders, removes_set_none hw hh hv hreaders⟩

end Recalc.Registry
