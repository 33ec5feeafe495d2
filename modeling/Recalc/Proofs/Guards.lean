import Recalc.Proofs.Assignment
import Recalc.Proofs.Snapshot

/-! # The defensive checks of a registry never fire on a reachable one -/

namespace Recalc.Registry

/-! ## Places that are named -/

theorem isSome_of_edge {r : Registry} (hw : r.WellFormed) {dir : Direction} {i j : Nat}
    (h : r.Edge dir i j) : (r.get? j).isSome := by
  cases dir with
  | reads =>
      obtain ⟨hi, hj⟩ := h
      obtain ⟨v, hv⟩ := isSome_get?_iff.1 hi
      rw [refsOf_of_get? hv] at hj
      exact hw.refs_live i v hv j hj
  | readBy => exact h.1

theorem isSome_of_reaches {r : Registry} (hw : r.WellFormed) {dir : Direction} {i j : Nat}
    (h : r.Reaches dir i j) : (r.get? j).isSome := by
  obtain ⟨k, hk⟩ := h.exists_edge_last
  exact isSome_of_edge hw hk

theorem isSome_of_related {r : Registry} (hw : r.WellFormed) {h : Handle} {dir : Direction}
    {reach : Reach} {ids : List Nat} (hq : r.related h dir reach = .ok ids) :
    ∀ i ∈ ids, (r.get? i).isSome := by
  cases hres : r.resolve h with
  | error e => simp [related, hres, bind, Except.bind] at hq
  | ok p =>
      obtain ⟨hh, -, hv⟩ := resolve_eq_ok.1 hres
      have hlive : r.Live h := ⟨hh, by simp [hv]⟩
      intro i hi
      cases reach with
      | direct =>
          rw [related_direct hlive, Except.ok.injEq] at hq
          subst hq
          exact isSome_of_edge hw ((mem_neighbours hw dir h.id i).1 hi)
      | all =>
          rw [related_all hlive, Except.ok.injEq] at hq
          subst hq
          exact isSome_of_reaches hw ((mem_walk_iff hw h.id dir i).1 hi)

theorem remove_eq_stillReferenced {r : Registry} {h : Handle} {name : String}
    {readers : List String} (hs : r.remove h = .error (.stillReferenced name readers)) :
    (∃ v, r.get? h.id = some v ∧ v.name = name) ∧
      readers = sortNames ((r.readersOf h.id).map r.nameOf) := by
  cases hres : r.resolve h with
  | error e =>
      have he : e = .stillReferenced name readers := by
        simpa [remove, hres, bind, Except.bind] using hs
      subst he
      unfold resolve at hres
      split at hres
      · cases hres
      · cases hv : r.get? h.id <;> simp [hv] at hres
  | ok p =>
      obtain ⟨id, v⟩ := p
      obtain ⟨-, rfl, hv⟩ := resolve_eq_ok.1 hres
      cases hrd : r.readersOf h.id with
      | nil => simp [remove, hres, hrd, bind, Except.bind, pure, Except.pure] at hs
      | cons d ds =>
          simp only [remove, hres, hrd, bind, Except.bind, throw, throwThe, MonadExceptOf.throw,
            Except.error.injEq, Error.stillReferenced.injEq] at hs
          exact ⟨⟨v, hv, hs.1⟩, hs.2.symm⟩

/-! ## The paths of a cycle refusal -/

/-! ### One round of the path search -/

section Round

variable (next : Nat → List Nat) (target : Nat)

/-- One neighbour's turn in a round of the path search: a place not seen yet is seen, and the path
extended to it joins the next round. -/
def extendStep (x : Nat) (back : List Nat) (p : List Nat × List (List Nat)) (d : Nat) :
    List Nat × List (List Nat) :=
  if p.1.contains d then p else (p.1 ++ [d], p.2 ++ [d :: x :: back])

theorem pathLayer_cons (x : Nat) (back : List Nat) (paths : List (List Nat)) (seen : List Nat)
    (upcoming : List (List Nat)) :
    pathLayer next target ((x :: back) :: paths) seen upcoming =
      if x == target then .found (x :: back).reverse
      else pathLayer next target paths ((next x).foldl (extendStep x back) (seen, upcoming)).1
        ((next x).foldl (extendStep x back) (seen, upcoming)).2 := rfl

theorem foldl_extendStep (x : Nat) (back ds seen : List Nat) (upcoming : List (List Nat)) :
    ∃ added, (ds.foldl (extendStep x back) (seen, upcoming)).1 = seen ++ added ∧
      (ds.foldl (extendStep x back) (seen, upcoming)).2 =
        upcoming ++ added.map (· :: x :: back) ∧
      added.Nodup ∧ (∀ y ∈ added, y ∉ seen ∧ y ∈ ds) ∧ ∀ d ∈ ds, d ∈ seen ++ added := by
  induction ds generalizing seen upcoming with
  | nil => exact ⟨[], by simp, by simp, List.nodup_nil, by simp, by simp⟩
  | cons d ds ih =>
      rw [List.foldl_cons]
      by_cases hd : d ∈ seen
      · -- a place seen already is passed over
        have hstep : extendStep x back (seen, upcoming) d = (seen, upcoming) := by
          simp [extendStep, hd]
        obtain ⟨added, h₁, h₂, hnd, hnew, hall⟩ := ih seen upcoming
        refine ⟨added, by rw [hstep, h₁], by rw [hstep, h₂], hnd, ?_, ?_⟩
        · intro y hy
          exact ⟨(hnew y hy).1, List.mem_cons_of_mem d (hnew y hy).2⟩
        · intro d' hd'
          rcases List.mem_cons.1 hd' with rfl | hd'
          · exact List.mem_append_left _ hd
          · exact hall d' hd'
      · have hstep : extendStep x back (seen, upcoming) d =
            (seen ++ [d], upcoming ++ [d :: x :: back]) := by
          simp [extendStep, hd]
        obtain ⟨added, h₁, h₂, hnd, hnew, hall⟩ := ih (seen ++ [d]) (upcoming ++ [d :: x :: back])
        refine ⟨d :: added, by rw [hstep, h₁]; simp, by rw [hstep, h₂]; simp, ?_, ?_, ?_⟩
        · exact List.nodup_cons.2 ⟨fun h => (hnew d h).1 (by simp), hnd⟩
        · intro y hy
          rcases List.mem_cons.1 hy with rfl | hy
          · exact ⟨hd, List.mem_cons_self⟩
          · exact ⟨fun h => (hnew y hy).1 (List.mem_append_left _ h),
              List.mem_cons_of_mem d (hnew y hy).2⟩
        · intro d' hd'
          rcases List.mem_cons.1 hd' with rfl | hd'
          · simp
          · simpa using hall d' hd'

theorem pathLayer_eq_found {paths : List (List Nat)} {seen : List Nat}
    {upcoming : List (List Nat)} {path : List Nat}
    (h : pathLayer next target paths seen upcoming = .found path) :
    ∃ back, (target :: back) ∈ paths ∧ path = (target :: back).reverse := by
  induction paths generalizing seen upcoming with
  | nil => simp [pathLayer] at h
  | cons p paths ih =>
      cases p with
      | nil =>
          obtain ⟨back, hmem, rfl⟩ := ih h
          exact ⟨back, List.mem_cons_of_mem _ hmem, rfl⟩
      | cons x back =>
          rw [pathLayer_cons] at h
          split at h
          · next hx =>
              obtain rfl : x = target := by simpa using hx
              exact ⟨back, List.mem_cons_self, by simpa using h.symm⟩
          · obtain ⟨back', hmem, rfl⟩ := ih h
            exact ⟨back', List.mem_cons_of_mem _ hmem, rfl⟩

/-- What a round that does not find the target does. It sees new places, each once, with a path
to each in the next round; every path it adds extends a path of the round by a neighbour of its
end, to a place it sees; it keeps the paths it was given; and the end of every path of the round
is not the target and has all its neighbours seen. -/
theorem pathLayer_eq_next {paths : List (List Nat)} {seen : List Nat}
    {upcoming : List (List Nat)} {seen' : List Nat} {upcoming' : List (List Nat)}
    (h : pathLayer next target paths seen upcoming = .next seen' upcoming') :
    ∃ added, seen' = seen ++ added ∧ added.Nodup ∧ (∀ y ∈ added, y ∉ seen) ∧
      (∀ y ∈ added, ∃ q ∈ upcoming', q.head? = some y) ∧
      (∀ q ∈ upcoming', q ∈ upcoming ∨
        ∃ x back y, (x :: back) ∈ paths ∧ y ∈ next x ∧ y ∈ added ∧ q = y :: x :: back) ∧
      (∀ q ∈ upcoming, q ∈ upcoming') ∧
      (∀ x back, (x :: back) ∈ paths → x ≠ target ∧ ∀ y ∈ next x, y ∈ seen') := by
  induction paths generalizing seen upcoming with
  | nil =>
      simp only [pathLayer, PathRound.next.injEq] at h
      obtain ⟨rfl, rfl⟩ := h
      exact ⟨[], by simp, List.nodup_nil, by simp, by simp, fun q hq => .inl hq,
        fun q hq => hq, by simp⟩
  | cons p paths ih =>
      cases p with
      | nil =>
          obtain ⟨added, hseen, hnd, hnew, hpaths, hfrom, hkeep, htaken⟩ := ih h
          refine ⟨added, hseen, hnd, hnew, hpaths, ?_, hkeep, ?_⟩
          · intro q hq
            rcases hfrom q hq with hq | ⟨x, back, y, hxb, hy, hya, rfl⟩
            · exact .inl hq
            · exact .inr ⟨x, back, y, List.mem_cons_of_mem _ hxb, hy, hya, rfl⟩
          · intro x back hxb
            exact htaken x back (by simpa using hxb)
      | cons x back =>
          rw [pathLayer_cons] at h
          split at h
          · cases h
          · next hx =>
            obtain ⟨added₁, h₁, h₂, hnd₁, hnew₁, hall₁⟩ :=
              foldl_extendStep x back (next x) seen upcoming
            rw [h₁, h₂] at h
            obtain ⟨added₂, hseen, hnd₂, hnew₂, hpaths, hfrom, hkeep, htaken⟩ := ih h
            have hkeep₁ : ∀ q ∈ upcoming ++ added₁.map (· :: x :: back), q ∈ upcoming' := hkeep
            refine ⟨added₁ ++ added₂, by rw [hseen, List.append_assoc], ?_, ?_, ?_, ?_, ?_, ?_⟩
            · refine List.nodup_append.2 ⟨hnd₁, hnd₂, ?_⟩
              rintro a ha b hb rfl
              exact hnew₂ a hb (List.mem_append_right _ ha)
            · intro y hy
              rcases List.mem_append.1 hy with hy | hy
              · exact (hnew₁ y hy).1
              · exact fun h => hnew₂ y hy (List.mem_append_left _ h)
            · intro y hy
              rcases List.mem_append.1 hy with hy | hy
              · exact ⟨y :: x :: back, hkeep₁ _ (by simp [hy]), rfl⟩
              · exact hpaths y hy
            · intro q hq
              rcases hfrom q hq with hq | ⟨x', back', y, hxb, hy, hya, rfl⟩
              · rcases List.mem_append.1 hq with hq | hq
                · exact .inl hq
                · -- a path added in this turn
                  obtain ⟨y, hy, rfl⟩ := List.mem_map.1 hq
                  exact .inr ⟨x, back, y, List.mem_cons_self, (hnew₁ y hy).2, by simp [hy], rfl⟩
              · exact .inr ⟨x', back', y, List.mem_cons_of_mem _ hxb, hy, by simp [hya], rfl⟩
            · exact fun q hq => hkeep₁ q (List.mem_append_left _ hq)
            · intro x' back' hxb
              rcases List.mem_cons.1 hxb with hxb | hxb
              · obtain ⟨rfl, rfl⟩ := List.cons.inj hxb
                refine ⟨fun h => hx (by simp [h]), fun y hy => ?_⟩
                rw [hseen]
                exact List.mem_append_left _ (hall₁ y hy)
              · exact htaken x' back' hxb

end Round

/-- The path a search finds ends at the target and has every property of paths that the paths it
starts from have and that extending a path by a neighbour of its end keeps. -/
theorem pathFrom_eq_some {next : Nat → List Nat} {target : Nat} (good : List Nat → Prop)
    (hgood : ∀ x back y, good (x :: back) → y ∈ next x → good (y :: x :: back)) (fuel : Nat)
    (paths : List (List Nat)) (seen : List Nat) {path : List Nat} (hpaths : ∀ p ∈ paths, good p)
    (h : pathFrom next target fuel paths seen = some path) :
    ∃ back, good (target :: back) ∧ path = (target :: back).reverse := by
  induction fuel generalizing paths seen with
  | zero => simp [pathFrom] at h
  | succ fuel ih =>
      cases hl : pathLayer next target paths seen [] with
      | found path' =>
          simp only [pathFrom, hl, Option.some.injEq] at h
          subst h
          obtain ⟨back, hmem, rfl⟩ := pathLayer_eq_found next target hl
          exact ⟨back, hpaths _ hmem, rfl⟩
      | next seen' upcoming =>
          simp only [pathFrom, hl] at h
          split at h
          · cases h
          · obtain ⟨added, -, -, -, -, hfrom, -, -⟩ := pathLayer_eq_next next target hl
            refine ih upcoming seen' (fun q hq => ?_) h
            rcases hfrom q hq with hq | ⟨x, back, y, hxb, hy, -, rfl⟩
            · cases hq
            · exact hgood x back y (hpaths _ hxb) hy

section Paths

variable {next : Nat → List Nat} (target : Nat) (good : Nat → Prop)

def GoodPaths (paths : List (List Nat)) : Prop := ∀ p ∈ paths, ∀ y ∈ p, good y

/-- Where the paths a search starts from hold good places only, and the neighbours of a good place
are good, the path it finds holds good places only. -/
theorem pathFrom_good (hnext : ∀ x, good x → ∀ y ∈ next x, good y) (fuel : Nat)
    (paths : List (List Nat)) (hpaths : GoodPaths good paths) (seen : List Nat)
    {path : List Nat} (h : pathFrom next target fuel paths seen = some path) :
    ∀ y ∈ path, good y := by
  have hext : ∀ x back y, (∀ z ∈ x :: back, good z) → y ∈ next x →
      ∀ z ∈ y :: x :: back, good z := by
    intro x back y hxb hy z hz
    rcases List.mem_cons.1 hz with rfl | hz
    · exact hnext x (hxb x List.mem_cons_self) z hy
    · exact hxb z hz
  obtain ⟨back, hgood, rfl⟩ :=
    pathFrom_eq_some (fun p => ∀ z ∈ p, good z) hext fuel paths seen hpaths h
  intro y hy
  exact hgood y (List.mem_reverse.1 hy)

end Paths

theorem isSome_of_findPath {r : Registry} (hw : r.WellFormed) {starts : List Nat} {target : Nat}
    (hstarts : ∀ d ∈ starts, (r.get? d).isSome) {path : List Nat}
    (h : r.findPath starts target = some path) : ∀ i ∈ path, (r.get? i).isSome := by
  refine pathFrom_good target (fun i => (r.get? i).isSome) (fun x _ y hy => ?_) _ _ ?_ _ h
  · exact isSome_of_edge hw (show r.Edge .reads x y from ⟨isSome_of_mem_refsOf hy, hy⟩)
  · intro p hp y hy
    obtain ⟨d, hd, rfl⟩ := List.mem_map.1 hp
    rw [List.mem_singleton.1 hy]
    exact hstarts d (mem_firstOccurrences.1 hd)

/-- A cycle refusal names the new variable and then the places of a path from its references to
the variable of the same name. -/
theorem checkNew_eq_cyclicReference {r : Registry} {v : Variable} {name : String}
    {path : List String} (h : r.checkNew v = .error (.cyclicReference name path)) :
    (∀ f, v.formula? = some f → f.home = r.ident ∧ r.removedReference? f = none) ∧
      name = v.name ∧ ∃ e ids, r.find? v.name = some e ∧ r.findPath v.refs e = some ids ∧
        path = v.name :: ids.map r.nameOf := by
  unfold checkNew at h
  have hformula : ∀ f, v.formula? = some f → f.home = r.ident ∧ r.removedReference? f = none := by
    intro f hf
    simp only [hf] at h
    by_cases hhome : f.home = r.ident
    · cases hrem : r.removedReference? f with
      | none => exact ⟨hhome, rfl⟩
      | some x => simp [hhome, hrem, throw, throwThe, MonadExceptOf.throw, bind, Except.bind] at h
    · simp [hhome, throw, throwThe, MonadExceptOf.throw, bind, Except.bind] at h
  refine ⟨hformula, ?_⟩
  cases hf : v.formula?
  case' none => simp only [hf] at h
  case' some f =>
    obtain ⟨hhome, hrem⟩ := hformula f hf
    simp only [hf, hhome, ne_eq, not_true_eq_false, if_false, hrem] at h
  all_goals
    cases he : r.find? v.name with
    | none => simp [he, pure, Except.pure] at h
    | some e =>
        cases hp : r.findPath v.refs e with
        | none => simp [he, hp, throw, throwThe, MonadExceptOf.throw] at h
        | some ids =>
            simp only [he, hp, throw, throwThe, MonadExceptOf.throw, Except.error.injEq,
              Error.cyclicReference.injEq] at h
            exact ⟨h.1.symm, e, ids, rfl, hp, h.2.symm⟩

theorem register_eq_error {r : Registry} {v : Variable} {e : Error}
    (h : r.register v = .error e) : r.checkNew v = .error e := by
  cases hc : r.checkNew v with
  | error e' => simpa [register, hc, bind, Except.bind] using h
  | ok u => simp [register, hc, bind, Except.bind, pure, Except.pure] at h

/-! ## Assignment, compiling and evaluating -/

theorem setConstant_eq_foreign {r : Registry} {h : Handle} {x : Float}
    (hs : r.setConstant h x = .error .foreignVariable) : h.home ≠ r.ident := by
  intro hh
  cases hv : r.get? h.id with
  | none => simp [setConstant_of_removed hh hv] at hs
  | some v =>
      rcases v with ⟨name, body⟩
      cases body with
      | constant c => simp [setConstant_of_constant hh hv rfl] at hs
      | delegate f => simp [setConstant_of_kind hh hv (by simp [Variable.kind])] at hs
      | lazy f c => simp [setConstant_of_kind hh hv (by simp [Variable.kind])] at hs

/-- Compiling fails only when reading or binding fails: a read formula always lowers against
its own names. -/
theorem compile_eq_error {r : Registry} {limits : Limits} {src : String} {e : Error}
    (h : r.compile limits src = .error e) :
    Formula.parse limits src = .error e ∨
      ∃ f, Formula.parse limits src = .ok f ∧ r.bindNames f.identifiers = .error e := by
  cases hp : Formula.parse limits src with
  | error e' => simp_all [compile, bind, Except.bind]
  | ok f =>
      cases hb : r.bindNames f.identifiers with
      | error e' => simp_all [compile, bind, Except.bind]
      | ok refs =>
          have hbound : ∀ x ∈ f.names, x ∈ f.identifiers := fun x hx => mem_firstOccurrences.2 hx
          obtain ⟨p, hl, -⟩ := Program.lower_ok hbound
          simp [compile, hp, hb, hl, bind, Except.bind, pure, Except.pure] at h

theorem length_inputsAt (id : Nat) (refs : List Nat) (ev : Evaluation) (xs : List Float)
    (ev' : Evaluation) (h : Evaluation.inputsAt id refs ev = .ok (xs, ev')) :
    xs.length = refs.length := by
  induction refs generalizing ev xs ev' with
  | nil =>
      rw [Evaluation.inputsAt] at h
      cases h
      rfl
  | cons d ds ih =>
      rw [Evaluation.inputsAt] at h
      split at h
      · cases hval : Evaluation.valueAt d ev with
        | error e => simp [hval] at h
        | ok p =>
            cases hrest : Evaluation.inputsAt id ds p.2 with
            | error e => simp [hval, hrest] at h
            | ok q =>
                simp only [hval, hrest, Except.ok.injEq, Prod.mk.injEq] at h
                obtain ⟨rfl, -⟩ := h
                simp [ih p.2 q.1 q.2 hrest]
      · cases h

/-! ## Formulas that came from compiling -/

/-- Every formula the registry holds came from compiling some text. -/
def FormulasCompiled (r : Registry) : Prop :=
  ∀ i v f, r.get? i = some v → v.formula? = some f → f.Compiled

theorem SameShape.formulasCompiled {r r' : Registry} (h : SameShape r r')
    (hc : r.FormulasCompiled) : r'.FormulasCompiled := by
  intro i v' f hv' hf
  obtain ⟨v, hv, -, hform⟩ := h.symm.get?_eq_some hv'
  exact hc i v f hv (hform ▸ hf)

theorem Step.formulasCompiled {r r' : Registry} (hs : Step r r') (hc : r.FormulasCompiled) :
    r'.FormulasCompiled := by
  -- a registration pushes a compiled formula or none; other calls keep or drop formulas
  have hpush : ∀ (v : Variable) (id : Nat), (∀ f, v.formula? = some f → f.Compiled) →
      r.register v = .ok (id, r') → r'.FormulasCompiled := by
    intro v id hv hreg i w f hw hf
    obtain ⟨-, -, rfl⟩ := register_eq_ok hreg
    rcases get?_push_eq_some.1 hw with ⟨-, rfl⟩ | hold
    · exact hv f hf
    · exact hc i w f hold hf
  cases hs with
  | addConstant name x id h => exact hpush _ id (by simp [Variable.formula?]) h
  | addDelegate name f id hf h =>
      exact hpush _ id (fun g hg => by simp only [Variable.formula?, Option.some.injEq] at hg; exact hg ▸ hf) h
  | addLazy name f id hf h =>
      exact hpush _ id (fun g hg => by simp only [Variable.formula?, Option.some.injEq] at hg; exact hg ▸ hf) h
  | setConstant h x hs => exact (sameShape_setConstant hs).formulasCompiled hc
  | remove h hs =>
      obtain ⟨-, -, -, rfl⟩ := remove_eq_ok hs
      intro i w f hw hf
      exact hc i w f (get?_set_none_eq_some.1 hw).2 hf
  | value h x hs => exact (sameShape_of_forget_eq (forget_value hs)).formulasCompiled hc
  | snapshot entries hs => exact (sameShape_of_forget_eq (forget_snapshot hs)).formulasCompiled hc

theorem Reachable.formulasCompiled {r : Registry} (h : r.Reachable) : r.FormulasCompiled := by
  induction h with
  | empty ident =>
      intro i v f hv
      simp [get?, Registry.empty] at hv
  | step _ hs ih => exact hs.formulasCompiled ih

/-! ## Every guard is idle -/

theorem exists_mem_of_forall₂ {α β : Type} {R : α → β → Prop} {l₁ : List α} {l₂ : List β}
    (h : List.Forall₂ R l₁ l₂) {b : β} (hb : b ∈ l₂) : ∃ a ∈ l₁, R a b := by
  induction h with
  | nil => cases hb
  | cons hab _ ih =>
      rcases List.mem_cons.1 hb with rfl | hb
      · exact ⟨_, List.mem_cons_self, hab⟩
      · obtain ⟨a, ha, hr⟩ := ih hb
        exact ⟨a, List.mem_cons_of_mem _ ha, hr⟩

/-- The guards of a registry that never fire. A shown name is always read from a live place, so
never the placeholder of an empty one: in a refused removal, in a refused registration's cycle,
in the answers of reference queries and in the references of snapshot entries. An assignment is
refused as foreign only for a handle of another registry. Compiling fails only in reading or
binding, never in lowering. A snapshot succeeds. And every formula the registry holds has as many
names and program inputs as references, a program that reads only values it has computed and
inputs it has, and is run on one input per reference. -/
structure GuardsHold (r : Registry) : Prop where
  removal_names : ∀ h name readers, r.remove h = .error (.stillReferenced name readers) →
    (∃ v, r.get? h.id = some v ∧ v.name = name) ∧
      readers = sortNames ((r.readersOf h.id).map r.nameOf) ∧
      ∀ i ∈ r.readersOf h.id, (r.get? i).isSome
  cycle_names : ∀ v name path, (∀ f, v.formula? = some f → f.Compiled) →
    r.register v = .error (.cyclicReference name path) →
    name = v.name ∧
      ∃ ids : List Nat, path = v.name :: ids.map r.nameOf ∧ ∀ i ∈ ids, (r.get? i).isSome
  query_names : ∀ h dir reach ids, r.related h dir reach = .ok ids → ∀ i ∈ ids, (r.get? i).isSome
  snapshot_names : ∀ entries r', r.snapshot = .ok (entries, r') → ∀ e ∈ entries,
    ∃ i v, r.get? i = some v ∧ e.references = sortNames (v.refs.map r.nameOf) ∧
      ∀ d ∈ v.refs, (r.get? d).isSome
  foreign_only : ∀ h x, r.setConstant h x = .error .foreignVariable → h.home ≠ r.ident
  compile_errors : ∀ limits src e, r.compile limits src = .error e →
    Formula.parse limits src = .error e ∨
      ∃ f, Formula.parse limits src = .ok f ∧ r.bindNames f.identifiers = .error e
  snapshot_ok : ∃ entries r', r.snapshot = .ok (entries, r')
  evaluators : ∀ i v f, r.get? i = some v → v.formula? = some f →
    f.names.length = f.refs.length ∧ f.program.inputs = f.refs.length ∧ f.program.InBounds ∧
      ∀ ev xs ev', Evaluation.inputsAt i f.refs ev = .ok (xs, ev') → xs.length = f.program.inputs

theorem Reachable.guardsHold {r : Registry} (hr : r.Reachable) : r.GuardsHold := by
  have hw := hr.wellFormed
  obtain ⟨entries, ev, hsnapshot, -, -, -, hspec⟩ := snapshot_spec hr
  constructor
  · intro h name readers hs
    obtain ⟨hname, hreaders⟩ := remove_eq_stillReferenced hs
    exact ⟨hname, hreaders, fun i hi => (mem_readersOf.1 hi).1⟩
  · intro v name path hv hreg
    obtain ⟨hformula, rfl, e, ids, -, hpath, rfl⟩ := checkNew_eq_cyclicReference (register_eq_error hreg)
    refine ⟨rfl, ids, rfl, isSome_of_findPath hw ?_ hpath⟩
    intro d hd
    cases hf : v.formula? with
    | none => simp [refs_eq_nil_of_formula? hf] at hd
    | some f =>
        rw [refs_eq_of_formula? hf] at hd
        exact isSome_of_removedReference? (hformula f hf).2 (hv f hf).spec.2.1 d hd
  · intro h dir reach ids hq
    exact isSome_of_related hw hq
  · intro entries' r' hs e he
    rw [hsnapshot, Except.ok.injEq, Prod.mk.injEq] at hs
    obtain ⟨rfl, -⟩ := hs
    obtain ⟨id, -, v, hv, rfl⟩ := exists_mem_of_forall₂ hspec he
    exact ⟨id, v, hv, rfl, hw.refs_live id v hv⟩
  · intro h x hs
    exact setConstant_eq_foreign hs
  · intro limits src e hc
    exact compile_eq_error hc
  · exact ⟨entries, ev.registry, hsnapshot⟩
  · intro i v f hv hf
    obtain ⟨hnodup, hnames, hinputs⟩ := (hr.formulasCompiled i v f hv hf).spec
    obtain ⟨rc, limits, src, hc⟩ := hr.formulasCompiled i v f hv hf
    obtain ⟨_, -, -, -, hbounds, -⟩ := compile_run_eq_eval hc
    refine ⟨hnames, hinputs, hbounds, fun ev xs ev' h => ?_⟩
    rw [length_inputsAt i f.refs ev xs ev' h, hinputs]

end Recalc.Registry
