import Recalc.Proofs.Meaning

/-! # Every call keeps fresh caches equal to the meaning, so reads return `Registry.denote` -/

namespace Recalc.Registry

/-! ## Caches that hold meanings -/

/-- Every fresh cache holds the meaning of its variable. -/
def CachesAgree (r : Registry) : Prop :=
  ∀ i v x, r.get? i = some v → v.cache? = some (.fresh x) → x = r.denote i

theorem CachesAgree.ready? {r : Registry} (hc : r.CachesAgree) {i : Nat} {v : Variable}
    {x : Float} (hv : r.get? i = some v) (hx : v.ready? = some x) : x = r.denote i := by
  rcases v with ⟨name, body⟩
  cases body with
  | constant c =>
      simp only [Variable.ready?, Option.some.injEq] at hx
      subst hx
      exact (denote_of_constant hv rfl).symm
  | delegate f => simp [Variable.ready?] at hx
  | lazy f c =>
      cases c with
      | stale => simp [Variable.ready?] at hx
      | fresh y =>
          simp only [Variable.ready?, Option.some.injEq] at hx
          subst hx
          exact hc i _ _ hv rfl

end Recalc.Registry

namespace Recalc.Variable

theorem isSome_formula?_of_ready?_none {v : Variable} (h : v.ready? = none) :
    v.formula?.isSome := by
  rcases v with ⟨name, body⟩
  cases body <;> simp_all [ready?, formula?]

theorem cache?_invalidate (v : Variable) (x : Float) :
    v.invalidate.cache? ≠ some (.fresh x) := by
  rcases v with ⟨name, body⟩
  cases body <;> simp [invalidate, cache?]

theorem cache?_remember {v : Variable} {x y : Float}
    (h : (v.remember x).cache? = some (.fresh y)) : y = x := by
  rcases v with ⟨name, body⟩
  cases body <;> simp_all [remember, cache?]

end Recalc.Variable

namespace Recalc.Evaluation

theorem find?_note (ev : Evaluation) (id j : Nat) (x : Float) :
    (ev.note id x).find? j = if id = j then some x else ev.find? j := by
  by_cases h : id = j <;> simp [find?, note, h]

/-- What an evaluation of the registry `r` keeps: its registry differs from `r` in caches only,
every fresh cache holds a meaning, and so does every value it remembers. -/
structure Sound (r : Registry) (ev : Evaluation) : Prop where
  forget_eq : ev.registry.forget = r.forget
  caches : ev.registry.CachesAgree
  known : ∀ i x, ev.find? i = some x → x = r.denote i

namespace Sound

variable {r : Registry} {ev : Evaluation}

theorem start (hc : r.CachesAgree) : Sound r { registry := r } :=
  ⟨rfl, hc, fun i x h => by simp [find?] at h⟩

theorem get?_map (hs : Sound r ev) (i : Nat) :
    (ev.registry.get? i).map Variable.invalidate = (r.get? i).map Variable.invalidate := by
  simpa using congrArg (·.get? i) hs.forget_eq

theorem denote_eq (hs : Sound r ev) (i : Nat) : ev.registry.denote i = r.denote i :=
  Registry.denote_eq_of_forget_eq hs.forget_eq i

theorem note (hs : Sound r ev) {id : Nat} {x : Float} (hx : x = r.denote id) :
    Sound r (ev.note id x) := by
  refine ⟨hs.forget_eq, hs.caches, fun i y hy => ?_⟩
  rw [find?_note] at hy
  split at hy
  · next hi =>
      cases hy
      exact hi ▸ hx
  · exact hs.known i y hy

theorem remember (hs : Sound r ev) {id : Nat} {x : Float} (hx : x = r.denote id) :
    Sound r ({ ev with registry := ev.registry.modify id (·.remember x) }.note id x) := by
  have hforget : (ev.registry.modify id (·.remember x)).forget = r.forget := by
    rw [Registry.forget_modify_remember, hs.forget_eq]
  have hdenote : ∀ i, (ev.registry.modify id (·.remember x)).denote i = r.denote i :=
    Registry.denote_eq_of_forget_eq hforget
  have hcaches : (ev.registry.modify id (·.remember x)).CachesAgree := by
    intro i v y hv hy
    rw [hdenote]
    rw [Registry.get?_modify] at hv
    split at hv
    · next hi =>
        obtain ⟨w, -, rfl⟩ := Option.map_eq_some_iff.1 hv
        rw [Variable.cache?_remember hy, hx, hi]
    · rw [← hs.denote_eq]
      exact hs.caches i v y hv hy
  have hs' : Sound r { ev with registry := ev.registry.modify id (·.remember x) } :=
    ⟨hforget, hcaches, hs.known⟩
  exact hs'.note hx

theorem get?_eq_some (hs : Sound r ev) {i : Nat} {v : Variable}
    (hv : ev.registry.get? i = some v) : ∃ w, r.get? i = some w ∧ w.invalidate = v.invalidate := by
  have h := hs.get?_map i
  rw [hv] at h
  obtain ⟨w, hw, hwv⟩ := Option.map_eq_some_iff.1 h.symm
  exact ⟨w, hw, hwv⟩

theorem formula?_eq (hs : Sound r ev) {i : Nat} {v : Variable} {f : BoundFormula}
    (hv : ev.registry.get? i = some v) (hf : v.formula? = some f) :
    ∃ w, r.get? i = some w ∧ w.formula? = some f := by
  obtain ⟨w, hw, hwv⟩ := hs.get?_eq_some hv
  exact ⟨w, hw, by rw [← Registry.formula?_invalidate, hwv, Registry.formula?_invalidate, hf]⟩

theorem refs_ok (hw : r.WellFormed) (hs : Sound r ev) {i : Nat} {v : Variable}
    {f : BoundFormula} (hv : ev.registry.get? i = some v) (hf : v.formula? = some f) :
    ∀ d ∈ f.refs, d < i ∧ (r.get? d).isSome := by
  obtain ⟨w, hw', hwf⟩ := hs.formula?_eq hv hf
  intro d hd
  rw [← Registry.refs_eq_of_formula? hwf] at hd
  exact ⟨hw.refs_lt i w hw' d hd, hw.refs_live i w hw' d hd⟩

theorem denote_formula (hw : r.WellFormed) (hs : Sound r ev) {i : Nat} {v : Variable}
    {f : BoundFormula} (hv : ev.registry.get? i = some v) (hf : v.formula? = some f) :
    r.denote i = f.program.run (f.refs.map r.denote) := by
  obtain ⟨w, hw', hwf⟩ := hs.formula?_eq hv hf
  exact Registry.denote_of_formula_of_wellFormed hw hw' hwf

end Sound

/-- Reading a live variable from an evaluation that keeps the invariant returns the variable's
meaning and keeps the invariant; reading the references of a formula returns their meanings. -/
theorem valueAt_sound {r : Registry} (hw : r.WellFormed) :
    (∀ id ev, Sound r ev → (r.get? id).isSome →
      ∃ ev', valueAt id ev = .ok (r.denote id, ev') ∧ Sound r ev') ∧
    (∀ id refs ev, Sound r ev → (∀ d ∈ refs, d < id ∧ (r.get? d).isSome) →
      ∃ ev', inputsAt id refs ev = .ok (refs.map r.denote, ev') ∧ Sound r ev') := by
  apply valueAt.mutual_induct
    (fun id ev => Sound r ev → (r.get? id).isSome →
      ∃ ev', valueAt id ev = .ok (r.denote id, ev') ∧ Sound r ev')
    (fun id refs ev => Sound r ev → (∀ d ∈ refs, d < id ∧ (r.get? d).isSome) →
      ∃ ev', inputsAt id refs ev = .ok (refs.map r.denote, ev') ∧ Sound r ev')
  case _ => -- a value remembered by this evaluation
    intro id ev x hfind hs _
    refine ⟨ev, ?_, hs⟩
    rw [valueAt, hfind, hs.known id x hfind]
  case _ => -- an empty place, which the invariant rules out
    intro id ev hfind hget hs hlive
    have h := hs.get?_map id
    rw [hget] at h
    obtain ⟨w, hw'⟩ := Registry.isSome_get?_iff.1 hlive
    simp [hw'] at h
  case _ => -- a constant, or a lazy variable with a fresh cache
    intro id ev hfind v hget x hready hs _
    have hx : x = r.denote id := (hs.caches.ready? hget hready).trans (hs.denote_eq id)
    refine ⟨ev.note id x, ?_, hs.note hx⟩
    rw [valueAt, hfind]
    simp only [hget, hready]
    rw [hx]
  case _ => -- nothing ready and no formula: no variable is so
    intro id ev hfind v hget hready hformula hs _
    have h := Variable.isSome_formula?_of_ready?_none hready
    simp [hformula] at h
  case _ => -- the inputs fail, which they cannot
    intro id ev hfind v hget hready f hformula e hinputs ih hs _
    obtain ⟨ev', h, -⟩ := ih hs (hs.refs_ok hw hget hformula)
    rw [hinputs] at h
    cases h
  case _ => -- the program runs on the meanings of the inputs
    intro id ev hfind v hget hready f hformula xs ev₁ hinputs ih hs _
    obtain ⟨ev₂, h, hs₂⟩ := ih hs (hs.refs_ok hw hget hformula)
    rw [hinputs] at h
    obtain ⟨rfl, rfl⟩ : xs = f.refs.map r.denote ∧ ev₁ = ev₂ := by simpa using h
    have hx := hs.denote_formula hw hget hformula
    refine ⟨_, ?_, hs₂.remember hx.symm⟩
    rw [valueAt, hfind]
    simp only [hget, hready, hformula, hinputs, ← hx]
  case _ => -- no references
    intro id ev hs _
    exact ⟨ev, by rw [inputsAt]; rfl, hs⟩
  case _ => -- the first reference fails, which it cannot
    intro id ev d ds hd e hvalue ih hs hrefs
    obtain ⟨ev', h, -⟩ := ih hs (hrefs d List.mem_cons_self).2
    rw [hvalue] at h
    cases h
  case _ => -- the other references fail, which they cannot
    intro id ev d ds hd x ev₁ hvalue e hrest ih₁ ih₂ hs hrefs
    obtain ⟨ev₂, h₂, hs₂⟩ := ih₁ hs (hrefs d List.mem_cons_self).2
    rw [hvalue] at h₂
    obtain ⟨rfl, rfl⟩ : x = r.denote d ∧ ev₁ = ev₂ := by simpa using h₂
    obtain ⟨ev₃, h₃, -⟩ := ih₂ hs₂ fun d' hd' => hrefs d' (List.mem_cons_of_mem d hd')
    rw [hrest] at h₃
    cases h₃
  case _ => -- the first reference, then the others from the evaluation it leaves
    intro id ev d ds hd x ev₁ hvalue ys ev₂ hrest ih₁ ih₂ hs hrefs
    obtain ⟨ev₃, h₃, hs₃⟩ := ih₁ hs (hrefs d List.mem_cons_self).2
    rw [hvalue] at h₃
    obtain ⟨rfl, rfl⟩ : x = r.denote d ∧ ev₁ = ev₃ := by simpa using h₃
    obtain ⟨ev₄, h₄, hs₄⟩ := ih₂ hs₃ fun d' hd' => hrefs d' (List.mem_cons_of_mem d hd')
    rw [hrest] at h₄
    obtain ⟨rfl, rfl⟩ : ys = ds.map r.denote ∧ ev₂ = ev₄ := by simpa using h₄
    refine ⟨ev₂, ?_, hs₄⟩
    rw [inputsAt]
    simp only [hd, if_true, hvalue, hrest, List.map_cons]
  case _ => -- a reference to a later place, which the invariant rules out
    intro id ev d ds hd hs hrefs
    exact absurd (hrefs d List.mem_cons_self).1 hd

end Recalc.Evaluation

namespace Recalc.Registry

open Evaluation

/-- Reading a live variable of a well-formed registry whose caches hold meanings returns its
meaning; the registry it leaves differs only in caches, which still hold meanings. -/
theorem value_sound {r : Registry} (hw : r.WellFormed) (hc : r.CachesAgree) {h : Handle}
    (hh : r.Live h) :
    ∃ r', r.value h = .ok (r.denote h.id, r') ∧ r'.forget = r.forget ∧ r'.CachesAgree := by
  obtain ⟨v, hv⟩ := isSome_get?_iff.1 hh.2
  obtain ⟨ev, hval, hs⟩ := (valueAt_sound hw).1 h.id _ (Sound.start hc) hh.2
  rw [value_of_get? hh.1 hv, hval]
  exact ⟨ev.registry, rfl, hs.forget_eq, hs.caches⟩

theorem snapshotOf_sound {r : Registry} (hw : r.WellFormed) (ids : List Nat)
    (ev ev' : Evaluation) (entries : List Snapshot.Entry) (hs : Sound r ev)
    (h : snapshotOf Evaluation.valueAt ids ev = .ok (entries, ev')) : Sound r ev' := by
  induction ids generalizing ev ev' entries with
  | nil =>
      simp only [snapshotOf, Except.ok.injEq, Prod.mk.injEq] at h
      rw [← h.2]
      exact hs
  | cons id ids ih =>
      unfold snapshotOf at h
      cases hget : ev.registry.get? id with
      | none => simp [hget] at h
      | some v =>
          have hlive : (r.get? id).isSome := by
            obtain ⟨w, hw', -⟩ := hs.get?_eq_some hget
            simp [hw']
          obtain ⟨ev₁, hval, hs₁⟩ := (valueAt_sound hw).1 id ev hs hlive
          cases hrest : snapshotOf Evaluation.valueAt ids ev₁ with
          | error e => simp [hget, hval, hrest, Except.map] at h
          | ok q =>
              obtain ⟨rest, ev₂⟩ := q
              simp only [hget, hval, hrest, Except.map, Except.ok.injEq, Prod.mk.injEq] at h
              obtain ⟨-, rfl⟩ := h
              exact ih ev₁ ev₂ rest hs₁ hrest

/-- What an assignment leaves at each place: a variable that reaches the constant loses its
cache, the constant holds the new value, and every other variable stays as it was. -/
theorem get?_setConstant {r r' : Registry} (hw : r.WellFormed) {h : Handle} {x : Float}
    (hs : r.setConstant h x = .ok r') (i : Nat) :
    (r.Reaches .reads i h.id ∧ r'.get? i = (r.get? i).map Variable.invalidate) ∨
    (i = h.id ∧ r'.get? i = (r.get? i).map fun v => { v with body := .constant x }) ∨
    (¬r.Reaches .reads i h.id ∧ i ≠ h.id ∧ r'.get? i = r.get? i) := by
  obtain ⟨v, c, -, hv, hvc, rfl⟩ := setConstant_eq_ok hs
  have hshape : SameShape r (r.modify h.id fun v => { v with body := .constant x }) :=
    sameShape_modify fun w hw' => by
      rw [hv, Option.some.injEq] at hw'
      subst hw'
      simp [Variable.formula?, hvc]
  have hwalk : i ∈ (r.modify h.id fun v => { v with body := .constant x }).walk h.id .readBy ↔
      r.Reaches .reads i h.id := by
    rw [mem_walk_iff (hshape.wellFormed hw), reaches_readBy_iff, hshape.reaches_iff]
  rw [get?_foldl_modify _ invalidate_invalidate]
  by_cases hi : r.Reaches .reads i h.id
  · have hne : h.id ≠ i := by
      rintro rfl
      exact not_reaches_self hw .reads h.id hi
    exact .inl ⟨hi, by rw [if_pos (hwalk.2 hi), get?_modify, if_neg hne]⟩
  · rw [if_neg (mt hwalk.1 hi), get?_modify]
    by_cases hid : h.id = i
    · exact .inr (.inl ⟨hid.symm, if_pos hid⟩)
    · exact .inr (.inr ⟨hi, Ne.symm hid, if_neg hid⟩)

/-! ## Every call keeps the caches right -/

namespace CachesAgree

variable {r r' : Registry}

theorem value (hw : r.WellFormed) (hc : r.CachesAgree) {h : Handle} {x : Float}
    (hs : r.value h = .ok (x, r')) : r'.CachesAgree := by
  obtain ⟨ev, -, hl, hval, rfl⟩ := value_eq_ok hs
  obtain ⟨ev', hval', hs'⟩ := (valueAt_sound hw).1 h.id _ (Sound.start hc) hl
  rw [hval] at hval'
  obtain ⟨-, rfl⟩ : x = r.denote h.id ∧ ev = ev' := by simpa using hval'
  exact hs'.caches

theorem snapshot (hw : r.WellFormed) (hc : r.CachesAgree) {entries : List Snapshot.Entry}
    (hs : r.snapshot = .ok (entries, r')) : r'.CachesAgree := by
  obtain ⟨ev, hsnap, rfl⟩ := snapshot_eq_ok hs
  exact (snapshotOf_sound hw _ _ _ _ (Sound.start hc) hsnap).caches

/-- A change keeps caches right when every fresh cache it leaves was there before, over
variables that all kept their value up to caches. -/
theorem of_frame (hc : r.CachesAgree)
    (h : ∀ i w x, r'.get? i = some w → w.cache? = some (.fresh x) →
      r.get? i = some w ∧ ∀ j, (j = i ∨ r.Reaches .reads i j) →
        (r'.get? j).map Variable.invalidate = (r.get? j).map Variable.invalidate) :
    r'.CachesAgree := by
  intro i w x hw' hx
  obtain ⟨hw, hcone⟩ := h i w x hw' hx
  rw [hc i w x hw hx]
  exact (denote_congr i hcone).symm

theorem push (hw : r.WellFormed) (hc : r.CachesAgree) {v : Variable}
    (hv : ∀ x, v.cache? ≠ some (.fresh x)) :
    ({ r with slots := r.slots.push (some v) } : Registry).CachesAgree := by
  refine hc.of_frame fun i w x hw' hx => ?_
  rcases get?_push_eq_some.1 hw' with ⟨rfl, rfl⟩ | hold
  · exact absurd hx (hv x)
  · have hlt := lt_size_of_get? hold
    refine ⟨hold, fun j hj => ?_⟩
    have hj : j < r.slots.size := by
      rcases hj with rfl | hj
      · exact hlt
      · exact Nat.lt_trans (lt_of_reaches_reads hw hj) hlt
    simp [get?_push, Nat.ne_of_lt hj]

/-- Assigning a constant: every variable that reaches it has its cache dropped, and every other
one reaches only variables that kept their value. -/
theorem setConstant (hw : r.WellFormed) (hc : r.CachesAgree) {h : Handle} {x : Float}
    (hs : r.setConstant h x = .ok r') : r'.CachesAgree := by
  refine hc.of_frame fun i w y hw' hy => ?_
  rcases get?_setConstant hw hs i with ⟨-, hi⟩ | ⟨-, hi⟩ | ⟨hreach, hne, hi⟩
  · rw [hi] at hw'
    obtain ⟨u, -, rfl⟩ := Option.map_eq_some_iff.1 hw'
    exact absurd hy (Variable.cache?_invalidate u y)
  · rw [hi] at hw'
    obtain ⟨u, -, rfl⟩ := Option.map_eq_some_iff.1 hw'
    simp [Variable.cache?] at hy
  · refine ⟨hi.symm.trans hw', fun j hj => ?_⟩
    rcases get?_setConstant hw hs j with ⟨-, hj'⟩ | ⟨rfl, -⟩ | ⟨-, -, hj'⟩
    · simp [hj', Option.map_map, Function.comp_def]
    · -- `i` does not reach the constant, so the constant is not behind it
      rcases hj with rfl | hj
      · exact absurd rfl hne
      · exact absurd hj hreach
    · rw [hj']

theorem remove (hc : r.CachesAgree) {h : Handle} (hs : r.remove h = .ok r') : r'.CachesAgree := by
  obtain ⟨-, -, hreaders, rfl⟩ := remove_eq_ok hs
  refine hc.of_frame fun i w y hw' hy => ?_
  obtain ⟨hne, hold⟩ := get?_set_none_eq_some.1 hw'
  refine ⟨hold, fun j hj => ?_⟩
  have hj : h.id ≠ j := by
    rcases hj with rfl | hj
    · exact hne
    · rintro rfl
      obtain ⟨k, hk, hkr⟩ := hj.exists_edge_last
      have : k ∈ r.readersOf h.id := mem_readersOf.2 ⟨hk, hkr⟩
      simp [hreaders] at this
  rw [get?_set_none, if_neg hj]

end CachesAgree

theorem Step.cachesAgree {r r' : Registry} (hs : Step r r') (hw : r.WellFormed)
    (hc : r.CachesAgree) : r'.CachesAgree := by
  cases hs with
  | addConstant name x id h =>
      obtain ⟨-, -, rfl⟩ := register_eq_ok h
      exact hc.push hw (by simp [Variable.cache?])
  | addDelegate name f id _ h =>
      obtain ⟨-, -, rfl⟩ := register_eq_ok h
      exact hc.push hw (by simp [Variable.cache?])
  | addLazy name f id _ h =>
      obtain ⟨-, -, rfl⟩ := register_eq_ok h
      exact hc.push hw (by simp [Variable.cache?])
  | setConstant h x hs => exact hc.setConstant hw hs
  | remove h hs => exact hc.remove hs
  | value h x hs => exact hc.value hw hs
  | snapshot entries hs => exact hc.snapshot hw hs

/-- In every reachable registry each fresh cache holds the meaning of its variable. -/
theorem Reachable.cachesAgree {r : Registry} (h : r.Reachable) : r.CachesAgree := by
  induction h with
  | empty ident =>
      intro i v x hv
      simp [get?, Registry.empty] at hv
  | step hr hs ih => exact hs.cachesAgree hr.wellFormed ih

/-- Reading a live variable of a reachable registry returns its meaning, and changes nothing
but caches. -/
theorem value_eq_denote {r : Registry} (hr : r.Reachable) {h : Handle} (hh : r.Live h) :
    ∃ r', r.value h = .ok (r.denote h.id, r') ∧ r'.forget = r.forget := by
  obtain ⟨r', hv, hf, -⟩ := value_sound hr.wellFormed hr.cachesAgree hh
  exact ⟨r', hv, hf⟩

theorem value_map_fst {r : Registry} (hr : r.Reachable) (h : Handle) :
    (r.value h).map Prod.fst = (r.resolve h).map fun p => r.denote p.1 := by
  cases hres : r.resolve h with
  | error e => simp [value, hres, bind, Except.bind, Except.map]
  | ok p =>
      obtain ⟨id, v⟩ := p
      obtain ⟨hh, rfl, hv⟩ := resolve_eq_ok.1 hres
      obtain ⟨r', hval, -⟩ := value_eq_denote hr ⟨hh, by simp [hv]⟩
      rw [hval]
      rfl

theorem value_map_fst_congr {r₁ r₂ : Registry} (hr₁ : r₁.Reachable) (hr₂ : r₂.Reachable)
    (h : r₁.forget = r₂.forget) (hd : Handle) :
    (r₁.value hd).map Prod.fst = (r₂.value hd).map Prod.fst := by
  have hres := resolve_forget r₁ hd
  rw [h, resolve_forget] at hres
  rw [value_map_fst hr₁, value_map_fst hr₂]
  cases h₁ : r₁.resolve hd <;> cases h₂ : r₂.resolve hd <;> simp_all [Except.map]
  exact denote_eq_of_forget_eq h _

/-! ## Sequences of calls -/

/-- The registry a call leaves: the one it returns, or the one it was given when it fails. -/
def settle (r : Registry) : Except Error Registry → Registry
  | .ok r' => r'
  | .error _ => r

theorem forget_settle_congr {r₁ r₂ : Registry} (h : r₁.forget = r₂.forget)
    {e₁ e₂ : Except Error Registry} (he : e₁.map forget = e₂.map forget) :
    (r₁.settle e₁).forget = (r₂.settle e₂).forget := by
  cases e₁ <;> cases e₂ <;> simp_all [settle, Except.map]

theorem Reachable.settle {r : Registry} (hr : r.Reachable) {e : Except Error Registry}
    (he : ∀ r', e = .ok r' → Step r r') : (r.settle e).Reachable := by
  cases e with
  | error err => exact hr
  | ok r' => exact hr.step (he r' rfl)

/-- A call of the registry's interface that may change it; lookups only read a registry. -/
inductive Call where
  | addConstant (name : String) (x : Float)
  | addDelegate (name : String) (f : BoundFormula)
  | addLazy (name : String) (f : BoundFormula)
  | setConstant (h : Handle) (x : Float)
  | remove (h : Handle)
  | value (h : Handle)
  | snapshot

namespace Call

/-- The registry after the call; a call that fails leaves it as it was. -/
def apply : Call → Registry → Registry
  | .addConstant name x, r => r.settle ((r.addConstant name x).map Prod.snd)
  | .addDelegate name f, r => r.settle ((r.addDelegate name f).map Prod.snd)
  | .addLazy name f, r => r.settle ((r.addLazy name f).map Prod.snd)
  | .setConstant h x, r => r.settle (r.setConstant h x)
  | .remove h, r => r.settle (r.remove h)
  | .value h, r => r.settle ((r.value h).map Prod.snd)
  | .snapshot, r => r.settle (r.snapshot.map Prod.snd)

def isRead : Call → Bool
  | .value _ | .snapshot => true
  | _ => false

/-- A registered formula is one that compiling produced. -/
def Valid : Call → Prop
  | .addDelegate _ f | .addLazy _ f => f.Compiled
  | _ => True

def run (calls : List Call) (r : Registry) : Registry :=
  calls.foldl (fun s c => c.apply s) r

theorem map_snd_eq_ok {α : Type} {e : Except Error (α × Registry)} {r' : Registry}
    (h : e.map Prod.snd = .ok r') : ∃ a, e = .ok (a, r') := by
  cases e with
  | error err => simp [Except.map] at h
  | ok p =>
      simp only [Except.map, Except.ok.injEq] at h
      exact ⟨p.1, by rw [← h]⟩

theorem reachable_apply {r : Registry} (hr : r.Reachable) {c : Call} (hc : c.Valid) :
    (c.apply r).Reachable := by
  cases c with
  | addConstant name x =>
      refine hr.settle fun r' h => ?_
      obtain ⟨id, h⟩ := map_snd_eq_ok h
      exact .addConstant name x id h
  | addDelegate name f =>
      refine hr.settle fun r' h => ?_
      obtain ⟨id, h⟩ := map_snd_eq_ok h
      exact .addDelegate name f id hc h
  | addLazy name f =>
      refine hr.settle fun r' h => ?_
      obtain ⟨id, h⟩ := map_snd_eq_ok h
      exact .addLazy name f id hc h
  | setConstant h x => exact hr.settle fun r' hs => .setConstant h x hs
  | remove h => exact hr.settle fun r' hs => .remove h hs
  | value h =>
      refine hr.settle fun r' hs => ?_
      obtain ⟨x, hs⟩ := map_snd_eq_ok hs
      exact .value h x hs
  | snapshot =>
      refine hr.settle fun r' hs => ?_
      obtain ⟨entries, hs⟩ := map_snd_eq_ok hs
      exact .snapshot entries hs

theorem reachable_run {r : Registry} (hr : r.Reachable) {calls : List Call}
    (hc : ∀ c ∈ calls, c.Valid) : (run calls r).Reachable := by
  induction calls generalizing r with
  | nil => exact hr
  | cons c cs ih =>
      exact ih (reachable_apply hr (hc c List.mem_cons_self))
        fun c' hc' => hc c' (List.mem_cons_of_mem c hc')

theorem forget_apply_of_isRead {c : Call} (hc : c.isRead) (r : Registry) :
    (c.apply r).forget = r.forget := by
  cases c with
  | value h =>
      cases hv : r.value h with
      | error e => simp [apply, hv, Except.map, settle]
      | ok p =>
          obtain ⟨x, r'⟩ := p
          simp only [apply, hv, Except.map, settle]
          exact forget_value hv
  | snapshot =>
      cases hs : r.snapshot with
      | error e => simp [apply, hs, Except.map, settle]
      | ok p =>
          obtain ⟨entries, r'⟩ := p
          simp only [apply, hs, Except.map, settle]
          exact forget_snapshot hs
  | _ => simp [isRead] at hc

theorem forget_map_register {r₁ r₂ : Registry} (h : r₁.forget = r₂.forget) (v : Variable) :
    ((r₁.register v).map Prod.snd).map forget = ((r₂.register v).map Prod.snd).map forget := by
  have h₁ := register_forget r₁ v
  rw [h, register_forget] at h₁
  cases e₁ : r₁.register v <;> cases e₂ : r₂.register v <;> simp_all [Except.map]

/-- A call on two registries that differ only in caches leaves two that differ only in
caches. -/
theorem forget_apply_congr {r₁ r₂ : Registry} (h : r₁.forget = r₂.forget) (c : Call) :
    (c.apply r₁).forget = (c.apply r₂).forget := by
  cases c with
  | addConstant name x => exact forget_settle_congr h (forget_map_register h _)
  | addDelegate name f => exact forget_settle_congr h (forget_map_register h _)
  | addLazy name f => exact forget_settle_congr h (forget_map_register h _)
  | setConstant hd x =>
      refine forget_settle_congr h ?_
      rw [← setConstant_forget, h, setConstant_forget]
  | remove hd =>
      refine forget_settle_congr h ?_
      rw [← remove_forget, h, remove_forget]
  | value hd => rw [forget_apply_of_isRead rfl, forget_apply_of_isRead rfl, h]
  | snapshot => rw [forget_apply_of_isRead rfl, forget_apply_of_isRead rfl, h]

theorem forget_run_congr {r₁ r₂ : Registry} (h : r₁.forget = r₂.forget) (calls : List Call) :
    (run calls r₁).forget = (run calls r₂).forget := by
  induction calls generalizing r₁ r₂ with
  | nil => exact h
  | cons c cs ih => exact ih (forget_apply_congr h c)

/-- Taking the reads out of a sequence of calls changes nothing but caches. -/
theorem forget_run_filter (calls : List Call) (r : Registry) :
    (run calls r).forget = (run (calls.filter fun c => !c.isRead) r).forget := by
  induction calls generalizing r with
  | nil => rfl
  | cons c cs ih =>
      simp only [run, List.foldl_cons, List.filter_cons] at ih ⊢
      cases hc : c.isRead with
      | true =>
          simp only [Bool.not_true, Bool.false_eq_true, if_false]
          rw [ih]
          exact forget_run_congr (forget_apply_of_isRead hc r) _
      | false =>
          simp only [Bool.not_false, if_true, List.foldl_cons]
          exact ih _

end Call

/-! ## Reads are faithful -/

/-- What reads of a registry promise. The meaning of a constant is its value, and that of a
formula its program run on the meanings of what it reads, in order; every fresh cache holds its
variable's meaning; reading a live variable returns its meaning and changes nothing but caches;
and whichever reads are added to a sequence of calls or taken out of it, every read after the
sequence returns the same. -/
structure ReadsFaithful (r : Registry) : Prop where
  denote_constant : ∀ i v x, r.get? i = some v → v.body = .constant x → r.denote i = x
  denote_formula : ∀ i v f, r.get? i = some v → v.formula? = some f →
    r.denote i = f.program.run (f.refs.map r.denote)
  caches : r.CachesAgree
  value : ∀ h, r.Live h → ∃ r', r.value h = .ok (r.denote h.id, r') ∧ r'.forget = r.forget
  later : ∀ calls₁ calls₂ : List Call, (∀ c ∈ calls₁ ++ calls₂, c.Valid) →
    calls₁.filter (fun c => !c.isRead) = calls₂.filter (fun c => !c.isRead) →
    ∀ h, ((Call.run calls₁ r).value h).map Prod.fst = ((Call.run calls₂ r).value h).map Prod.fst

theorem Reachable.readsFaithful {r : Registry} (hr : r.Reachable) : r.ReadsFaithful where
  denote_constant _ _ _ hv hx := denote_of_constant hv hx
  denote_formula _ _ _ hv hf := denote_of_formula_of_wellFormed hr.wellFormed hv hf
  caches := hr.cachesAgree
  value _ hh := value_eq_denote hr hh
  later calls₁ calls₂ hvalid hreads h := by
    have hr₁ := Call.reachable_run hr fun c hc => hvalid c (List.mem_append_left calls₂ hc)
    have hr₂ := Call.reachable_run hr fun c hc => hvalid c (List.mem_append_right calls₁ hc)
    -- both runs end where the run without reads ends, up to caches
    have hforget : (Call.run calls₁ r).forget = (Call.run calls₂ r).forget := by
      rw [Call.forget_run_filter, hreads, ← Call.forget_run_filter]
    exact value_map_fst_congr hr₁ hr₂ hforget h

end Recalc.Registry
