import Recalc.Proofs.Registration

/-! # Behind a fresh cache no lazy cache is stale, so a read fills exactly the stale caches it computes -/

namespace Recalc.Variable

theorem kind_of_cache? {v : Variable} {c : Cache} (h : v.cache? = some c) : v.kind = .lazy := by
  rcases v with ⟨name, body⟩
  cases body <;> simp_all [cache?, kind]

theorem exists_fresh {v : Variable} (hk : v.kind = .lazy) (hs : v.cache? ≠ some .stale) :
    ∃ x, v.cache? = some (.fresh x) := by
  rcases v with ⟨name, body⟩
  cases body with
  | constant c => simp [kind] at hk
  | delegate f => simp [kind] at hk
  | lazy f c =>
      cases c with
      | stale => simp [cache?] at hs
      | fresh x => exact ⟨x, rfl⟩

/-- A variable with nothing ready and no stale cache is a delegate, which keeps no value. -/
theorem remember_of_ready?_none {v : Variable} (hr : v.ready? = none)
    (hs : v.cache? ≠ some .stale) (x : Float) : v.remember x = v := by
  rcases v with ⟨name, body⟩
  cases body with
  | constant c => simp [ready?] at hr
  | delegate f => rfl
  | lazy f c =>
      cases c with
      | stale => simp [cache?] at hs
      | fresh y => simp [ready?] at hr

end Recalc.Variable

namespace Recalc.Registry

/-! ## What a variable reads along a chain -/

theorem Reaches.trans {r : Registry} {dir : Direction} {i j k : Nat} (hij : r.Reaches dir i j)
    (hjk : r.Reaches dir j k) : r.Reaches dir i k := by
  induction hjk with
  | edge e => exact .step hij e
  | step _ e ih => exact .step ih e

theorem Reaches.exists_edge_head {r : Registry} {dir : Direction} {i j : Nat}
    (h : r.Reaches dir i j) : ∃ d, r.Edge dir i d ∧ (j = d ∨ r.Reaches dir d j) := by
  induction h with
  | edge e => exact ⟨_, e, .inl rfl⟩
  | step _ e ih =>
      obtain ⟨d, hd, hdj⟩ := ih
      rcases hdj with rfl | hdj
      · exact ⟨_, hd, .inr (.edge e)⟩
      · exact ⟨d, hd, .inr (.step hdj e)⟩

theorem Reaches.mono {r r' : Registry} {dir : Direction} (h : ∀ a b, r'.Edge dir a b → r.Edge dir a b)
    {i j : Nat} (hij : r'.Reaches dir i j) : r.Reaches dir i j := by
  induction hij with
  | edge e => exact .edge (h _ _ e)
  | step _ e ih => exact .step ih (h _ _ e)

/-- `j` is `i` or a variable that `i` reads along a chain: what a read of `i` may visit. -/
def Upstream (r : Registry) (i j : Nat) : Prop := j = i ∨ r.Reaches .reads i j

theorem upstream_self (r : Registry) (i : Nat) : r.Upstream i i := .inl rfl

theorem Upstream.trans {r : Registry} {i j k : Nat} (hij : r.Upstream i j)
    (hjk : r.Upstream j k) : r.Upstream i k := by
  rcases hij with rfl | hij
  · exact hjk
  · rcases hjk with rfl | hjk
    · exact .inr hij
    · exact .inr (hij.trans hjk)

theorem Upstream.le {r : Registry} (hw : r.WellFormed) {i j : Nat} (h : r.Upstream i j) : j ≤ i := by
  rcases h with rfl | h
  · exact Nat.le_refl j
  · exact Nat.le_of_lt (lt_of_reaches_reads hw h)

theorem upstream_iff {r : Registry} {i j : Nat} {v : Variable} (hv : r.get? i = some v) :
    r.Upstream i j ↔ j = i ∨ ∃ d ∈ v.refs, r.Upstream d j := by
  constructor
  · rintro (rfl | h)
    · exact .inl rfl
    · obtain ⟨d, ⟨-, hd⟩, hdj⟩ := h.exists_edge_head
      rw [refsOf_of_get? hv] at hd
      exact .inr ⟨d, hd, hdj⟩
  · rintro (rfl | ⟨d, hd, hdj⟩)
    · exact upstream_self r j
    · have hedge : r.Edge .reads i d := ⟨by simp [hv], by rw [refsOf_of_get? hv]; exact hd⟩
      rcases hdj with rfl | hdj
      · exact .inr (.edge hedge)
      · exact .inr (hdj.of_edge_reaches hedge)

theorem SameShape.upstream_iff {r r' : Registry} (h : SameShape r r') {i j : Nat} :
    r'.Upstream i j ↔ r.Upstream i j := by
  rw [Upstream, Upstream, h.reaches_iff]

/-! ## Stale caches and fills -/

/-- The place holds a lazy variable whose cache is stale. -/
def Stale (r : Registry) (i : Nat) : Prop :=
  ∃ v, r.get? i = some v ∧ v.cache? = some .stale

/-- `r'` is `r` with the stale cache of every variable in `S` filled with the meaning of its
variable, and nothing else changed: no other cache, no constant, name, formula or place. -/
structure Fills (r : Registry) (S : Nat → Prop) (r' : Registry) : Prop where
  ident_eq : r'.ident = r.ident
  size_eq : r'.slots.size = r.slots.size
  fills : ∀ i v, S i → r.get? i = some v → v.cache? = some .stale →
    r'.get? i = some (v.remember (r.denote i))
  keeps : ∀ i, ¬(S i ∧ r.Stale i) → r'.get? i = r.get? i

namespace Fills

variable {r r' r'' : Registry} {S T : Nat → Prop}

theorem refl (h : ∀ i, S i → ¬r.Stale i) : r.Fills S r :=
  ⟨rfl, rfl, fun i v hi hv hs => absurd ⟨v, hv, hs⟩ (h i hi), fun _ _ => rfl⟩

theorem get?_map_invalidate (h : r.Fills S r') (i : Nat) :
    (r'.get? i).map Variable.invalidate = (r.get? i).map Variable.invalidate := by
  by_cases hi : S i ∧ r.Stale i
  · obtain ⟨hS, v, hv, hs⟩ := hi
    rw [h.fills i v hS hv hs, hv]
    simp
  · rw [h.keeps i hi]

theorem denote_eq (h : r.Fills S r') (i : Nat) : r'.denote i = r.denote i :=
  denote_congr i fun j _ => h.get?_map_invalidate j

theorem sameShape (h : r.Fills S r') : SameShape r r' := by
  refine ⟨h.ident_eq, h.size_eq, fun i => ?_⟩
  have := congrArg (Option.map fun v => (v.name, v.formula?)) (h.get?_map_invalidate i)
  simpa [Option.map_map, Function.comp_def] using this

theorem stale (h : r.Fills S r') {i : Nat} (hi : r'.Stale i) : r.Stale i ∧ ¬S i := by
  obtain ⟨w, hw, hws⟩ := hi
  have hkeep : ¬(S i ∧ r.Stale i) := by
    rintro ⟨hS, v, hv, hs⟩
    rw [h.fills i v hS hv hs, Option.some.injEq] at hw
    subst hw
    rw [Variable.cache?_remember_of_lazy (Variable.kind_of_cache? hs)] at hws
    cases hws
  have hri : r.Stale i := ⟨w, (h.keeps i hkeep).symm.trans hw, hws⟩
  exact ⟨hri, fun hS => hkeep ⟨hS, hri⟩⟩

theorem fresh (h : r.Fills S r') {j : Nat} (hj : S j) {w : Variable} (hw : r'.get? j = some w)
    (hk : w.kind = .lazy) : ∃ y, w.cache? = some (.fresh y) :=
  Variable.exists_fresh hk fun hs => (h.stale ⟨w, hw, hs⟩).2 hj

theorem congr (h : r.Fills S r') (hST : ∀ i, r.Stale i → (S i ↔ T i)) : r.Fills T r' where
  ident_eq := h.ident_eq
  size_eq := h.size_eq
  fills i v hT hv hs := h.fills i v ((hST i ⟨v, hv, hs⟩).2 hT) hv hs
  keeps i hi := h.keeps i fun hi' => hi ⟨(hST i hi'.2).1 hi'.1, hi'.2⟩

theorem trans (h : r.Fills S r') (h' : r'.Fills T r'') : r.Fills (fun i => S i ∨ T i) r'' where
  ident_eq := h'.ident_eq.trans h.ident_eq
  size_eq := h'.size_eq.trans h.size_eq
  fills i v hST hv hs := by
    by_cases hS : S i
    · -- filled by the first, the cache is fresh for the second
      rw [h'.keeps i fun hi' => (h.stale hi'.2).2 hS, h.fills i v hS hv hs]
    · have h₁ : r'.get? i = some v := (h.keeps i fun hi => hS hi.1).trans hv
      rw [h'.fills i v (hST.resolve_left hS) h₁ hs, h.denote_eq]
  keeps i hi := by
    have h₁ : r'.get? i = r.get? i := h.keeps i fun hi' => hi ⟨.inl hi'.1, hi'.2⟩
    rw [h'.keeps i fun hi' => hi ⟨.inr hi'.1, (h.stale hi'.2).1⟩, h₁]

theorem cons {U : Nat → Nat → Prop} {d : Nat} {ds : List Nat} (h : r.Fills (U d) r')
    (h' : r'.Fills (fun j => ∃ d' ∈ ds, U d' j) r'') :
    r.Fills (fun j => ∃ d' ∈ d :: ds, U d' j) r'' :=
  (h.trans h').congr fun j _ => by simp only [List.mem_cons, exists_eq_or_imp]

end Fills

theorem fills_modify_remember {r : Registry} {id : Nat} {v : Variable} (hv : r.get? id = some v)
    (hr : v.ready? = none) : r.Fills (· = id) (r.modify id (·.remember (r.denote id))) where
  ident_eq := rfl
  size_eq := by simp [modify]
  fills i w hi hw _ := by
    subst hi
    rw [get?_modify, if_pos rfl, hw]
    rfl
  keeps i hi := by
    rw [get?_modify]
    split
    · next hid =>
        subst hid
        rw [hv, Option.map_some, Variable.remember_of_ready?_none hr fun hs => hi ⟨rfl, v, hv, hs⟩]
    · rfl

/-! ## Freshness is closed under reading -/

/-- Behind a fresh cache every lazy cache is fresh: a lazy variable with a fresh cache reads, along
every chain, only lazy variables with fresh caches. -/
def FreshClosed (r : Registry) : Prop :=
  ∀ i v x, r.get? i = some v → v.cache? = some (.fresh x) →
    ∀ j w, r.Reaches .reads i j → r.get? j = some w → w.kind = .lazy →
      ∃ y, w.cache? = some (.fresh y)

namespace FreshClosed

variable {r r' : Registry}

theorem not_stale (hf : r.FreshClosed) {i j : Nat} {v : Variable} {x : Float}
    (hv : r.get? i = some v) (hx : v.cache? = some (.fresh x)) (hij : r.Reaches .reads i j) :
    ¬r.Stale j := by
  rintro ⟨w, hw, hs⟩
  obtain ⟨y, hy⟩ := hf i v x hv hx j w hij hw (Variable.kind_of_cache? hs)
  rw [hs] at hy
  cases hy

/-- Behind a value ready no cache is stale: a constant reads nothing, and behind a fresh cache
every cache is fresh. -/
theorem not_stale_of_ready? (hf : r.FreshClosed) {id : Nat} {v : Variable} {x : Float}
    (hv : r.get? id = some v) (hx : v.ready? = some x) : ∀ j, r.Upstream id j → ¬r.Stale j := by
  rintro j hj ⟨w, hw, hs⟩
  rcases v with ⟨name, body⟩
  cases body with
  | constant c =>
      rcases hj with rfl | hj
      · rw [hv, Option.some.injEq] at hw
        subst hw
        simp [Variable.cache?] at hs
      · obtain ⟨d, ⟨-, hd⟩, -⟩ := hj.exists_edge_head
        simp [refsOf_of_get? hv, Variable.refs, Variable.formula?] at hd
  | delegate f => simp [Variable.ready?] at hx
  | lazy f c =>
      cases c with
      | stale => simp [Variable.ready?] at hx
      | fresh y =>
          rcases hj with rfl | hj
          · rw [hv, Option.some.injEq] at hw
            subst hw
            simp [Variable.cache?] at hs
          · exact hf.not_stale hv rfl hj ⟨w, hw, hs⟩

theorem of_fills (hf : r.FreshClosed) {S : Nat → Prop} (h : r.Fills S r')
    (hS : ∀ i j, S i → r.Reaches .reads i j → S j) : r'.FreshClosed := by
  intro i v x hv hx j w hij hw hk
  have hij' := h.sameShape.reaches_iff.1 hij
  refine Variable.exists_fresh hk fun hs => ?_
  obtain ⟨hstale, hj⟩ := h.stale ⟨w, hw, hs⟩
  by_cases hi : S i ∧ r.Stale i
  · exact hj (hS i j hi.1 hij')
  · rw [h.keeps i hi] at hv
    exact hf.not_stale hv hx hij' hstale

theorem of_frame (hf : r.FreshClosed)
    (h : ∀ i v x, r'.get? i = some v → v.cache? = some (.fresh x) → r.get? i = some v ∧
      ∀ j w, r'.Reaches .reads i j → r'.get? j = some w → w.kind = .lazy →
        r.Reaches .reads i j ∧ r.get? j = some w) : r'.FreshClosed := by
  intro i v x hv hx j w hij hw hk
  obtain ⟨hv', hcone⟩ := h i v x hv hx
  obtain ⟨hij', hw'⟩ := hcone j w hij hw hk
  exact hf i v x hv' hx j w hij' hw' hk

theorem of_sub (hf : r.FreshClosed) (hsub : ∀ i v, r'.get? i = some v → r.get? i = some v) :
    r'.FreshClosed := by
  have hedge : ∀ a b, r'.Edge .reads a b → r.Edge .reads a b := by
    rintro a b ⟨ha, hb⟩
    obtain ⟨u, hu⟩ := isSome_get?_iff.1 ha
    rw [refsOf_of_get? hu] at hb
    exact ⟨by simp [hsub a u hu], by rw [refsOf_of_get? (hsub a u hu)]; exact hb⟩
  exact hf.of_frame fun i v x hv _ =>
    ⟨hsub i v hv, fun j w hij hw _ => ⟨hij.mono hedge, hsub j w hw⟩⟩

end FreshClosed

/-! ## Every call keeps freshness closed -/

theorem reaches_push {r : Registry} (hw : r.WellFormed) (v : Variable) {i j : Nat}
    (hi : i < r.slots.size)
    (h : ({ r with slots := r.slots.push (some v) } : Registry).Reaches .reads i j) :
    r.Reaches .reads i j := by
  have edge : ∀ {a b}, a < r.slots.size →
      ({ r with slots := r.slots.push (some v) } : Registry).Edge .reads a b → r.Edge .reads a b := by
    rintro a b ha ⟨hlive, hb⟩
    rw [get?_push, if_neg (Nat.ne_of_lt ha)] at hlive
    rw [refsOf_push, if_neg (Nat.ne_of_lt ha)] at hb
    exact ⟨hlive, hb⟩
  induction h with
  | edge e => exact .edge (edge hi e)
  | step _ e ih =>
      -- the chain so far stays below its start
      exact .step ih (edge (Nat.lt_trans (lt_of_reaches_reads hw ih) hi) e)

theorem FreshClosed.push {r : Registry} (hw : r.WellFormed) (hf : r.FreshClosed) {v : Variable}
    (hv : ∀ x, v.cache? ≠ some (.fresh x)) :
    ({ r with slots := r.slots.push (some v) } : Registry).FreshClosed := by
  refine hf.of_frame fun i u x hu hx => ?_
  rcases get?_push_eq_some.1 hu with ⟨rfl, rfl⟩ | hold
  · exact absurd hx (hv x)
  · have hi := lt_size_of_get? hold
    refine ⟨hold, fun j w hij hw' _ => ?_⟩
    have hij' := reaches_push hw v hi hij
    have hj : j < r.slots.size := Nat.lt_trans (lt_of_reaches_reads hw hij') hi
    rw [get?_push, if_neg (Nat.ne_of_lt hj)] at hw'
    exact ⟨hij', hw'⟩

/-- Assigning a constant drops the cache of every variable that reaches it; a fresh cache that
stays reads along its chains only variables that do not reach the constant, which stay too. -/
theorem FreshClosed.setConstant {r r' : Registry} (hw : r.WellFormed) (hf : r.FreshClosed)
    {h : Handle} {x : Float} (hs : r.setConstant h x = .ok r') : r'.FreshClosed := by
  have hshape := sameShape_setConstant hs
  refine hf.of_frame fun i u y hu hy => ?_
  rcases get?_setConstant hw hs i with ⟨-, hi⟩ | ⟨-, hi⟩ | ⟨hreach, -, hi⟩
  · rw [hi] at hu
    obtain ⟨u', -, rfl⟩ := Option.map_eq_some_iff.1 hu
    exact absurd hy (Variable.cache?_invalidate u' y)
  · rw [hi] at hu
    obtain ⟨u', -, rfl⟩ := Option.map_eq_some_iff.1 hu
    simp [Variable.cache?] at hy
  · refine ⟨hi.symm.trans hu, fun j w hij hw' hk => ?_⟩
    have hij' := hshape.reaches_iff.1 hij
    refine ⟨hij', ?_⟩
    rcases get?_setConstant hw hs j with ⟨hj, -⟩ | ⟨-, hj⟩ | ⟨-, -, hj⟩
    · -- what `i` reads does not reach the constant, since `i` does not
      exact absurd (hij'.trans hj) hreach
    · rw [hj] at hw'
      obtain ⟨w', -, rfl⟩ := Option.map_eq_some_iff.1 hw'
      simp [Variable.kind] at hk
    · exact hj.symm.trans hw'

theorem FreshClosed.remove {r r' : Registry} (hf : r.FreshClosed) {h : Handle}
    (hs : r.remove h = .ok r') : r'.FreshClosed := by
  obtain ⟨-, -, -, rfl⟩ := remove_eq_ok hs
  exact hf.of_sub fun i v hv => (get?_set_none_eq_some.1 hv).2

end Recalc.Registry

/-! ## A read fills what it visits -/

namespace Recalc.Evaluation

open Registry

/-- What an evaluation of `r` keeps besides soundness: behind a fresh cache of its registry every
lazy cache is fresh, and behind a variable it remembers no cache is stale. -/
structure Settled (r : Registry) (ev : Evaluation) : Prop where
  fresh_closed : ev.registry.FreshClosed
  known : ∀ i, (ev.find? i).isSome → ∀ j, r.Upstream i j → ¬ev.registry.Stale j

namespace Settled

variable {r : Registry} {ev : Evaluation}

theorem start (hf : r.FreshClosed) : Settled r { registry := r } :=
  ⟨hf, fun i hi => by simp [find?] at hi⟩

theorem note (hs : Settled r ev) {id : Nat} {x : Float}
    (hid : ∀ j, r.Upstream id j → ¬ev.registry.Stale j) : Settled r (ev.note id x) := by
  refine ⟨hs.fresh_closed, fun i hi => ?_⟩
  rw [find?_note] at hi
  by_cases hie : id = i
  · subst hie
    exact hid
  · rw [if_neg hie] at hi
    exact hs.known i hi

theorem fill (hs : Settled r ev) {S : Nat → Prop} {r' : Registry} (h : ev.registry.Fills S r')
    (hf : r'.FreshClosed) : Settled r { ev with registry := r' } :=
  ⟨hf, fun i hi j hj hst => hs.known i hi j hj (h.stale hst).1⟩

end Settled

/-- A read of a variable fills exactly the stale caches upstream of it, and a read of the
references of a formula those upstream of any of them; both keep the evaluation sound and
settled. -/
theorem valueAt_fills_upstream {r : Registry} (hw : r.WellFormed) :
    (∀ id ev x ev', valueAt id ev = .ok (x, ev') → Sound r ev → Settled r ev →
      ev.registry.Fills (r.Upstream id) ev'.registry ∧ Sound r ev' ∧ Settled r ev') ∧
    (∀ id refs ev xs ev', inputsAt id refs ev = .ok (xs, ev') → Sound r ev → Settled r ev →
      ev.registry.Fills (fun j => ∃ d ∈ refs, r.Upstream d j) ev'.registry ∧
        Sound r ev' ∧ Settled r ev') := by
  apply valueAt_ok_induct
    (fun id ev _ ev' => Sound r ev → Settled r ev →
      ev.registry.Fills (r.Upstream id) ev'.registry ∧ Sound r ev' ∧ Settled r ev')
    (fun _ refs ev _ ev' => Sound r ev → Settled r ev →
      ev.registry.Fills (fun j => ∃ d ∈ refs, r.Upstream d j) ev'.registry ∧
        Sound r ev' ∧ Settled r ev')
  case memo => -- nothing behind a remembered value is stale
    intro id ev x hfind hs hst
    exact ⟨Fills.refl fun j hj => hst.known id (by simp [hfind]) j hj, hs, hst⟩
  case ready => -- nothing behind a value ready is stale
    intro id ev v x _ hget hready hs hst
    have hid : ∀ j, r.Upstream id j → ¬ev.registry.Stale j := fun j hj =>
      hst.fresh_closed.not_stale_of_ready? hget hready j
        ((sameShape_of_forget_eq hs.forget_eq).upstream_iff.2 hj)
    have hx : x = r.denote id := (hs.caches.ready? hget hready).trans (hs.denote_eq id)
    exact ⟨Fills.refl hid, hs.note hx, hst.note hid⟩
  case computed => -- the inputs fill what is behind them, then the variable itself is filled
    intro id ev v f xs ev₁ _ hget hready hformula hinputs ih hs hst
    obtain ⟨w, hw', hwf⟩ := hs.formula?_eq hget hformula
    have hrefs := hs.refs_ok hw hget hformula
    obtain ⟨hfill₁, hs₁, hst₁⟩ := ih hs hst
    have hx : f.program.run xs = r.denote id := by
      obtain ⟨ev₂, h₂, -⟩ := (valueAt_sound hw).2 id f.refs ev hs hrefs
      rw [hinputs] at h₂
      obtain ⟨rfl, -⟩ : xs = f.refs.map r.denote ∧ ev₁ = ev₂ := by simpa using h₂
      exact (hs.denote_formula hw hget hformula).symm
    have hearlier : ¬∃ d ∈ f.refs, r.Upstream d id := by
      rintro ⟨d, hd, hdid⟩
      exact absurd (hdid.le hw) (Nat.not_le.2 (hrefs d hd).1)
    have hget₁ : ev₁.registry.get? id = some v :=
      (hfill₁.keeps id fun hid => hearlier hid.1).trans hget
    have hfill₂ := fills_modify_remember hget₁ hready
    rw [hs₁.denote_eq, ← hx] at hfill₂
    have hfill : ev.registry.Fills (r.Upstream id) _ := (hfill₁.trans hfill₂).congr fun j _ => by
      rw [upstream_iff hw', refs_eq_of_formula? hwf]
      exact Or.comm
    have hfresh := hst.fresh_closed.of_fills hfill fun i j hi hij =>
      hi.trans (.inr ((sameShape_of_forget_eq hs.forget_eq).reaches_iff.1 hij))
    exact ⟨hfill, hs₁.remember hx,
      (hst₁.fill hfill₂ hfresh).note fun j hj hst' => (hfill.stale hst').2 hj⟩
  case nil =>
    intro id ev hs hst
    exact ⟨Fills.refl fun j hj => by simp at hj, hs, hst⟩
  case cons => -- the first reference, then the others from where it left the registry
    intro id d ds ev x ev₁ xs ev₂ _ _ ih₁ _ ih₂ hs hst
    obtain ⟨hfill₁, hs₁, hst₁⟩ := ih₁ hs hst
    obtain ⟨hfill₂, hs₂, hst₂⟩ := ih₂ hs₁ hst₁
    exact ⟨hfill₁.cons hfill₂, hs₂, hst₂⟩

end Recalc.Evaluation

namespace Recalc.Registry

open Evaluation

/-- The reads of a snapshot fill the stale caches upstream of the variables they read. -/
theorem snapshotOf_fills_upstream {r : Registry} (hw : r.WellFormed) (ids : List Nat)
    (ev ev' : Evaluation) (entries : List Snapshot.Entry)
    (h : snapshotOf Evaluation.valueAt ids ev = .ok (entries, ev')) (hs : Sound r ev) (hst : Settled r ev) :
    ev.registry.Fills (fun j => ∃ i ∈ ids, r.Upstream i j) ev'.registry ∧
      Sound r ev' ∧ Settled r ev' := by
  induction ids generalizing ev ev' entries with
  | nil =>
      simp only [snapshotOf, Except.ok.injEq, Prod.mk.injEq] at h
      obtain ⟨-, rfl⟩ := h
      exact ⟨Fills.refl fun j hj => by simp at hj, hs, hst⟩
  | cons id ids ih =>
      obtain ⟨x, ev₁, rest, hval, hrest⟩ := snapshotOf_cons_eq_ok h
      obtain ⟨hfill₁, hs₁, hst₁⟩ := (valueAt_fills_upstream hw).1 id ev x ev₁ hval hs hst
      obtain ⟨hfill₂, hs₂, hst₂⟩ := ih ev₁ ev' rest hrest hs₁ hst₁
      exact ⟨hfill₁.cons hfill₂, hs₂, hst₂⟩

theorem value_fills {r r' : Registry} (hw : r.WellFormed) (hc : r.CachesAgree)
    (hf : r.FreshClosed) {h : Handle} {x : Float} (hs : r.value h = .ok (x, r')) :
    r.Fills (r.Upstream h.id) r' ∧ r'.FreshClosed := by
  obtain ⟨ev, -, -, hval, rfl⟩ := value_eq_ok hs
  obtain ⟨hfill, -, hst⟩ :=
    (valueAt_fills_upstream hw).1 h.id _ x ev hval (Sound.start hc) (Settled.start hf)
  exact ⟨hfill, hst.fresh_closed⟩

theorem snapshot_fills {r r' : Registry} (hw : r.WellFormed) (hc : r.CachesAgree)
    (hf : r.FreshClosed) {entries : List Snapshot.Entry} (hs : r.snapshot = .ok (entries, r')) :
    r.Fills (fun _ => True) r' ∧ r'.FreshClosed := by
  obtain ⟨ev, hsnap, rfl⟩ := snapshot_eq_ok hs
  obtain ⟨hfill, -, hst⟩ :=
    snapshotOf_fills_upstream hw _ _ _ _ hsnap (Sound.start hc) (Settled.start hf)
  obtain ⟨-, hmem⟩ := order_spec hw
  refine ⟨hfill.congr fun i hi => ?_, hst.fresh_closed⟩
  obtain ⟨v, hv, -⟩ := hi
  exact iff_true_intro ⟨i, (hmem i).2 (by simp [hv]), upstream_self r i⟩

theorem Step.freshClosed {r r' : Registry} (hs : Step r r') (hw : r.WellFormed)
    (hc : r.CachesAgree) (hf : r.FreshClosed) : r'.FreshClosed := by
  cases hs with
  | addConstant name x id h =>
      obtain ⟨-, -, rfl⟩ := register_eq_ok h
      exact hf.push hw (by simp [Variable.cache?])
  | addDelegate name f id _ h =>
      obtain ⟨-, -, rfl⟩ := register_eq_ok h
      exact hf.push hw (by simp [Variable.cache?])
  | addLazy name f id _ h =>
      obtain ⟨-, -, rfl⟩ := register_eq_ok h
      exact hf.push hw (by simp [Variable.cache?])
  | setConstant h x hs => exact hf.setConstant hw hs
  | remove h hs => exact hf.remove hs
  | value h x hs => exact (value_fills hw hc hf hs).2
  | snapshot entries hs => exact (snapshot_fills hw hc hf hs).2

theorem Reachable.freshClosed {r : Registry} (h : r.Reachable) : r.FreshClosed := by
  induction h with
  | empty ident =>
      intro i v x hv
      simp [get?, Registry.empty] at hv
  | step hr hs ih => exact hs.freshClosed hr.wellFormed hr.cachesAgree ih

/-! ## Reads and lazy caches in every reachable registry -/

/-- What reads do to the lazy caches of a registry `r`. Behind a fresh cache every lazy cache is
fresh. A read of a live variable succeeds and changes exactly the stale caches of the variable
and of the variables it reads along a chain, each to the meaning of its variable, and nothing
else; after it, every lazy variable among these has a fresh cache. Within a snapshot, the read of
each variable of the evaluation order, from where the reads before it left the registry, does the
same; the snapshot as a whole fills every stale cache and changes nothing else. -/
structure ReadsFill (r : Registry) : Prop where
  fresh_closed : r.FreshClosed
  value : ∀ h, r.Live h → ∃ x r', r.value h = .ok (x, r') ∧ r.Fills (r.Upstream h.id) r' ∧
    ∀ j w, r.Upstream h.id j → r'.get? j = some w → w.kind = .lazy →
      ∃ y, w.cache? = some (.fresh y)
  each_read : ∀ pre id post, r.order = pre ++ id :: post →
    ∃ entries ev x ev', snapshotOf Evaluation.valueAt pre { registry := r } = .ok (entries, ev) ∧
      valueAt id ev = .ok (x, ev') ∧ ev.registry.Fills (r.Upstream id) ev'.registry
  snapshot : ∃ entries r', r.snapshot = .ok (entries, r') ∧ r.Fills (fun _ => True) r'

theorem Reachable.readsFill {r : Registry} (hr : r.Reachable) : r.ReadsFill where
  fresh_closed := hr.freshClosed
  value h hh := by
    obtain ⟨r', hval, -⟩ := value_eq_denote hr hh
    have hfill := (value_fills hr.wellFormed hr.cachesAgree hr.freshClosed hval).1
    exact ⟨_, r', hval, hfill, fun j w hj hw hk => hfill.fresh hj hw hk⟩
  each_read pre id post horder := by
    have hw := hr.wellFormed
    obtain ⟨-, hmem⟩ := order_spec hw
    have hpre : ∀ i ∈ pre, (r.get? i).isSome := fun i hi =>
      (hmem i).1 (by rw [horder]; exact List.mem_append_left _ hi)
    have hid : (r.get? id).isSome := (hmem id).1 (by rw [horder]; simp)
    have hf₀ : ({ registry := r } : Evaluation).FreshKnown := by
      intro i hi
      simp [Evaluation.find?] at hi
    have hs₀ := Sound.start hr.cachesAgree
    obtain ⟨entries, ev, hsnap, hs, -⟩ := snapshotOf_spec hw pre hpre _ hs₀ hf₀
    obtain ⟨-, -, hst⟩ :=
      snapshotOf_fills_upstream hw pre _ _ _ hsnap hs₀ (Settled.start hr.freshClosed)
    obtain ⟨ev', hval, -⟩ := (valueAt_sound hw).1 id ev hs hid
    exact ⟨entries, ev, _, ev', hsnap, hval,
      ((valueAt_fills_upstream hw).1 id ev _ ev' hval hs hst).1⟩
  snapshot := by
    obtain ⟨entries, ev, hsnap, -⟩ := snapshot_spec hr
    exact ⟨entries, ev.registry, hsnap,
      (snapshot_fills hr.wellFormed hr.cachesAgree hr.freshClosed hsnap).1⟩

end Recalc.Registry
