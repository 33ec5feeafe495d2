import Mathlib.Data.List.Forall2
import Recalc.Proofs.Coherence
import Recalc.Proofs.Order

/-! # A snapshot reads every live variable in evaluation order, each with its meaning -/

namespace Recalc.Variable

@[simp] theorem kind_invalidate (v : Variable) : v.invalidate.kind = v.kind := by
  rcases v with ⟨name, body⟩
  cases body <;> rfl

@[simp] theorem kind_remember (v : Variable) (x : Float) : (v.remember x).kind = v.kind := by
  rcases v with ⟨name, body⟩
  cases body <;> rfl

theorem cache?_remember_of_lazy {v : Variable} (h : v.kind = .lazy) (x : Float) :
    (v.remember x).cache? = some (.fresh x) := by
  rcases v with ⟨name, body⟩
  cases body <;> simp_all [kind, remember, cache?]

theorem cache?_of_ready? {v : Variable} {x : Float} (h : v.kind = .lazy) (hx : v.ready? = some x) :
    v.cache? = some (.fresh x) := by
  rcases v with ⟨name, body⟩
  cases body with
  | constant c => simp [kind] at h
  | delegate f => simp [kind] at h
  | lazy f c => cases c <;> simp_all [ready?, cache?]

end Recalc.Variable

namespace Recalc.Evaluation

/-- Every variable an evaluation remembers that is lazy has a fresh cache in its registry. -/
def FreshKnown (ev : Evaluation) : Prop :=
  ∀ i, (ev.find? i).isSome → ∀ v, ev.registry.get? i = some v → v.kind = .lazy →
    ∃ x, v.cache? = some (.fresh x)

theorem isSome_find?_append {ev ev' : Evaluation} (h : ∃ l, ev'.known = l ++ ev.known) {i : Nat}
    (hi : (ev.find? i).isSome) : (ev'.find? i).isSome := by
  obtain ⟨l, hl⟩ := h
  simp only [find?, Option.isSome_map, List.find?_isSome] at hi ⊢
  obtain ⟨p, hp, hpi⟩ := hi
  exact ⟨p, by rw [hl]; exact List.mem_append_right l hp, hpi⟩

theorem FreshKnown.note {ev : Evaluation} (hf : ev.FreshKnown) {id : Nat} {x : Float}
    (hid : ∀ v, ev.registry.get? id = some v → v.kind = .lazy → ∃ y, v.cache? = some (.fresh y)) :
    (ev.note id x).FreshKnown := by
  intro i hi v hv hk
  rw [find?_note] at hi
  by_cases hie : id = i
  · subst hie
    exact hid v hv hk
  · rw [if_neg hie] at hi
    exact hf i hi v hv hk

theorem fresh_of_get?_modify_remember {r : Registry} {id : Nat} {x : Float} {w : Variable}
    (hw : (r.modify id (·.remember x)).get? id = some w) (hk : w.kind = .lazy) :
    ∃ y, w.cache? = some (.fresh y) := by
  rw [Registry.get?_modify, if_pos rfl] at hw
  obtain ⟨u, -, rfl⟩ := Option.map_eq_some_iff.1 hw
  exact ⟨_, Variable.cache?_remember_of_lazy (by simpa using hk) _⟩

theorem FreshKnown.remember {ev : Evaluation} (hf : ev.FreshKnown) (id : Nat) (x : Float) :
    ({ ev with registry := ev.registry.modify id (·.remember x) } : Evaluation).FreshKnown := by
  intro i hi w hw hk
  by_cases hie : id = i
  · subst hie
    exact fresh_of_get?_modify_remember hw hk
  · rw [Registry.get?_modify, if_neg hie] at hw
    exact hf i hi w hw hk

/-- A read fills: what it remembered before stays remembered, it remembers the variable it read,
and every lazy variable it remembers has a fresh cache. -/
theorem valueAt_fills :
    (∀ id ev x ev', valueAt id ev = .ok (x, ev') → ev.FreshKnown →
      ev'.FreshKnown ∧ (ev'.find? id).isSome ∧ ∃ l, ev'.known = l ++ ev.known) ∧
    (∀ id refs ev xs ev', inputsAt id refs ev = .ok (xs, ev') → ev.FreshKnown →
      ev'.FreshKnown ∧ ∃ l, ev'.known = l ++ ev.known) := by
  apply valueAt_ok_induct
    (fun id ev _ ev' => ev.FreshKnown →
      ev'.FreshKnown ∧ (ev'.find? id).isSome ∧ ∃ l, ev'.known = l ++ ev.known)
    (fun _ _ ev _ ev' => ev.FreshKnown → ev'.FreshKnown ∧ ∃ l, ev'.known = l ++ ev.known)
  case memo =>
    intro id ev x hfind hf
    exact ⟨hf, by simp [hfind], [], rfl⟩
  case ready => -- a lazy variable with a value ready has a fresh cache already
    intro id ev v x _ hget hready hf
    refine ⟨hf.note fun w hw hk => ?_, by simp [find?_note], [(id, x)], rfl⟩
    rw [hget, Option.some.injEq] at hw
    subst hw
    exact ⟨x, Variable.cache?_of_ready? hk hready⟩
  case computed => -- computed from the inputs, and remembered in the cache
    intro id ev v f xs ev₁ _ _ _ _ _ ih hf
    obtain ⟨hf₁, l, hl⟩ := ih hf
    exact ⟨(hf₁.remember id _).note fun w hw hk => fresh_of_get?_modify_remember hw hk,
      by simp [find?_note], (id, f.program.run xs) :: l, by simp [note, hl]⟩
  case nil =>
    intro id ev hf
    exact ⟨hf, [], rfl⟩
  case cons =>
    intro id d ds ev x ev₁ xs ev₂ _ _ ih₁ _ ih₂ hf
    obtain ⟨hf₁, -, l₁, hl₁⟩ := ih₁ hf
    obtain ⟨hf₂, l₂, hl₂⟩ := ih₂ hf₁
    exact ⟨hf₂, l₂ ++ l₁, by rw [hl₂, hl₁, List.append_assoc]⟩

end Recalc.Evaluation

namespace Recalc.Registry

open Evaluation

/-- What a snapshot reports for the variable at `id`: its name and kind, the value a read of it
alone returns, and the names of the variables it reads in byte order. -/
def EntryOf (r : Registry) (id : Nat) (e : Snapshot.Entry) : Prop :=
  ∃ v, r.get? id = some v ∧ e.name = v.name ∧ e.kind = v.kind ∧
    e.references = sortNames (v.refs.map r.nameOf) ∧
    ∃ r', r.value ⟨r.ident, id⟩ = .ok (e.value, r')

/-- Snapshotting live variables from an evaluation that keeps the invariant gives one entry per
variable, each the variable's meaning with its name, kind and sorted references; the evaluation
it leaves keeps the invariant and remembers every variable it read. -/
theorem snapshotOf_spec {r : Registry} (hw : r.WellFormed) (ids : List Nat)
    (hids : ∀ id ∈ ids, (r.get? id).isSome) (ev : Evaluation) (hs : Sound r ev)
    (hf : ev.FreshKnown) :
    ∃ entries ev', snapshotOf Evaluation.valueAt ids ev = .ok (entries, ev') ∧ Sound r ev' ∧ ev'.FreshKnown ∧
      (∃ l, ev'.known = l ++ ev.known) ∧ (∀ id ∈ ids, (ev'.find? id).isSome) ∧
      List.Forall₂ (fun id (e : Snapshot.Entry) => ∃ v, r.get? id = some v ∧
        e = ⟨v.name, v.kind, r.denote id, sortNames (v.refs.map r.nameOf)⟩) ids entries := by
  induction ids generalizing ev with
  | nil => exact ⟨[], ev, rfl, hs, hf, ⟨[], rfl⟩, by simp, .nil⟩
  | cons id ids ih =>
      have hlive := hids id List.mem_cons_self
      obtain ⟨w, hw'⟩ := isSome_get?_iff.1 hlive
      obtain ⟨v, hv, hvw⟩ : ∃ v, ev.registry.get? id = some v ∧ v.invalidate = w.invalidate := by
        have h := hs.get?_map id
        rw [hw'] at h
        obtain ⟨v, hv, hvw⟩ := Option.map_eq_some_iff.1 h
        exact ⟨v, hv, hvw⟩
      have hnames : ev.registry.nameOf = r.nameOf := by
        rw [← nameOf_forget, hs.forget_eq, nameOf_forget]
      obtain ⟨ev₁, hval, hs₁⟩ := (valueAt_sound hw).1 id ev hs hlive
      obtain ⟨hf₁, hknown, hgrow⟩ := valueAt_fills.1 id ev _ ev₁ hval hf
      obtain ⟨l₁, hl₁⟩ := hgrow
      obtain ⟨rest, ev₂, hrest, hs₂, hf₂, ⟨l₂, hl₂⟩, hknown₂, hspec⟩ :=
        ih (fun d hd => hids d (List.mem_cons_of_mem id hd)) ev₁ hs₁ hf₁
      refine ⟨⟨v.name, v.kind, r.denote id, sortNames (v.refs.map ev.registry.nameOf)⟩ :: rest,
        ev₂, ?_, hs₂, hf₂, ⟨l₂ ++ l₁, by rw [hl₂, hl₁, List.append_assoc]⟩, ?_,
        .cons ⟨w, hw', ?_⟩ hspec⟩
      · simp [snapshotOf, hv, hval, hrest, Except.map]
      · -- the first variable stays remembered while the others are read
        intro d hd
        rcases List.mem_cons.1 hd with rfl | hd
        · exact isSome_find?_append ⟨l₂, hl₂⟩ hknown
        · exact hknown₂ d hd
      · rw [← name_invalidate v, hvw, name_invalidate, ← Variable.kind_invalidate v, hvw,
          Variable.kind_invalidate, ← refs_invalidate v, hvw, refs_invalidate, hnames]

/-- What a snapshot of `r` that returns `entries` and leaves `r'` answers. The evaluation order
lists every live variable once and nothing else; the entries follow it one for one, each with its
variable's name, kind and sorted references, and the value a read of that variable alone returns;
and every live lazy variable is left with a fresh cache. -/
structure SnapshotAnswers (r : Registry) (entries : List Snapshot.Entry) (r' : Registry) :
    Prop where
  order_nodup : r.order.Nodup
  mem_order : ∀ i, i ∈ r.order ↔ (r.get? i).isSome
  entries : List.Forall₂ r.EntryOf r.order entries
  fresh : ∀ i v, r'.get? i = some v → v.kind = .lazy → ∃ x, v.cache? = some (.fresh x)

/-- The snapshot of a reachable registry is one evaluation over the evaluation order: it succeeds,
its evaluation agrees with the registry and leaves fresh every lazy variable it remembers, it reads
every variable of the order, and its entries are their names, kinds, meanings and sorted
references. -/
theorem snapshot_spec {r : Registry} (hr : r.Reachable) :
    ∃ entries ev, r.snapshot = .ok (entries, ev.registry) ∧ Sound r ev ∧ ev.FreshKnown ∧
      (∀ id ∈ r.order, (ev.find? id).isSome) ∧
      List.Forall₂ (fun id (e : Snapshot.Entry) => ∃ v, r.get? id = some v ∧
        e = ⟨v.name, v.kind, r.denote id, sortNames (v.refs.map r.nameOf)⟩) r.order entries := by
  obtain ⟨-, hmem⟩ := order_spec hr.wellFormed
  have hf₀ : ({ registry := r } : Evaluation).FreshKnown := by
    intro i hi
    simp [Evaluation.find?] at hi
  obtain ⟨entries, ev, hsnap, hs, hf, -, hknown, hspec⟩ :=
    snapshotOf_spec hr.wellFormed r.order (fun id hid => (hmem id).1 hid) _
      (Sound.start hr.cachesAgree) hf₀
  exact ⟨entries, ev, by simp [snapshot, hsnap, Except.map], hs, hf, hknown, hspec⟩

/-- A snapshot of a reachable registry succeeds and answers: one entry per live variable in
evaluation order, each as a read of it alone would report it, with every lazy cache filled. -/
theorem Reachable.snapshotAnswers {r : Registry} (hr : r.Reachable) :
    ∃ entries r', r.snapshot = .ok (entries, r') ∧ r.SnapshotAnswers entries r' := by
  obtain ⟨hnd, hmem⟩ := order_spec hr.wellFormed
  obtain ⟨entries, ev, hsnap, hs, hf, hknown, hspec⟩ := snapshot_spec hr
  refine ⟨entries, ev.registry, hsnap, hnd, hmem, ?_, ?_⟩
  · -- each value is the meaning, which a read alone returns
    refine hspec.imp fun id e hid => ?_
    obtain ⟨v, hv, he⟩ := hid
    have hlive : r.Live ⟨r.ident, id⟩ := ⟨rfl, by simp [hv]⟩
    obtain ⟨r', hval, -⟩ := value_eq_denote hr hlive
    subst he
    exact ⟨v, hv, rfl, rfl, rfl, r', hval⟩
  · -- every live variable was read, and a read leaves a lazy variable fresh
    intro i v hv hk
    have hlive : (r.get? i).isSome := by
      rw [← (sameShape_of_forget_eq hs.forget_eq).isSome_iff i, hv]
      rfl
    exact hf i (hknown i ((hmem i).2 hlive)) v hv hk

end Recalc.Registry
