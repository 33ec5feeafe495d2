import Mathlib.Data.List.Chain
import Mathlib.Data.List.Find
import Recalc.Proofs.Guards
import Recalc.Proofs.Representation

/-! # Registration checks in a fixed order before it changes anything; a new variable takes the next
place -/

namespace Recalc.Registry

open Relation

/-! ## The whole search -/

section Search

variable {next : Nat → List Nat} {target : Nat}

variable (next target) in
/-- A place the search has passed: it is not the target, and all its neighbours are seen. -/
def Taken (seen : List Nat) (x : Nat) : Prop := x ≠ target ∧ ∀ y ∈ next x, y ∈ seen

/-- After a round that finds nothing, every place seen before it has been passed or has a path to
take in the next round, as has every place it sees. -/
theorem front_of_pathLayer {paths : List (List Nat)} {seen seen' : List Nat}
    {upcoming' : List (List Nat)} (h : pathLayer next target paths seen [] = .next seen' upcoming')
    (hfront : ∀ y ∈ seen, (∃ p ∈ paths, p.head? = some y) ∨ Taken next target seen y) :
    ∀ y ∈ seen', (∃ q ∈ upcoming', q.head? = some y) ∨ Taken next target seen' y := by
  obtain ⟨added, rfl, -, -, hpaths, -, -, htaken⟩ := pathLayer_eq_next next target h
  intro y hy
  rcases List.mem_append.1 hy with hy | hy
  · rcases hfront y hy with ⟨p, hp, hpy⟩ | ⟨hne, hnext⟩
    · -- the round passed the end of every path it was given
      obtain ⟨back, rfl⟩ : ∃ back, p = y :: back := by
        cases p with
        | nil => simp at hpy
        | cons z back => exact ⟨back, by simpa using hpy⟩
      exact .inr (htaken y back hp)
    · exact .inr ⟨hne, fun z hz => List.mem_append_left _ (hnext z hz)⟩
  · exact .inl (hpaths y hy)

theorem not_reflTransGen_of_taken {seen : List Nat} (hall : ∀ y ∈ seen, Taken next target seen y)
    {y : Nat} (hy : y ∈ seen) : ¬ReflTransGen (fun a b => b ∈ next a) y target := by
  intro hreach
  have hseen : ∀ z, ReflTransGen (fun a b => b ∈ next a) y z → z ∈ seen := by
    intro z hz
    induction hz with
    | refl => exact hy
    | tail _ hbc ih => exact (hall _ ih).2 _ hbc
  exact (hall target (hseen target hreach)).1 rfl

/-- A search with more rounds than there are places it has not seen finds a path whenever the
target is reached from a place seen. A round that adds no path leaves every place seen passed, so
the places seen are closed under neighbours and the target is not among them; and a round that
adds a path sees a new place. -/
theorem pathFrom_isSome (n : Nat) (hb : ∀ x, ∀ y ∈ next x, y < n) (fuel : Nat)
    (paths : List (List Nat)) (seen : List Nat) (hnodup : seen.Nodup) (hlt : ∀ y ∈ seen, y < n)
    (hfuel : n < fuel + seen.length)
    (hfront : ∀ y ∈ seen, (∃ p ∈ paths, p.head? = some y) ∨ Taken next target seen y)
    (hreach : ∃ y ∈ seen, ReflTransGen (fun a b => b ∈ next a) y target) :
    (pathFrom next target fuel paths seen).isSome := by
  induction fuel generalizing paths seen with
  | zero =>
      have hle : seen.length ≤ n := by
        simpa using hnodup.length_le_of_subset fun y hy => List.mem_range.2 (hlt y hy)
      omega
  | succ fuel ih =>
      cases hl : pathLayer next target paths seen [] with
      | found path => simp [pathFrom, hl]
      | next seen' upcoming =>
          have hfront' := front_of_pathLayer hl hfront
          obtain ⟨added, rfl, hnd, hnew, hpaths, hfrom, -, -⟩ := pathLayer_eq_next next target hl
          have hadded : ∀ z ∈ added, ∃ x, z ∈ next x := by
            intro z hz
            obtain ⟨q, hq, hhead⟩ := hpaths z hz
            rcases hfrom q hq with hq | ⟨x, back, y, -, hy, -, rfl⟩
            · cases hq
            · obtain rfl : y = z := by simpa using hhead
              exact ⟨x, hy⟩
          obtain ⟨y₀, hy₀, hreach₀⟩ := hreach
          cases upcoming with
          | nil =>
              have hall : ∀ y ∈ seen ++ added, Taken next target (seen ++ added) y := by
                intro y hy
                rcases hfront' y hy with ⟨q, hq, -⟩ | htaken
                · cases hq
                · exact htaken
              exact absurd hreach₀ (not_reflTransGen_of_taken hall (List.mem_append_left _ hy₀))
          | cons q upcoming =>
              simp only [pathFrom, hl, List.isEmpty_cons, Bool.false_eq_true, if_false]
              have hpos : 0 < added.length := by
                rcases hfrom q List.mem_cons_self with hq | ⟨x, back, y, -, -, hya, -⟩
                · cases hq
                · exact List.length_pos_of_mem hya
              refine ih _ _ ?_ ?_ ?_ hfront' ⟨y₀, List.mem_append_left _ hy₀, hreach₀⟩
              · refine List.nodup_append.2 ⟨hnodup, hnd, ?_⟩
                rintro a ha b hb rfl
                exact hnew a hb ha
              · intro z hz
                rcases List.mem_append.1 hz with hz | hz
                · exact hlt z hz
                · obtain ⟨x, hx⟩ := hadded z hz
                  exact hb x z hx
              · rw [List.length_append]
                omega

end Search

/-! ## Chains of references -/

/-- A chain of references from one of `starts` to `target`, both ends included: each place of the
chain reads the next. -/
def IsTrail (r : Registry) (starts : List Nat) (target : Nat) (path : List Nat) : Prop :=
  (∃ s ∈ starts, path.head? = some s) ∧ path.getLast? = some target ∧
    path.IsChain fun a b => b ∈ r.refsOf a

theorem reflTransGen_refsOf_iff {r : Registry} {s e : Nat} :
    ReflTransGen (fun a b => b ∈ r.refsOf a) s e ↔ e = s ∨ r.Reaches .reads s e := by
  have hedge : (fun a b => b ∈ r.refsOf a) = r.Edge .reads := by
    funext a b
    exact propext ⟨fun h => ⟨isSome_of_mem_refsOf h, h⟩, fun h => h.2⟩
  rw [reflTransGen_iff_eq_or_transGen, hedge, reaches_iff_transGen]

theorem findPath_isTrail {r : Registry} {starts : List Nat} {target : Nat} {path : List Nat}
    (h : r.findPath starts target = some path) : r.IsTrail starts target path := by
  -- the search keeps a path last place first: its last element is a start, and each of its
  -- places is read by the one before it
  have hgood : ∀ x back y,
      (∃ s ∈ starts, (x :: back).getLast? = some s ∧
        (x :: back).IsChain fun a b => a ∈ r.refsOf b) → y ∈ r.refsOf x →
      ∃ s ∈ starts, (y :: x :: back).getLast? = some s ∧
        (y :: x :: back).IsChain fun a b => a ∈ r.refsOf b := by
    intro x back y hxb hy
    obtain ⟨s, hs, hlast, hchain⟩ := hxb
    exact ⟨s, hs, by rw [List.getLast?_cons_cons, hlast], List.isChain_cons_cons.2 ⟨hy, hchain⟩⟩
  rw [findPath] at h
  obtain ⟨back, ⟨s, hs, hlast, hchain⟩, rfl⟩ := pathFrom_eq_some
    (fun p => ∃ s ∈ starts, p.getLast? = some s ∧ p.IsChain fun a b => a ∈ r.refsOf b) hgood
    _ _ _ (fun p hp => by
    obtain ⟨s, hs, rfl⟩ := List.mem_map.1 hp
    exact ⟨s, mem_firstOccurrences.1 hs, rfl, .singleton s⟩) h
  exact ⟨⟨s, hs, by rw [List.head?_reverse, hlast]⟩, by rw [List.getLast?_reverse]; rfl,
    List.isChain_reverse.2 hchain⟩

theorem findPath_isSome {r : Registry} (hw : r.WellFormed) {starts : List Nat} {target : Nat}
    (hstarts : ∀ s ∈ starts, (r.get? s).isSome)
    (hreach : ∃ s ∈ starts, ReflTransGen (fun a b => b ∈ r.refsOf a) s target) :
    (r.findPath starts target).isSome := by
  obtain ⟨s, hs, hst⟩ := hreach
  refine pathFrom_isSome r.slots.size (fun x y hy => @lt_size_of_mem_neighbours r hw .reads x y hy)
    _ _ _ (nodup_firstOccurrences starts) ?_ (by omega) ?_ ⟨s, mem_firstOccurrences.2 hs, hst⟩
  · intro y hy
    exact lt_size_of_isSome (hstarts y (mem_firstOccurrences.1 hy))
  · intro y hy
    exact .inl ⟨[y], List.mem_map_of_mem hy, rfl⟩

/-- Among live starts, the search finds a chain exactly when the target is one of them or is
reached from one of them along references. -/
theorem findPath_isSome_iff {r : Registry} (hw : r.WellFormed) {starts : List Nat} {target : Nat}
    (hstarts : ∀ s ∈ starts, (r.get? s).isSome) :
    (r.findPath starts target).isSome ↔ ∃ s ∈ starts, target = s ∨ r.Reaches .reads s target := by
  constructor
  · intro h
    obtain ⟨path, hpath⟩ := Option.isSome_iff_exists.1 h
    obtain ⟨⟨s, hs, hhead⟩, hlast, hchain⟩ := findPath_isTrail hpath
    have hne : path ≠ [] := by
      rintro rfl
      cases hhead
    have hreach := List.relationReflTransGen_of_exists_isChain path hchain hne
    rw [(List.head_eq_iff_head?_eq_some hne).2 hhead,
      (List.getLast_eq_iff_getLast?_eq_some hne).2 hlast] at hreach
    exact ⟨s, hs, reflTransGen_refsOf_iff.1 hreach⟩
  · rintro ⟨s, hs, hst⟩
    exact findPath_isSome hw hstarts ⟨s, hs, reflTransGen_refsOf_iff.2 hst⟩

/-! ## Registrations counted -/

/-- The registries reached from an empty one by calls that succeed, `n` of which registered a
variable. -/
inductive Registrations : Registry → Nat → Prop where
  | empty (ident : Nat) : Registrations (Registry.empty ident) 0
  | register {r r' : Registry} {n : Nat} (v : Variable) (id : Nat) :
      Registrations r n → Step r r' → r.register v = .ok (id, r') → Registrations r' (n + 1)
  | other {r r' : Registry} {n : Nat} :
      Registrations r n → Step r r' → (∀ v id, r.register v ≠ .ok (id, r')) →
      Registrations r' n

theorem Registrations.reachable {r : Registry} {n : Nat} (h : r.Registrations n) :
    r.Reachable := by
  induction h with
  | empty ident => exact .empty ident
  | register _ _ _ hs _ ih => exact ih.step hs
  | other _ hs _ ih => exact ih.step hs

theorem Reachable.registrations {r : Registry} (h : r.Reachable) : ∃ n, r.Registrations n := by
  induction h with
  | empty ident => exact ⟨0, .empty ident⟩
  | @step r r' _ hs ih =>
      obtain ⟨n, hn⟩ := ih
      by_cases hreg : ∃ v id, r.register v = .ok (id, r')
      · obtain ⟨v, id, h⟩ := hreg
        exact ⟨n + 1, .register v id hn hs h⟩
      · simp only [not_exists] at hreg
        exact ⟨n, .other hn hs hreg⟩

theorem Step.size_eq {r r' : Registry} (hs : Step r r')
    (hreg : ∀ v id, r.register v ≠ .ok (id, r')) : r'.slots.size = r.slots.size := by
  cases hs with
  | addConstant name x id h => exact absurd h (hreg _ id)
  | addDelegate name f id _ h => exact absurd h (hreg _ id)
  | addLazy name f id _ h => exact absurd h (hreg _ id)
  | setConstant h x hs => exact (sameShape_setConstant hs).size_eq
  | remove h hs =>
      obtain ⟨-, -, -, rfl⟩ := remove_eq_ok hs
      simp
  | value h x hs => exact (sameShape_of_forget_eq (forget_value hs)).size_eq
  | snapshot entries hs => exact (sameShape_of_forget_eq (forget_snapshot hs)).size_eq

/-- Places are never reused, so the next place counts the registrations so far. -/
theorem Registrations.size_eq {r : Registry} {n : Nat} (h : r.Registrations n) :
    r.slots.size = n := by
  induction h with
  | empty ident => rfl
  | register v id _ _ hreg ih =>
      obtain ⟨-, -, rfl⟩ := register_eq_ok hreg
      simp [ih]
  | other _ hs hreg ih => rw [hs.size_eq hreg, ih]

/-! ## A variable at the next place -/

section Push

variable (r : Registry) (v : Variable)

theorem live_push :
    ({ r with slots := r.slots.push (some v) } : Registry).live = r.live ++ [r.slots.size] := by
  simp only [live, Array.size_push, List.range_succ, List.filter_append]
  congr 1
  · apply List.filter_congr
    intro i hi
    rw [get?_push, if_neg (Nat.ne_of_lt (List.mem_range.1 hi))]
  · simp [get?_push]

theorem refsOf_push (i : Nat) :
    ({ r with slots := r.slots.push (some v) } : Registry).refsOf i =
      if i = r.slots.size then v.refs else r.refsOf i := by
  by_cases hi : i = r.slots.size <;> simp [refsOf, get?_push, hi]

theorem readersOf_push (d : Nat) :
    ({ r with slots := r.slots.push (some v) } : Registry).readersOf d =
      r.readersOf d ++ if d ∈ v.refs then [r.slots.size] else [] := by
  simp only [readersOf, live_push, List.filter_append]
  congr 1
  · apply List.filter_congr
    intro i hi
    rw [refsOf_push, if_neg (Nat.ne_of_lt (lt_size_of_isSome (mem_live.1 hi)))]
  · by_cases hd : d ∈ v.refs <;> simp [refsOf_push, hd]

theorem find?_push (x : String) :
    ({ r with slots := r.slots.push (some v) } : Registry).find? x =
      (r.find? x).or (if v.name = x then some r.slots.size else none) := by
  simp only [find?, live_push, List.find?_append]
  congr 1
  · apply List.find?_congr
    intro i hi
    rw [get?_push, if_neg (Nat.ne_of_lt (lt_size_of_isSome (mem_live.1 hi)))]
  · by_cases hx : v.name = x <;> simp [get?_push, hx]

end Push

/-- What a registration that passes leaves: the registry with the new variable at place `id`,
every other place as it was; the live places followed by the new one; the new variable reading
its references; each place it reads with the new variable after its earlier readers; and its name
finding it, while every other name finds what it found before. -/
structure Extends (r : Registry) (v : Variable) (id : Nat) (r' : Registry) : Prop where
  ident_eq : r'.ident = r.ident
  get?_eq : ∀ i, r'.get? i = if i = id then some v else r.get? i
  live_eq : r'.live = r.live ++ [id]
  refsOf_eq : r'.refsOf id = v.refs
  readersOf_eq : ∀ d, r'.readersOf d = r.readersOf d ++ if d ∈ v.refs then [id] else []
  find?_name : r'.find? v.name = some id
  find?_other : ∀ x, x ≠ v.name → r'.find? x = r.find? x

theorem extends_push {r : Registry} {v : Variable} (hfree : r.find? v.name = none) :
    r.Extends v r.slots.size { r with slots := r.slots.push (some v) } where
  ident_eq := rfl
  get?_eq := get?_push r v
  live_eq := live_push r v
  refsOf_eq := by simp [refsOf_push]
  readersOf_eq := readersOf_push r v
  find?_name := by simp [find?_push, hfree]
  find?_other x hx := by simp [find?_push, Ne.symm hx]

/-! ## The checks of a registration -/

/-- The checks of a variable's formula pass: it is bound to this registry and reads only live
variables. -/
def Admits (r : Registry) (v : Variable) : Prop :=
  ∀ f, v.formula? = some f → f.home = r.ident ∧ ∀ d ∈ f.refs, (r.get? d).isSome

theorem removedReference?_eq_none {r : Registry} {f : BoundFormula}
    (h : ∀ d ∈ f.refs, (r.get? d).isSome) : r.removedReference? f = none := by
  simp only [removedReference?, Option.map_eq_none_iff, List.find?_eq_none]
  intro p hp
  rw [Option.isNone_iff_eq_none]
  exact Option.isSome_iff_ne_none.1 (h p.1 (List.of_mem_zip hp).1)

theorem removedReference?_eq_some {r : Registry} {f : BoundFormula}
    (hlen : f.names.length = f.refs.length) {k d : Nat} (hk : f.refs[k]? = some d)
    (hd : r.get? d = none) (hbefore : ∀ j < k, ∀ d', f.refs[j]? = some d' → (r.get? d').isSome) :
    ∃ name, f.names[k]? = some name ∧ r.removedReference? f = some name := by
  obtain ⟨hkr, rfl⟩ := List.getElem?_eq_some_iff.1 hk
  have hkn : k < f.names.length := hlen ▸ hkr
  refine ⟨f.names[k], List.getElem?_eq_getElem hkn, ?_⟩
  simp only [removedReference?, Option.map_eq_some_iff]
  refine ⟨(f.refs[k], f.names[k]), List.find?_eq_some_iff_getElem.2 ⟨by simpa using hd, k,
    by simp [hkr, hkn], by simp, fun j hj => ?_⟩, rfl⟩
  have hjr : j < f.refs.length := Nat.lt_trans hj hkr
  simpa using hbefore j hj f.refs[j] (List.getElem?_eq_getElem hjr)

theorem checkNew_of_admits {r : Registry} {v : Variable} (ha : r.Admits v) :
    r.checkNew v = (match r.find? v.name with
      | some existing =>
        match r.findPath v.refs existing with
        | some path => throw (Error.cyclicReference v.name (v.name :: path.map r.nameOf))
        | none => throw (Error.duplicateName v.name)
      | _ => pure () : Except Error Unit) := by
  unfold checkNew
  cases hf : v.formula? with
  | none => rfl
  | some f =>
      obtain ⟨hhome, hlive⟩ := ha f hf
      cases hfind : r.find? v.name with
      | none => simp [hhome, removedReference?_eq_none hlive]
      | some e =>
          cases hpath : r.findPath v.refs e <;>
            simp [hhome, removedReference?_eq_none hlive, hpath]

theorem register_of_checkNew {r : Registry} {v : Variable} {e : Error}
    (h : r.checkNew v = .error e) : r.register v = .error e := by
  simp [register, h, bind, Except.bind]

/-! ## How a registration ends -/

/-- How registering `v` ends in a registry reached after `n` registrations, its checks taken in
order. A formula bound to another registry is refused first, by its text; then the first
reference, in order, whose variable is gone, by its name. Then, when a live variable `e` holds the
name: if `e` is one of the references or is reached from one, the refusal is a cycle, named by the
new name and the names along a chain of references from a reference to `e`; otherwise the name is
a duplicate. A variable that passes every check takes place `n`, and the registry it leaves is the
old one with the new variable added. A refusal carries no registry: nothing changes. -/
structure RegistrationOutcome (r : Registry) (n : Nat) (v : Variable) : Prop where
  foreign : ∀ f, v.formula? = some f → f.home ≠ r.ident →
    r.register v = .error (.foreignFormula f.source)
  removed : ∀ f, v.formula? = some f → f.home = r.ident → ∀ (k d : Nat), f.refs[k]? = some d →
    r.get? d = none → (∀ j < k, ∀ d' : Nat, f.refs[j]? = some d' → (r.get? d').isSome) →
    ∃ name, f.names[k]? = some name ∧ r.register v = .error (.removedReference name)
  cyclic : r.Admits v → ∀ e w, r.get? e = some w → w.name = v.name →
    (∃ d ∈ v.refs, e = d ∨ r.Reaches .reads d e) →
    ∃ path, r.findPath v.refs e = some path ∧ r.IsTrail v.refs e path ∧
      r.register v = .error (.cyclicReference v.name (v.name :: path.map r.nameOf))
  duplicate : r.Admits v → ∀ e w, r.get? e = some w → w.name = v.name →
    (∀ d ∈ v.refs, e ≠ d ∧ ¬r.Reaches .reads d e) →
    r.register v = .error (.duplicateName v.name)
  registers : r.Admits v → (∀ i w, r.get? i = some w → w.name ≠ v.name) →
    ∃ r', r.register v = .ok (n, r') ∧ r.Extends v n r'

theorem registrations_registrationOutcome {r : Registry} {n : Nat} (hr : r.Registrations n)
    {v : Variable} (hv : ∀ f, v.formula? = some f → f.Compiled) : r.RegistrationOutcome n v := by
  have hw := hr.reachable.wellFormed
  have hfind : ∀ e w, r.get? e = some w → w.name = v.name → r.find? v.name = some e := by
    intro e w he hname
    rw [find?_eq_some_iff hw, nameOf_of_get? he, hname]
    exact ⟨by simp [he], rfl⟩
  have hrefs : r.Admits v → ∀ d ∈ v.refs, (r.get? d).isSome := by
    intro ha d hd
    cases hf : v.formula? with
    | none => simp [refs_eq_nil_of_formula? hf] at hd
    | some f => exact (ha f hf).2 d (refs_eq_of_formula? hf ▸ hd)
  constructor
  case foreign =>
    intro f hf hhome
    apply register_of_checkNew
    simp [checkNew, hf, hhome, throw, throwThe, MonadExceptOf.throw, bind, Except.bind]
  case removed =>
    intro f hf hhome k d hk hd hbefore
    obtain ⟨name, hname, hrem⟩ := removedReference?_eq_some (hv f hf).spec.2.1 hk hd hbefore
    refine ⟨name, hname, register_of_checkNew ?_⟩
    simp [checkNew, hf, hhome, hrem, throw, throwThe, MonadExceptOf.throw, bind, Except.bind]
  case cyclic =>
    intro ha e w he hname hreach
    obtain ⟨path, hpath⟩ :=
      Option.isSome_iff_exists.1 ((findPath_isSome_iff hw (hrefs ha)).2 hreach)
    refine ⟨path, hpath, findPath_isTrail hpath, register_of_checkNew ?_⟩
    simp [checkNew_of_admits ha, hfind e w he hname, hpath, throw, throwThe,
      MonadExceptOf.throw]
  case duplicate =>
    intro ha e w he hname hnot
    have hnone : r.findPath v.refs e = none := by
      rw [← Option.not_isSome_iff_eq_none, findPath_isSome_iff hw (hrefs ha)]
      rintro ⟨d, hd, hde | hde⟩
      · exact (hnot d hd).1 hde
      · exact (hnot d hd).2 hde
    apply register_of_checkNew
    simp [checkNew_of_admits ha, hfind e w he hname, hnone, throw, throwThe, MonadExceptOf.throw]
  case registers =>
    intro ha hfree
    have hnone : r.find? v.name = none := find?_eq_none.2 hfree
    refine ⟨_, ?_, hr.size_eq ▸ extends_push hnone⟩
    simp [register, checkNew_of_admits ha, hnone, hr.size_eq, bind, Except.bind, pure,
      Except.pure]

end Recalc.Registry
