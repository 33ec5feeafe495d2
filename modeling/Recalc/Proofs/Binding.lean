import Recalc.Session
import Recalc.Proofs.Arena
import Recalc.Proofs.Guards

/-! # Compiling binds the names of a text in the order they first occur, and only reads the registry -/

namespace Recalc

section FirstOccurrences

variable {α : Type} [BEq α] [LawfulBEq α]

theorem find?_foldl_firstOccurrences (p : α → Bool) (xs seen : List α) :
    (xs.foldl (fun seen x => if seen.contains x then seen else seen ++ [x]) seen).find? p =
      (seen ++ xs).find? p := by
  induction xs generalizing seen with
  | nil => simp
  | cons y ys ih =>
      rw [List.foldl_cons, ih]
      by_cases hy : y ∈ seen
      · -- a repeat is skipped: if it satisfies `p`, an element of `seen` is found before it
        simp only [List.contains_iff_mem, hy, if_true, List.find?_append, List.find?_cons]
        cases hs : seen.find? p with
        | some z => rfl
        | none =>
            have hpy : p y = false := by
              simpa using List.find?_eq_none.1 hs y hy
            simp [hpy]
      · simp [hy]

theorem find?_firstOccurrences (p : α → Bool) (xs : List α) :
    (firstOccurrences xs).find? p = xs.find? p := by
  rw [firstOccurrences, find?_foldl_firstOccurrences]
  rfl

end FirstOccurrences

namespace Formula

def Symbol.name? : Symbol → Option String
  | .name x => some x
  | _ => none

/-- The names a text holds, in the order of their tokens, with repeats; the tokens read before a
fault count too. -/
def sourceNames (s : String) : List String :=
  (Tokens.scan s).toList.filterMap fun tok => tok.symbol.name?

theorem names_eq_filterMap_leaves (f : Formula) : f.names = f.leaves.filterMap Symbol.name? := by
  induction f with
  | num v => rfl
  | var x => rfl
  | neg a ih => simpa [leaves] using ih
  | bin op l r ihl ihr => simp [leaves, ihl, ihr]

theorem filterMap_name?_filter_isOperand (ss : List Symbol) :
    (ss.filter Symbol.isOperand).filterMap Symbol.name? = ss.filterMap Symbol.name? := by
  induction ss with
  | nil => rfl
  | cons s ss ih => cases s <;> simp [List.filter_cons, List.filterMap_cons, Symbol.isOperand, Symbol.name?, ih]

/-- The names a formula read from a text reads are the names of the text, in order. -/
theorem parse_eq_ok_names {limits : Limits} {s : String} {t : Formula}
    (h : parse limits s = .ok t) : t.names = sourceNames s := by
  obtain ⟨toks, pos, hscan, hd⟩ := parse_eq_ok_tokens h
  have hleaves := hd.leaves_eq
  simp only [Rule.leavesBefore, List.nil_append] at hleaves
  rw [names_eq_filterMap_leaves, hleaves, filterMap_name?_filter_isOperand, sourceNames, hscan,
    Tokens.toList_append, List.filterMap_map]
  simp [Tokens.toList]

theorem parse_eq_ok_identifiers {limits : Limits} {s : String} {t : Formula}
    (h : parse limits s = .ok t) : t.identifiers = firstOccurrences (sourceNames s) := by
  rw [identifiers, parse_eq_ok_names h]

end Formula

namespace Registry

variable {r : Registry}

theorem bindNames_isOk_iff {xs : List String} :
    (∃ ids, r.bindNames xs = .ok ids) ↔ ∀ x ∈ xs, (r.find? x).isSome := by
  induction xs with
  | nil => simp [bindNames]
  | cons x xs ih =>
      unfold bindNames
      cases hx : r.find? x with
      | none => simp [hx]
      | some i =>
          cases hrest : r.bindNames xs with
          | error e => simp_all [Except.map]
          | ok ids => simp_all [Except.map]

theorem map_find?_of_bindNames {xs : List String} {ids : List Nat}
    (h : r.bindNames xs = .ok ids) : xs.map r.find? = ids.map some := by
  induction xs generalizing ids with
  | nil =>
      simp only [bindNames, Except.ok.injEq] at h
      simp [← h]
  | cons x xs ih =>
      unfold bindNames at h
      cases hx : r.find? x with
      | none => simp [hx] at h
      | some i =>
          cases hrest : r.bindNames xs with
          | error e => simp [hx, hrest, Except.map] at h
          | ok rest =>
              simp only [hx, hrest, Except.map, Except.ok.injEq] at h
              simp [← h, hx, ih hrest]

/-- Binding stops at the first name without a live variable. -/
theorem bindNames_eq_error {xs : List String} {x : String}
    (h : xs.find? (fun y => (r.find? y).isNone) = some x) :
    r.bindNames xs = .error (.unknownVariable x) := by
  induction xs with
  | nil => simp at h
  | cons y ys ih =>
      unfold bindNames
      cases hy : r.find? y with
      | none =>
          have hxy : y = x := by simpa [hy] using h
          rw [hxy]
      | some i =>
          have hys : ys.find? (fun y => (r.find? y).isNone) = some x := by
            simpa [hy] using h
          simp [ih hys, Except.map]

theorem compile_of_parse {limits : Limits} {src : String} {f : Formula}
    (hp : Formula.parse limits src = .ok f) :
    r.compile limits src = (r.bindNames f.identifiers).bind fun refs =>
      (Program.lower f.identifiers f).bind fun program =>
        .ok { home := r.ident, source := src, names := f.identifiers, refs, program } := by
  simp [compile, hp, bind, Except.bind, pure, Except.pure]

/-- A formula bound to a registry from a text: it lists the distinct names of the text in the
order they first occur, binds each to the place that looking it up gives, those places distinct
and live, and has one input per name. -/
structure BindsText (r : Registry) (src : String) (bf : BoundFormula) : Prop where
  home : bf.home = r.ident
  source : bf.source = src
  names : bf.names = firstOccurrences (Formula.sourceNames src)
  names_nodup : bf.names.Nodup
  refs : bf.names.map r.find? = bf.refs.map some
  refs_nodup : bf.refs.Nodup
  refs_live : ∀ i ∈ bf.refs, (r.get? i).isSome
  refs_length : bf.refs.length = bf.names.length
  inputs : bf.program.inputs = bf.names.length

/-- What compiling a text against a registry gives. It succeeds exactly when the text is read and
each of its names has a live variable. The formula it gives lists the distinct names of the text
in the order they first occur, binds each to the place that looking it up gives (distinct live
places), and has one input per name. Otherwise it fails with the first name of the text that has
no variable, or with the reason the text is not read. -/
structure CompileOutcome (r : Registry) (limits : Limits) (src : String) : Prop where
  ok_iff : (∃ bf, r.compile limits src = .ok bf) ↔
    (∃ f, Formula.parse limits src = .ok f) ∧ ∀ x ∈ Formula.sourceNames src, (r.find? x).isSome
  bound : ∀ bf, r.compile limits src = .ok bf → r.BindsText src bf
  unknown : ∀ f x, Formula.parse limits src = .ok f →
    (Formula.sourceNames src).find? (fun y => (r.find? y).isNone) = some x →
    r.compile limits src = .error (.unknownVariable x)
  unread : ∀ e, Formula.parse limits src = .error e → r.compile limits src = .error e

section Outcome

variable {limits : Limits} {src : String}

theorem compile_eq_ok_bindsText {bf : BoundFormula} (h : r.compile limits src = .ok bf) :
    r.BindsText src bf := by
  obtain ⟨f, refs, program, hp, hb, -, rfl⟩ := compile_eq_ok h
  obtain ⟨-, -, -, hinputs, -⟩ := compile_run_eq_eval h
  obtain ⟨hlen, hfound, hnodup⟩ := bindNames_eq_ok hb
  refine ⟨rfl, rfl, Formula.parse_eq_ok_identifiers hp, nodup_firstOccurrences _,
    map_find?_of_bindNames hb, hnodup (nodup_firstOccurrences _), ?_, hlen, hinputs⟩
  intro i hi
  obtain ⟨x, -, hx⟩ := hfound i hi
  obtain ⟨v, hv, -⟩ := find?_eq_some hx
  simp [hv]

theorem compile_isOk_iff :
    (∃ bf, r.compile limits src = .ok bf) ↔
      (∃ f, Formula.parse limits src = .ok f) ∧
        ∀ x ∈ Formula.sourceNames src, (r.find? x).isSome := by
  constructor
  · rintro ⟨bf, h⟩
    obtain ⟨f, refs, -, hp, hb, -, -⟩ := compile_eq_ok h
    refine ⟨⟨f, hp⟩, fun x hx => bindNames_isOk_iff.1 ⟨refs, hb⟩ x ?_⟩
    rwa [Formula.parse_eq_ok_identifiers hp, mem_firstOccurrences]
  · rintro ⟨⟨f, hp⟩, hfound⟩
    have hnames : ∀ x ∈ f.identifiers, (r.find? x).isSome := by
      intro x hx
      rw [Formula.parse_eq_ok_identifiers hp, mem_firstOccurrences] at hx
      exact hfound x hx
    obtain ⟨refs, hb⟩ := bindNames_isOk_iff.2 hnames
    obtain ⟨program, hl, -⟩ := Program.lower_ok (f := f) (fun x hx => mem_firstOccurrences.2 hx)
    have hl' : Program.lower f.identifiers f = .ok program := hl
    rw [compile_of_parse hp, hb]
    simp [Except.bind, hl']

theorem compile_eq_unknown {f : Formula} {x : String} (hp : Formula.parse limits src = .ok f)
    (hx : (Formula.sourceNames src).find? (fun y => (r.find? y).isNone) = some x) :
    r.compile limits src = .error (.unknownVariable x) := by
  have hfirst : f.identifiers.find? (fun y => (r.find? y).isNone) = some x := by
    rwa [Formula.parse_eq_ok_identifiers hp, find?_firstOccurrences]
  rw [compile_of_parse hp, bindNames_eq_error hfirst]
  rfl

theorem compileOutcome (r : Registry) (limits : Limits) (src : String) :
    r.CompileOutcome limits src where
  ok_iff := compile_isOk_iff
  bound _ h := compile_eq_ok_bindsText h
  unknown _ _ hp hx := compile_eq_unknown hp hx
  unread e hp := by simp [compile, hp, bind, Except.bind]

end Outcome

end Registry

theorem Session.step_compile_registry (ses : Session) (side : Side) (limits : Limits.Source)
    (src : String) (side' : Side) :
    (ses.step (.compile side limits src)).2.registry side' = ses.registry side' := by
  simp only [Session.step]
  split <;> cases side' <;> rfl

end Recalc
