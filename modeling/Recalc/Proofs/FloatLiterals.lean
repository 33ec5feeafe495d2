import Recalc.Proofs.Lexemes

/-! # Numerals are the longest float literals at the front of the text, read as the nearest float -/

namespace Recalc.Formula

/-! ## The grammar of float literals -/

def AllDigits (ds : List Char) : Prop := ∀ d ∈ ds, d.isDigit = true

def NoDigitAhead (cs : List Char) : Prop := ∀ d ∈ cs.head?, d.isDigit = false

/-- `Mantissa m whole frac`: `m` is the digits `whole`, or the digits `whole`, a point and the
digits `frac`, with a digit on at least one side of the point. -/
inductive Mantissa : List Char → List Char → List Char → Prop
  | integer {ds : List Char} : AllDigits ds → ds ≠ [] → Mantissa ds ds []
  | pointed {whole frac : List Char} : AllDigits whole → AllDigits frac → whole ++ frac ≠ [] →
      Mantissa (whole ++ '.' :: frac) whole frac

/-- The sign of an exponent and whether it negates: none, `+` or `-`. -/
inductive ExponentSign : List Char → Bool → Prop
  | none : ExponentSign [] false
  | plus : ExponentSign ['+'] false
  | minus : ExponentSign ['-'] true

/-- `Exponent x scale`: `x` is empty, of scale 0, or `e` or `E`, an optional sign and digits, of
scale the signed value of the digits. -/
inductive Exponent : List Char → Int → Prop
  | none : Exponent [] 0
  | mark {e : Char} {sign ds : List Char} {neg : Bool} : (e = 'e' ∨ e = 'E') →
      ExponentSign sign neg → AllDigits ds → ds ≠ [] →
      Exponent (e :: sign ++ ds)
        (if neg then -(Decimal.digitValue ds : Int) else Decimal.digitValue ds)

/-- `FloatLiteral lit d`: `lit` is a mantissa and an optional exponent, and `d` its exact value:
the digits of the mantissa read as one number, scaled by the exponent less the number of fraction
digits. -/
inductive FloatLiteral : List Char → Decimal → Prop
  | mk {m whole frac x : List Char} {scale : Int} : Mantissa m whole frac → Exponent x scale →
      FloatLiteral (m ++ x) ⟨Decimal.digitValue (whole ++ frac), scale - frac.length⟩

/-- `lit` is the longest float literal at the front of `lit ++ rest`. -/
def LongestLiteral (lit rest : List Char) : Prop :=
  ∀ lit' rest' d', FloatLiteral lit' d' → lit' ++ rest' = lit ++ rest → lit'.length ≤ lit.length

/-- What reading a numeral at the front of a text can give, with offsets and lengths in bytes. -/
inductive NumeralOutcome : List Char → Except (Nat × Problem) (Nat × Float) → Prop
  /-- a point with no digit after it, nor before: a problem at the start -/
  | noDigits {rest : List Char} : NoDigitAhead rest →
      NumeralOutcome ('.' :: rest) (.error (0, .expectedDigits))
  /-- a mantissa, an exponent mark and all of the sign after it, then no digit: a problem where
  the exponent's digits should start -/
  | noExponentDigits {m whole frac sign rest : List Char} {e : Char} {neg : Bool} :
      Mantissa m whole frac → (e = 'e' ∨ e = 'E') → ExponentSign sign neg →
      (sign = [] → ∀ d ∈ rest.head?, d ≠ '+' ∧ d ≠ '-') → NoDigitAhead rest →
      NumeralOutcome (m ++ e :: sign ++ rest)
        (.error (byteLength (m ++ e :: sign), .expectedExponentDigits))
  /-- the longest float literal at the front, read as the float nearest to its value -/
  | literal {lit rest : List Char} {d : Decimal} : FloatLiteral lit d → LongestLiteral lit rest →
      NumeralOutcome (lit ++ rest) (.ok (byteLength lit, d.toFloat))

/-! ## Runs of digits -/

theorem noDigitAhead_cons {d : Char} {cs : List Char} (h : d.isDigit = false) :
    NoDigitAhead (d :: cs) := by
  simpa [NoDigitAhead] using h

theorem takeWhile_isDigit_of_noDigitAhead {s : List Char} (h : NoDigitAhead s) :
    s.takeWhile Char.isDigit = [] := by
  cases s with
  | nil => rfl
  | cons d s => simp [show d.isDigit = false by simpa [NoDigitAhead] using h]

theorem takeWhile_isDigit_append {ds s : List Char} (hds : AllDigits ds) (hs : NoDigitAhead s) :
    (ds ++ s).takeWhile Char.isDigit = ds := by
  rw [List.takeWhile_append_of_pos hds, takeWhile_isDigit_of_noDigitAhead hs, List.append_nil]

theorem length_le_takeWhile_isDigit {ds s : List Char} (hds : AllDigits ds) :
    ds.length ≤ ((ds ++ s).takeWhile Char.isDigit).length := by
  rw [List.takeWhile_append_of_pos hds, List.length_append]
  omega

theorem length_le_of_digits_append {ds ds' s s' : List Char} (hds : AllDigits ds)
    (hds' : AllDigits ds') (hs' : NoDigitAhead s') (h : ds ++ s = ds' ++ s') :
    ds.length ≤ ds'.length := by
  have hle := length_le_takeWhile_isDigit (s := s) hds
  rwa [h, takeWhile_isDigit_append hds' hs'] at hle

theorem allDigits_takeWhile (cs : List Char) : AllDigits (cs.takeWhile Char.isDigit) :=
  fun _ hd => List.all_eq_true.1 List.all_takeWhile _ hd

theorem noDigitAhead_drop_takeWhile (cs : List Char) :
    NoDigitAhead (cs.drop (cs.takeWhile Char.isDigit).length) := by
  intro d hd
  rw [drop_length_takeWhile] at hd
  obtain ⟨tl, htl⟩ := List.head?_eq_some_iff.1 hd
  have := List.head_dropWhile_not Char.isDigit (l := cs) (by simp [htl])
  simpa [htl] using this

/-! ## Pieces of a literal -/

theorem isDigit_of_mark {e : Char} (he : e = 'e' ∨ e = 'E') : e.isDigit = false := by
  rcases he with rfl | rfl <;> rfl

theorem AllDigits.byteLength_eq {ds : List Char} (h : AllDigits ds) : byteLength ds = ds.length :=
  byteLength_of_utf8Size fun d hd => utf8Size_of_isDigit (h d hd)

theorem Mantissa.byteLength_eq {m whole frac : List Char} (h : Mantissa m whole frac) :
    byteLength m = m.length := by
  cases h with
  | integer hds _ => exact hds.byteLength_eq
  | pointed hw hf _ =>
      have hpoint : '.'.utf8Size = 1 := rfl
      simp only [byteLength_append, byteLength_cons, hw.byteLength_eq, hf.byteLength_eq, hpoint,
        List.length_append, List.length_cons]
      omega

theorem ExponentSign.byteLength_eq {sign : List Char} {neg : Bool} (h : ExponentSign sign neg) :
    byteLength sign = sign.length := by
  cases h <;> rfl

theorem byteLength_mark_sign {e : Char} {sign : List Char} {neg : Bool} (he : e = 'e' ∨ e = 'E')
    (hs : ExponentSign sign neg) : byteLength (e :: sign) = sign.length + 1 := by
  have hbyte : e.utf8Size = 1 := by rcases he with rfl | rfl <;> rfl
  simp [hbyte, hs.byteLength_eq, Nat.add_comm]

theorem FloatLiteral.byteLength_eq {lit : List Char} {d : Decimal} (h : FloatLiteral lit d) :
    byteLength lit = lit.length := by
  cases h with
  | mk hm hx =>
    cases hx with
    | none => simpa using hm.byteLength_eq
    | mark he hs hds _ =>
      rw [byteLength_append, hm.byteLength_eq, byteLength_append, byteLength_mark_sign he hs,
        hds.byteLength_eq]
      simp [Nat.add_assoc, Nat.add_comm 1]

theorem FloatLiteral.plain {m whole frac : List Char} (hm : Mantissa m whole frac) :
    FloatLiteral m ⟨Decimal.digitValue (whole ++ frac), -(frac.length : Int)⟩ := by
  have h := FloatLiteral.mk hm .none
  rwa [List.append_nil, Int.zero_sub] at h

theorem FloatLiteral.exponent {m whole frac sign ds : List Char} {e : Char} {neg : Bool}
    (hm : Mantissa m whole frac) (he : e = 'e' ∨ e = 'E') (hs : ExponentSign sign neg)
    (hds : AllDigits ds) (hne : ds ≠ []) :
    FloatLiteral (m ++ e :: sign ++ ds) ⟨Decimal.digitValue (whole ++ frac),
      (if neg then -(Decimal.digitValue ds : Int) else Decimal.digitValue ds) - frac.length⟩ := by
  have h := FloatLiteral.mk hm (Exponent.mark he hs hds hne)
  rwa [← List.append_assoc] at h

theorem ExponentSign.eq_of_append {sign sign' ds ds' r r' : List Char} {neg neg' : Bool}
    (hs : ExponentSign sign neg) (hs' : ExponentSign sign' neg') (hds : AllDigits ds)
    (hne : ds ≠ []) (hds' : AllDigits ds') (hne' : ds' ≠ [])
    (h : sign' ++ ds' ++ r' = sign ++ ds ++ r) : sign' = sign := by
  obtain ⟨d, ds, rfl⟩ := List.exists_cons_of_ne_nil hne
  obtain ⟨d', ds', rfl⟩ := List.exists_cons_of_ne_nil hne'
  have hd := hds d (by simp)
  have hd' := hds' d' (by simp)
  cases hs <;> cases hs' <;> simp only [List.nil_append, List.cons_append, List.cons.injEq] at h
  case none.none | plus.plus | minus.minus => rfl
  case none.plus | none.minus =>
    obtain ⟨rfl, -⟩ := h
    exact absurd hd (by decide)
  case plus.none | minus.none =>
    obtain ⟨rfl, -⟩ := h
    exact absurd hd' (by decide)
  case plus.minus | minus.plus => exact absurd h.1 (by decide)

/-! ## The mantissa the reader takes -/

/-- `m` is the mantissa the reader takes at the front of `cs`: no mantissa there is longer, and
one that an exponent mark follows is `m` itself. -/
def GreedyMantissa (cs m : List Char) : Prop :=
  ∀ m' whole frac s, Mantissa m' whole frac → cs = m' ++ s →
    m'.length ≤ m.length ∧ ∀ e ∈ s.head?, (e = 'e' ∨ e = 'E') → m' = m

theorem noDigitAhead_of_mark {s : List Char} {e : Char} (hs : e ∈ s.head?)
    (he : e = 'e' ∨ e = 'E') : NoDigitAhead s := by
  intro d hd
  rw [Option.mem_def] at hs hd
  rw [hs] at hd
  cases hd
  exact isDigit_of_mark he

theorem split_takeWhile_isDigit (cs : List Char) :
    cs = cs.takeWhile Char.isDigit ++ cs.drop (cs.takeWhile Char.isDigit).length := by
  have h := List.take_append_drop (cs.takeWhile Char.isDigit).length cs
  rw [take_length_takeWhile] at h
  exact h.symm

theorem takeWhile_isDigit_of_point {cs whole rest : List Char} (hw : AllDigits whole)
    (hcs : cs = whole ++ '.' :: rest) : cs.takeWhile Char.isDigit = whole := by
  rw [hcs]
  exact takeWhile_isDigit_append hw (noDigitAhead_cons rfl)

/-- Where the whole digits are followed by a point, the reader's mantissa runs to the end of the
fraction digits. -/
theorem greedyMantissa_pointed {cs t : List Char}
    (hdot : cs.drop (cs.takeWhile Char.isDigit).length = '.' :: t) :
    GreedyMantissa cs (cs.takeWhile Char.isDigit ++ '.' :: t.takeWhile Char.isDigit) := by
  have hcs := split_takeWhile_isDigit cs
  rw [hdot] at hcs
  intro m' whole frac s hm' hs
  cases hm' with
  | integer hds _ =>
      have hle := length_le_takeWhile_isDigit (s := s) hds
      rw [← hs] at hle
      refine ⟨by simp only [List.length_append, List.length_cons]; omega, ?_⟩
      intro e he hmark
      have hwhole := takeWhile_isDigit_append hds (noDigitAhead_of_mark he hmark)
      rw [← hs] at hwhole
      rw [hwhole, hs, List.drop_left] at hdot
      rw [hdot] at he
      simp only [List.head?_cons, Option.mem_def, Option.some.injEq] at he
      rcases hmark with rfl | rfl <;> cases he
  | @pointed whole frac hw hf _ =>
      have hwhole := takeWhile_isDigit_of_point hw (hs.trans (List.append_assoc _ _ _))
      rw [hwhole] at hcs ⊢
      have ht : t = frac ++ s := by
        rw [hs, List.append_assoc, List.cons_append] at hcs
        exact (List.cons.inj (List.append_cancel_left hcs)).2.symm
      subst ht
      refine ⟨?_, ?_⟩
      · have := length_le_takeWhile_isDigit (s := s) hf
        simp only [List.length_append, List.length_cons]
        omega
      · intro e he hmark
        rw [takeWhile_isDigit_append hf (noDigitAhead_of_mark he hmark)]

/-- Where no point follows the whole digits, the reader's mantissa is those digits. -/
theorem greedyMantissa_integer {cs : List Char}
    (hnot : ∀ t, cs.drop (cs.takeWhile Char.isDigit).length ≠ '.' :: t) :
    GreedyMantissa cs (cs.takeWhile Char.isDigit) := by
  intro m' whole frac s hm' hs
  cases hm' with
  | integer hds _ =>
      have hle := length_le_takeWhile_isDigit (s := s) hds
      rw [← hs] at hle
      refine ⟨hle, ?_⟩
      intro e he hmark
      have hwhole := takeWhile_isDigit_append hds (noDigitAhead_of_mark he hmark)
      rw [← hs] at hwhole
      exact hwhole.symm
  | @pointed whole frac hw hf _ =>
      have hwhole := takeWhile_isDigit_of_point hw (hs.trans (List.append_assoc _ _ _))
      have hdot := hnot (frac ++ s)
      rw [hwhole, hs, List.append_assoc, List.drop_left, List.cons_append] at hdot
      exact absurd rfl hdot

/-! ## The literal the reader takes is the longest -/

/-- A mantissa that the reader takes and no exponent mark follows is the longest literal. -/
theorem longestLiteral_mantissa {m r : List Char} (hg : GreedyMantissa (m ++ r) m)
    (hr : ∀ e ∈ r.head?, ¬(e = 'e' ∨ e = 'E')) : LongestLiteral m r := by
  intro lit rest d hlit heq
  cases hlit with
  | @mk m' whole frac x scale hm' hx =>
    cases hx with
    | none => simpa using (hg m' whole frac rest hm' (by simpa using heq.symm)).1
    | @mark e sign ds neg he hs hds hne =>
      have hsplit : m ++ r = m' ++ e :: (sign ++ ds ++ rest) := by
        rw [← heq]
        simp
      have hm'm := (hg m' whole frac _ hm' hsplit).2 e (by simp) he
      subst hm'm
      have hr' := List.append_cancel_left hsplit
      exact absurd he (hr e (by simp [hr']))

/-- A literal with an exponent whose digits the reader takes in full is the longest literal. -/
theorem longestLiteral_exponent {m sign ds rest : List Char} {e : Char} {neg : Bool}
    (hg : GreedyMantissa (m ++ e :: sign ++ ds ++ rest) m) (hs : ExponentSign sign neg)
    (hds : AllDigits ds) (hne : ds ≠ []) (hrest : NoDigitAhead rest) :
    LongestLiteral (m ++ e :: sign ++ ds) rest := by
  intro lit rest' d hlit heq
  cases hlit with
  | @mk m' whole frac x scale hm' hx =>
    cases hx with
    | none =>
      have := (hg m' whole frac rest' hm' (by simpa using heq.symm)).1
      simp only [List.append_nil, List.length_append, List.length_cons] at this ⊢
      omega
    | @mark e' sign' ds' neg' he' hs' hds' hne' =>
      have hsplit : m ++ e :: sign ++ ds ++ rest = m' ++ e' :: (sign' ++ ds' ++ rest') := by
        rw [← heq]
        simp
      have hm'm := (hg m' whole frac _ hm' hsplit).2 e' (by simp) he'
      subst hm'm
      simp only [List.append_assoc, List.cons_append, List.append_cancel_left_eq,
        List.cons.injEq] at hsplit
      obtain ⟨rfl, htail⟩ := hsplit
      have hsign := hs.eq_of_append hs' hds hne hds' hne' (by simpa using htail.symm)
      subst hsign
      have hle := length_le_of_digits_append hds' hds hrest (List.append_cancel_left htail.symm)
      simp only [List.length_append, List.length_cons]
      omega

/-! ## The numeral reader -/

namespace NumeralOutcome

theorem noExponentDigits_at {cs m whole frac sign rest : List Char} {e : Char} {neg : Bool}
    {off : Nat} (hm : Mantissa m whole frac) (he : e = 'e' ∨ e = 'E') (hs : ExponentSign sign neg)
    (hsign : sign = [] → ∀ d ∈ rest.head?, d ≠ '+' ∧ d ≠ '-') (hrest : NoDigitAhead rest)
    (hcs : cs = m ++ e :: sign ++ rest) (hoff : off = m.length + 1 + sign.length) :
    NumeralOutcome cs (.error (off, .expectedExponentDigits)) := by
  have hbytes : byteLength (m ++ e :: sign) = off := by
    rw [byteLength_append, hm.byteLength_eq, byteLength_mark_sign he hs, hoff]
    omega
  subst hcs
  rw [← hbytes]
  exact noExponentDigits hm he hs hsign hrest

theorem literal_at {cs lit rest : List Char} {d : Decimal} {n : Nat} {v : Float}
    (hlit : FloatLiteral lit d) (hlong : LongestLiteral lit rest) (hcs : cs = lit ++ rest)
    (hn : n = lit.length) (hv : v = d.toFloat) : NumeralOutcome cs (.ok (n, v)) := by
  subst hcs hv
  rw [hn, ← hlit.byteLength_eq]
  exact literal hlit hlong

end NumeralOutcome

theorem head_ne_sign {r : List Char} (hplus : ∀ tail, r = '+' :: tail → False)
    (hminus : ∀ tail, r = '-' :: tail → False) : ∀ d ∈ r.head?, d ≠ '+' ∧ d ≠ '-' := by
  intro d hd
  obtain ⟨tail, rfl⟩ : ∃ tail, r = d :: tail := by
    cases r with
    | nil => simp at hd
    | cons d' tail => exact ⟨tail, by simpa using hd⟩
  exact ⟨fun h => hplus tail (by rw [h]), fun h => hminus tail (by rw [h])⟩

/-- After a mantissa and an exponent mark, the reader takes the sign and then the digits that
follow: without any, it stops where they should start; with some, the literal ends with them. -/
theorem exponent_outcome {m whole frac sign v : List Char} {e : Char} {neg : Bool} {k : Nat}
    (hs : ExponentSign sign neg) (hm : Mantissa m whole frac)
    (hg : GreedyMantissa (m ++ e :: (sign ++ v)) m) (he : e = 'e' ∨ e = 'E')
    (hsign : sign = [] → ∀ d ∈ v.head?, d ≠ '+' ∧ d ≠ '-') (hk : m.length = k) :
    NumeralOutcome (m ++ e :: (sign ++ v))
      (if (v.takeWhile Char.isDigit).isEmpty = true then
        .error (k + 1 + sign.length, .expectedExponentDigits)
      else
        .ok (k + 1 + sign.length + (v.takeWhile Char.isDigit).length,
          (Decimal.mk (Decimal.digitValue (whole ++ frac))
            ((if neg = true then -(Decimal.digitValue (v.takeWhile Char.isDigit) : Int)
              else Decimal.digitValue (v.takeWhile Char.isDigit)) - frac.length)).toFloat)) := by
  have hds := allDigits_takeWhile v
  have hv := split_takeWhile_isDigit v
  have hrest := noDigitAhead_drop_takeWhile v
  generalize v.takeWhile Char.isDigit = ds at *
  generalize v.drop ds.length = rest at *
  subst hv
  split
  case isTrue hnone =>
    rw [List.isEmpty_iff] at hnone
    subst hnone
    exact NumeralOutcome.noExponentDigits_at hm he hs (by simpa using hsign) hrest (by simp)
      (by rw [hk])
  case isFalse hsome =>
    have hne : ds ≠ [] := by simpa using hsome
    refine NumeralOutcome.literal_at (FloatLiteral.exponent hm he hs hds hne)
      (longestLiteral_exponent (by simpa using hg) hs hds hne hrest) (by simp) ?_ rfl
    simp only [List.length_append, List.length_cons, hk]
    omega

/-- Read from a digit or a point, a numeral is the longest float literal at the front of the text,
read as the float nearest to its value; or there is no digit on either side of the point, a
problem at the start; or no digit follows an exponent mark and its sign, a problem where the digits
should start. -/
theorem readNumeral_matchesFloatGrammar (c : Char) (cs : List Char)
    (hc : (c.isDigit || c = '.') = true) : NumeralOutcome (c :: cs) (readNumeral (c :: cs)) := by
  unfold readNumeral
  dsimp only
  have hW := allDigits_takeWhile (c :: cs)
  have hcs := split_takeWhile_isDigit (c :: cs)
  -- the mantissa: the whole digits `W`, then a point and the fraction digits `F`, or no point
  split <;> dsimp only
  case' h_1 t hdot =>
    have hg := greedyMantissa_pointed hdot
    rw [hdot] at hcs
    have hF := allDigits_takeWhile t
    have ht := split_takeWhile_isDigit t
    have hafter := noDigitAhead_drop_takeWhile t
    generalize (c :: cs).takeWhile Char.isDigit = W at *
    generalize t.takeWhile Char.isDigit = F at *
    generalize t.drop F.length = u at ht hafter
    subst ht
    split
    case isTrue hnone =>
      simp only [Bool.and_eq_true, List.isEmpty_iff] at hnone
      obtain ⟨rfl, rfl⟩ := hnone
      rw [hcs, List.nil_append]
      exact .noDigits hafter
    case' isFalse hsome =>
      have hm : Mantissa (W ++ '.' :: F) W F := .pointed hW hF (by simpa using hsome)
      have hk : (W ++ '.' :: F).length = W.length + 1 + F.length := by
        simp only [List.length_append, List.length_cons]
        omega
      rw [show c :: cs = (W ++ '.' :: F) ++ u by simp [hcs]] at hg ⊢
      rw [show ((W ++ '.' :: F) ++ u).drop (W.length + 1 + F.length) = u by rw [← hk]; simp]
  case' h_2 hnot =>
    have hg := greedyMantissa_integer hnot
    have hafter := noDigitAhead_drop_takeWhile (c :: cs)
    generalize (c :: cs).takeWhile Char.isDigit = W at *
    generalize (c :: cs).drop W.length = u at hcs hafter hnot
    split
    case isTrue hnone =>
      simp only [Bool.and_eq_true, List.isEmpty_iff] at hnone
      obtain ⟨rfl, -⟩ := hnone
      rw [List.nil_append] at hcs
      subst hcs
      have hpoint : c = '.' := by simpa [hafter c rfl] using hc
      exact (hnot cs (by rw [hpoint])).elim
    case' isFalse hsome =>
      have hm : Mantissa W W [] := .integer hW (by simpa using hsome)
      have hk : W.length = W.length + 0 + ([] : List Char).length := rfl
      rw [hcs] at hg ⊢
  -- what follows the mantissa: the end, a character that is no exponent mark, or an exponent
  all_goals
    split
    case h_2 =>
      exact NumeralOutcome.literal_at (.plain hm) (longestLiteral_mantissa hg (by simp)) rfl
        hk.symm rfl
    case h_1 e r =>
      split
      case isFalse hmark =>
        exact NumeralOutcome.literal_at (.plain hm)
          (longestLiteral_mantissa hg (by simpa using hmark)) rfl hk.symm rfl
      case isTrue hmark =>
        have he : e = 'e' ∨ e = 'E' := by simpa using hmark
        split <;> dsimp only
        case h_1 tail => exact exponent_outcome .plus hm hg he (by simp) hk
        case h_2 tail => exact exponent_outcome .minus hm hg he (by simp) hk
        case h_3 hplus hminus =>
          exact exponent_outcome .none hm hg he (fun _ => head_ne_sign hplus hminus) hk

theorem readNumeral_matchesFloatGrammar_scientific :
    ('1'.isDigit || '1' = '.') = true ∧
      NumeralOutcome ['1', '.', '5', 'e', '-', '3'] (readNumeral ['1', '.', '5', 'e', '-', '3']) :=
  ⟨by decide, readNumeral_matchesFloatGrammar '1' ['.', '5', 'e', '-', '3'] (by decide)⟩

/-- A sign with no digit after it: the problem is reported after the sign. -/
example : readNumeral ['1', 'e', '+'] = .error (3, .expectedExponentDigits) := rfl

end Recalc.Formula
