import Recalc.Proofs.NestingLimit

/-! # The depth counter of a reading with no limit: its peak decides every reading under a limit -/

namespace Recalc.Formula

/-- A run of a reader with no nesting limit, as far as the count of levels goes: the largest count
it reaches, and the tokens it leaves if it reads its phrase (none if it ends in a syntax error). -/
abbrev Levels (ts : Tokens) := Nat × Option { r : Tokens // r.size ≤ ts.size }

mutual

def levelsSum (depth : Nat) (ts : Tokens) : Levels ts :=
  match levelsProduct depth ts with
  | (k, none) => (k, none)
  | (k, some ⟨r, hr⟩) =>
    match levelsSumTail depth r with
    | (k', none) => (max k k', none)
    | (k', some ⟨r', hr'⟩) => (max k k', some ⟨r', Nat.le_trans hr' hr⟩)
termination_by ts.size * 8 + 6
decreasing_by all_goals omega

def levelsSumTail (depth : Nat) (ts : Tokens) : Levels ts :=
  match ts with
  | .cons t rest =>
    match sumOp? t.symbol with
    | some _ =>
      match advance rest with
      | .error _ => (0, none)
      | .ok ⟨r1, h1⟩ =>
        match levelsProduct depth r1 with
        | (k, none) => (k, none)
        | (k, some ⟨r2, h2⟩) =>
          match levelsSumTail depth r2 with
          | (k', none) => (max k k', none)
          | (k', some ⟨r3, h3⟩) => (max k k', some ⟨r3, by simp only [Tokens.size]; omega⟩)
    | none => (0, some ⟨.cons t rest, Nat.le_refl _⟩)
  | ts => (0, some ⟨ts, Nat.le_refl _⟩)
termination_by ts.size * 8 + 5
decreasing_by all_goals (simp only [Tokens.size]; omega)

def levelsProduct (depth : Nat) (ts : Tokens) : Levels ts :=
  match levelsUnary depth ts with
  | (k, none) => (k, none)
  | (k, some ⟨r, hr⟩) =>
    match levelsProductTail depth r with
    | (k', none) => (max k k', none)
    | (k', some ⟨r', hr'⟩) => (max k k', some ⟨r', Nat.le_trans hr' hr⟩)
termination_by ts.size * 8 + 4
decreasing_by all_goals omega

def levelsProductTail (depth : Nat) (ts : Tokens) : Levels ts :=
  match ts with
  | .cons t rest =>
    match productOp? t.symbol with
    | some _ =>
      match advance rest with
      | .error _ => (0, none)
      | .ok ⟨r1, h1⟩ =>
        match levelsUnary depth r1 with
        | (k, none) => (k, none)
        | (k, some ⟨r2, h2⟩) =>
          match levelsProductTail depth r2 with
          | (k', none) => (max k k', none)
          | (k', some ⟨r3, h3⟩) => (max k k', some ⟨r3, by simp only [Tokens.size]; omega⟩)
    | none => (0, some ⟨.cons t rest, Nat.le_refl _⟩)
  | ts => (0, some ⟨ts, Nat.le_refl _⟩)
termination_by ts.size * 8 + 3
decreasing_by all_goals (simp only [Tokens.size]; omega)

/-- Each entry into `unary` moves the counter to `depth + 1`. -/
def levelsUnary (depth : Nat) (ts : Tokens) : Levels ts :=
  match ts with
  | .cons ⟨.minus, _⟩ rest =>
    match advance rest with
    | .error _ => (depth + 1, none)
    | .ok ⟨r1, h1⟩ =>
      match levelsUnary (depth + 1) r1 with
      | (k, none) => (max (depth + 1) k, none)
      | (k, some ⟨r2, h2⟩) =>
        (max (depth + 1) k, some ⟨r2, by simp only [Tokens.size]; omega⟩)
  | ts =>
    match levelsPower (depth + 1) ts with
    | (k, r) => (max (depth + 1) k, r)
termination_by ts.size * 8 + 2
decreasing_by all_goals (try simp only [Tokens.size]); all_goals omega

def levelsPower (depth : Nat) (ts : Tokens) : Levels ts :=
  match levelsPrimary depth ts with
  | (k, none) => (k, none)
  | (k, some ⟨r, hr⟩) =>
    match hc : r with
    | .cons ⟨.caret, _⟩ rest =>
      match advance rest with
      | .error _ => (k, none)
      | .ok ⟨r1, h1⟩ =>
        match levelsUnary depth r1 with
        | (k', none) => (max k k', none)
        | (k', some ⟨r2, h2⟩) =>
          (max k k', some ⟨r2, by subst hc; simp only [Tokens.size] at hr; omega⟩)
    | other => (k, some ⟨other, hr⟩)
termination_by ts.size * 8 + 1
decreasing_by
  all_goals (try subst hc)
  all_goals (try simp only [Tokens.size] at *)
  all_goals omega

def levelsPrimary (depth : Nat) (ts : Tokens) : Levels ts :=
  match ts with
  | .cons ⟨.number _, _⟩ rest =>
    match advance rest with
    | .error _ => (0, none)
    | .ok ⟨r, h⟩ => (0, some ⟨r, by simp only [Tokens.size]; omega⟩)
  | .cons ⟨.name _, _⟩ rest =>
    match advance rest with
    | .error _ => (0, none)
    | .ok ⟨r, h⟩ => (0, some ⟨r, by simp only [Tokens.size]; omega⟩)
  | .cons ⟨.openParen, _⟩ rest =>
    match advance rest with
    | .error _ => (0, none)
    | .ok ⟨r1, h1⟩ =>
      match levelsSum depth r1 with
      | (k, none) => (k, none)
      | (k, some ⟨r2, h2⟩) =>
        match hc : r2 with
        | .cons ⟨.closeParen, _⟩ rest' =>
          match advance rest' with
          | .error _ => (k, none)
          | .ok ⟨r3, h3⟩ => (k, some ⟨r3, by subst hc; simp only [Tokens.size] at h2 ⊢; omega⟩)
        | _ => (k, none)
  | _ => (0, none)
termination_by ts.size * 8
decreasing_by all_goals (simp only [Tokens.size]; omega)

end

/-- The largest value the depth counter reaches while a text is read with no nesting limit: zero
for a text refused before its first token is read. -/
def peakDepth (L : Nat) (s : String) : Nat :=
  if L < s.utf8ByteSize then 0
  else if Text.isBlankText s then 0
  else
    match Tokens.scan s with
    | .fault _ _ => 0
    | ts => (levelsSum 0 ts).1

/-! ## Runs in sequence -/

def Levels.plain {ts : Tokens} (c : Levels ts) : Nat × Option Tokens := (c.1, c.2.map Subtype.val)

/-- A run that goes on with `next` on the tokens the first part left, if it read its phrase; its
largest count is the larger of the two parts'. -/
def andThen (c : Nat × Option Tokens) (next : Tokens → Nat × Option Tokens) : Nat × Option Tokens :=
  match c.2 with
  | none => c
  | some r => (max c.1 (next r).1, (next r).2)

def advanced (rest : Tokens) : Nat × Option Tokens := (0, ((advance rest).map Subtype.val).toOption)

section Steps

variable (depth : Nat)

theorem plain_levelsSum (ts : Tokens) :
    (levelsSum depth ts).plain =
      andThen (levelsProduct depth ts).plain fun r => (levelsSumTail depth r).plain := by
  rw [levelsSum]
  rcases levelsProduct depth ts with ⟨k, _ | ⟨r, hr⟩⟩
  · rfl
  · simp only [Levels.plain, andThen, Option.map]
    rcases levelsSumTail depth r with ⟨k', _ | ⟨r', hr'⟩⟩ <;> rfl

theorem plain_levelsProduct (ts : Tokens) :
    (levelsProduct depth ts).plain =
      andThen (levelsUnary depth ts).plain fun r => (levelsProductTail depth r).plain := by
  rw [levelsProduct]
  rcases levelsUnary depth ts with ⟨k, _ | ⟨r, hr⟩⟩
  · rfl
  · simp only [Levels.plain, andThen, Option.map]
    rcases levelsProductTail depth r with ⟨k', _ | ⟨r', hr'⟩⟩ <;> rfl

theorem plain_levelsSumTail_of_op {t : Token} {op : BinOp} (h : sumOp? t.symbol = some op)
    (rest : Tokens) :
    (levelsSumTail depth (.cons t rest)).plain =
      andThen (advanced rest) fun r1 =>
        andThen (levelsProduct depth r1).plain fun r2 => (levelsSumTail depth r2).plain := by
  rw [levelsSumTail]
  simp only [h, advanced]
  rcases advance rest with e | ⟨r1, h1⟩
  · rfl
  · simp only [Except.map, Except.toOption, andThen, Nat.zero_max]
    rcases levelsProduct depth r1 with ⟨k, _ | ⟨r2, h2⟩⟩
    · rfl
    · simp only [Levels.plain, Option.map]
      rcases levelsSumTail depth r2 with ⟨k', _ | ⟨r3, h3⟩⟩ <;> rfl

theorem plain_levelsProductTail_of_op {t : Token} {op : BinOp}
    (h : productOp? t.symbol = some op) (rest : Tokens) :
    (levelsProductTail depth (.cons t rest)).plain =
      andThen (advanced rest) fun r1 =>
        andThen (levelsUnary depth r1).plain fun r2 => (levelsProductTail depth r2).plain := by
  rw [levelsProductTail]
  simp only [h, advanced]
  rcases advance rest with e | ⟨r1, h1⟩
  · rfl
  · simp only [Except.map, Except.toOption, andThen, Nat.zero_max]
    rcases levelsUnary depth r1 with ⟨k, _ | ⟨r2, h2⟩⟩
    · rfl
    · simp only [Levels.plain, Option.map]
      rcases levelsProductTail depth r2 with ⟨k', _ | ⟨r3, h3⟩⟩ <;> rfl

theorem plain_levelsSumTail_of_none {t : Token} (h : sumOp? t.symbol = none) (rest : Tokens) :
    (levelsSumTail depth (.cons t rest)).plain = (0, some (.cons t rest)) := by
  rw [levelsSumTail]
  simp only [h]
  rfl

theorem plain_levelsProductTail_of_none {t : Token} (h : productOp? t.symbol = none)
    (rest : Tokens) : (levelsProductTail depth (.cons t rest)).plain = (0, some (.cons t rest)) := by
  rw [levelsProductTail]
  simp only [h]
  rfl

theorem plain_levelsSumTail_of_not_cons (ts : Tokens) (h : ∀ t rest, ts ≠ .cons t rest) :
    (levelsSumTail depth ts).plain = (0, some ts) := by
  unfold levelsSumTail
  split
  · exact absurd rfl (h _ _)
  · rfl

theorem plain_levelsProductTail_of_not_cons (ts : Tokens) (h : ∀ t rest, ts ≠ .cons t rest) :
    (levelsProductTail depth ts).plain = (0, some ts) := by
  unfold levelsProductTail
  split
  · exact absurd rfl (h _ _)
  · rfl

/-- The count of `unary` is at least the level it enters. -/
def raise (n : Nat) (c : Nat × Option Tokens) : Nat × Option Tokens := (max n c.1, c.2)

theorem plain_levelsUnary_minus (pos : Nat) (rest : Tokens) :
    (levelsUnary depth (.cons ⟨.minus, pos⟩ rest)).plain =
      raise (depth + 1) (andThen (advanced rest) fun r1 => (levelsUnary (depth + 1) r1).plain) := by
  rw [levelsUnary]
  simp only [advanced]
  rcases advance rest with e | ⟨r1, h1⟩
  · simp [Except.map, Except.toOption, andThen, raise, Levels.plain]
  · simp only [Except.map, Except.toOption, andThen, Nat.zero_max, raise]
    rcases levelsUnary (depth + 1) r1 with ⟨k, _ | ⟨r2, h2⟩⟩ <;> rfl

theorem plain_levelsUnary_of_not_minus {ts : Tokens} (hts : ∀ pos rest, ts ≠ .cons ⟨.minus, pos⟩ rest) :
    (levelsUnary depth ts).plain = raise (depth + 1) (levelsPower (depth + 1) ts).plain := by
  unfold levelsUnary
  split
  · exact absurd rfl (hts _ _)
  · rfl

def levelsExponent : Tokens → Nat × Option Tokens
  | .cons ⟨.caret, _⟩ rest => andThen (advanced rest) fun r1 => (levelsUnary depth r1).plain
  | r => (0, some r)

theorem plain_levelsPower (ts : Tokens) :
    (levelsPower depth ts).plain =
      andThen (levelsPrimary depth ts).plain (levelsExponent depth) := by
  rw [levelsPower]
  rcases levelsPrimary depth ts with ⟨k, _ | ⟨r, hr⟩⟩
  · rfl
  · simp only [Levels.plain, andThen, Option.map]
    rcases r with pos | ⟨pos, p⟩ | ⟨⟨s, pos⟩, rest⟩
    · simp [levelsExponent]
    · simp [levelsExponent]
    · cases s
      case caret =>
        simp only [levelsExponent, advanced]
        rcases advance rest with e | ⟨r1, h1⟩
        · simp [Except.map, Except.toOption, andThen]
        · simp only [Except.map, Except.toOption, andThen, Nat.zero_max]
          rcases levelsUnary depth r1 with ⟨k', _ | ⟨r2, h2⟩⟩ <;> rfl
      all_goals simp [levelsExponent]

def levelsClosing : Tokens → Nat × Option Tokens
  | .cons ⟨.closeParen, _⟩ rest => advanced rest
  | _ => (0, none)

theorem plain_levelsPrimary_number (v : Float) (pos : Nat) (rest : Tokens) :
    (levelsPrimary depth (.cons ⟨.number v, pos⟩ rest)).plain = advanced rest := by
  rw [levelsPrimary, advanced]
  rcases advance rest with e | ⟨r, h⟩ <;> rfl

theorem plain_levelsPrimary_name (x : String) (pos : Nat) (rest : Tokens) :
    (levelsPrimary depth (.cons ⟨.name x, pos⟩ rest)).plain = advanced rest := by
  rw [levelsPrimary, advanced]
  rcases advance rest with e | ⟨r, h⟩ <;> rfl

theorem plain_levelsPrimary_paren (pos : Nat) (rest : Tokens) :
    (levelsPrimary depth (.cons ⟨.openParen, pos⟩ rest)).plain =
      andThen (advanced rest) fun r1 => andThen (levelsSum depth r1).plain levelsClosing := by
  rw [levelsPrimary]
  simp only [advanced]
  rcases advance rest with e | ⟨r1, h1⟩
  · rfl
  · simp only [Except.map, Except.toOption, andThen, Nat.zero_max]
    rcases levelsSum depth r1 with ⟨k, _ | ⟨r2, h2⟩⟩
    · rfl
    · simp only [Levels.plain, Option.map]
      rcases r2 with pos' | ⟨pos', p⟩ | ⟨⟨s, pos'⟩, rest'⟩
      · simp [levelsClosing]
      · simp [levelsClosing]
      · cases s
        case closeParen =>
          simp only [levelsClosing, advanced]
          rcases advance rest' with e | ⟨r3, h3⟩
          · simp [Except.map, Except.toOption]
          · simp [Except.map, Except.toOption]
        all_goals simp [levelsClosing]

end Steps

/-! ## The run with no limit decides every run under a limit -/

/-- What the count `c` of a run with no limit says of the reading `x` of the same tokens under the
limit `d`: below the largest count the reading stops at `d`; from it on the reading stops nowhere
and ends where the run ends. -/
def Governs {α : Type} (rest : α → Tokens) (d : Nat) (c : Nat × Option Tokens)
    (x : Except Error α) : Prop :=
  (d < c.1 → x = .error (.nestingTooDeep d)) ∧ (c.1 ≤ d → NoStop x ∧ x.toOption.map rest = c.2)

namespace Governs

variable {α β : Type} {rest : α → Tokens} {d : Nat}

theorem ok {a : α} {r : Tokens} (h : rest a = r) : Governs rest d (0, some r) (.ok a) :=
  ⟨fun hlt => absurd hlt (Nat.not_lt_zero d), fun _ => ⟨.ok a, by rw [← h]; rfl⟩⟩

theorem malformed (pos : Nat) (p : Problem) :
    Governs rest d (0, none) (.error (.malformed pos p)) :=
  ⟨fun h => absurd h (Nat.not_lt_zero d), fun _ => ⟨.malformed pos p, rfl⟩⟩

theorem of_advance (r : Tokens) : Governs id d (advanced r) ((advance r).map Subtype.val) :=
  ⟨fun h => absurd h (Nat.not_lt_zero d), fun _ => ⟨noStop_advance r, by simp [advanced]⟩⟩

theorem stopped {c : Nat × Option Tokens} {n : Nat} (hn : d < n) :
    Governs rest d (raise n c) (.error (.nestingTooDeep d)) :=
  ⟨fun _ => rfl, fun hle => absurd hle (by simp only [raise]; omega)⟩

theorem raise_le {x : Except Error α} {c : Nat × Option Tokens} (hx : Governs rest d c x)
    {n : Nat} (hn : n ≤ d) : Governs rest d (raise n c) x :=
  ⟨fun hlt => hx.1 (by simp only [raise] at hlt; omega),
    fun hle => hx.2 (by simp only [raise] at hle; omega)⟩

theorem map {rest' : β → Tokens} {x : Except Error α} {c : Nat × Option Tokens}
    (hx : Governs rest d c x) (g : α → β) (hg : ∀ a, rest' (g a) = rest a) :
    Governs rest' d c (x.map g) := by
  refine ⟨fun hlt => by rw [hx.1 hlt]; rfl, fun hle => ⟨(hx.2 hle).1.map g, ?_⟩⟩
  have hend := (hx.2 hle).2
  cases x with
  | error e => exact hend
  | ok a => simpa [Except.map, Except.toOption, hg] using hend

/-- A reading in two parts follows a run in two parts: it stops where the first part's count
passes the limit, or, the first part read, where the second's does. -/
theorem bind {rest' : β → Tokens} {x : Except Error α} {f : α → Except Error β}
    {c : Nat × Option Tokens} {next : Tokens → Nat × Option Tokens} (hx : Governs rest d c x)
    (hf : ∀ a, x = .ok a → Governs rest' d (next (rest a)) (f a)) :
    Governs rest' d (andThen c next) (x.bind f) := by
  obtain ⟨k, o⟩ := c
  cases o with
  | none =>
      refine ⟨fun hlt => by rw [hx.1 hlt]; rfl, fun hle => ?_⟩
      obtain ⟨hno, hend⟩ := hx.2 hle
      cases x with
      | error e => exact ⟨NoStop.of_error hno, rfl⟩
      | ok a => cases hend
  | some r =>
      show Governs rest' d (max k (next r).1, (next r).2) (x.bind f)
      refine ⟨fun hlt => ?_, fun hle => ?_⟩
      · by_cases hk : d < k
        · rw [hx.1 hk]
          rfl
        · obtain ⟨-, hend⟩ := hx.2 (Nat.le_of_not_lt hk)
          cases x with
          | error e => cases hend
          | ok a =>
              obtain rfl : rest a = r := Option.some.inj hend
              exact (hf a rfl).1 (by omega)
      · obtain ⟨-, hend⟩ := hx.2 (by omega)
        cases x with
        | error e => cases hend
        | ok a =>
            obtain rfl : rest a = r := Option.some.inj hend
            exact (hf a rfl).2 (by omega)

end Governs

theorem governs_closing {d : Nat} (opened : Nat) (inner : Formula) (r : Tokens) :
    Governs Prod.snd d (levelsClosing r) (closing opened inner r) := by
  rcases r with pos | ⟨pos, p⟩ | ⟨⟨s, pos⟩, rest⟩
  · exact .malformed _ _
  · exact .malformed _ _
  · cases s
    case closeParen => exact (Governs.of_advance rest).map _ fun _ => rfl
    all_goals exact .malformed _ _

def Rule.levels (depth : Nat) : (rule : Rule) → (ts : Tokens) → Levels ts
  | .sum => levelsSum depth
  | .sumTail _ => levelsSumTail depth
  | .product => levelsProduct depth
  | .productTail _ => levelsProductTail depth
  | .unary => levelsUnary depth
  | .power => levelsPower depth
  | .primary => levelsPrimary depth

/-- On every call of weight below `n`, the run with no limit decides the reading under `d`. -/
def GovernedBelow (d n : Nat) : Prop :=
  ∀ rule ts, Rule.weight rule ts < n → ∀ depth,
    Governs Prod.snd d (rule.levels depth ts).plain (rule.reader d depth ts).plain

section Governed

variable {d : Nat} {ts : Tokens}

theorem governed_sum (ih : GovernedBelow d (Rule.sum.weight ts)) (depth : Nat) :
    Governs Prod.snd d (levelsSum depth ts).plain (sum d depth ts).plain := by
  rw [plain_levelsSum, plain_sum]
  refine (ih .product ts (Rule.weight_lt_of_rank_lt (Nat.le_refl _) (by decide)) depth).bind
    fun p hp => ?_
  exact ih (.sumTail p.1) p.2
    (Rule.weight_lt_of_rank_lt (Parsed.size_le_of_plain hp) (by simp [Rule.rank])) depth

theorem governed_product (ih : GovernedBelow d (Rule.product.weight ts)) (depth : Nat) :
    Governs Prod.snd d (levelsProduct depth ts).plain (product d depth ts).plain := by
  rw [plain_levelsProduct, plain_product]
  refine (ih .unary ts (Rule.weight_lt_of_rank_lt (Nat.le_refl _) (by decide)) depth).bind
    fun p hp => ?_
  exact ih (.productTail p.1) p.2
    (Rule.weight_lt_of_rank_lt (Parsed.size_le_of_plain hp) (by simp [Rule.rank])) depth

theorem governed_sumTail (a : Formula) (ih : GovernedBelow d ((Rule.sumTail a).weight ts))
    (depth : Nat) :
    Governs Prod.snd d (levelsSumTail depth ts).plain (sumTail d depth a ts).plain := by
  by_cases hc : ∃ tok rest, ts = .cons tok rest
  · obtain ⟨tok, rest, rfl⟩ := hc
    cases hop : sumOp? tok.symbol with
    | none =>
        rw [plain_levelsSumTail_of_none depth hop, plain_sumTail_of_none d depth hop]
        exact .ok rfl
    | some op =>
        rw [plain_levelsSumTail_of_op depth hop, plain_sumTail_of_op d depth hop]
        refine (Governs.of_advance rest).bind fun r1 hr1 => ?_
        cases eq_of_map_advance hr1
        refine (ih .product rest (Rule.weight_lt_of_size_lt (Nat.lt_succ_self _)) depth).bind
          fun p hp => ?_
        exact ih (.sumTail (.bin op a p.1)) p.2
          (Rule.weight_lt_of_size_lt (Nat.lt_succ_of_le (Parsed.size_le_of_plain hp))) depth
  · have hts : ∀ tok rest, ts ≠ .cons tok rest := fun tok rest h => hc ⟨tok, rest, h⟩
    rw [plain_levelsSumTail_of_not_cons depth ts hts, plain_sumTail_of_not_cons d depth ts hts]
    exact .ok rfl

theorem governed_productTail (a : Formula) (ih : GovernedBelow d ((Rule.productTail a).weight ts))
    (depth : Nat) :
    Governs Prod.snd d (levelsProductTail depth ts).plain (productTail d depth a ts).plain := by
  by_cases hc : ∃ tok rest, ts = .cons tok rest
  · obtain ⟨tok, rest, rfl⟩ := hc
    cases hop : productOp? tok.symbol with
    | none =>
        rw [plain_levelsProductTail_of_none depth hop, plain_productTail_of_none d depth hop]
        exact .ok rfl
    | some op =>
        rw [plain_levelsProductTail_of_op depth hop, plain_productTail_of_op d depth hop]
        refine (Governs.of_advance rest).bind fun r1 hr1 => ?_
        cases eq_of_map_advance hr1
        refine (ih .unary rest (Rule.weight_lt_of_size_lt (Nat.lt_succ_self _)) depth).bind
          fun p hp => ?_
        exact ih (.productTail (.bin op a p.1)) p.2
          (Rule.weight_lt_of_size_lt (Nat.lt_succ_of_le (Parsed.size_le_of_plain hp))) depth
  · have hts : ∀ tok rest, ts ≠ .cons tok rest := fun tok rest h => hc ⟨tok, rest, h⟩
    rw [plain_levelsProductTail_of_not_cons depth ts hts,
      plain_productTail_of_not_cons d depth ts hts]
    exact .ok rfl

/-- The only step that reads the limit: the count moves to `depth + 1` before any token is read,
and the reading under `d` stops there exactly when the run's count passes `d`. -/
theorem governed_unary (ih : GovernedBelow d (Rule.unary.weight ts)) (depth : Nat) :
    Governs Prod.snd d (levelsUnary depth ts).plain (unary d depth ts).plain := by
  by_cases hm : ∃ pos rest, ts = .cons ⟨.minus, pos⟩ rest
  · obtain ⟨pos, rest, rfl⟩ := hm
    rw [plain_levelsUnary_minus]
    by_cases hlt : d < depth + 1
    · rw [plain_unary_of_lt d depth hlt]
      exact .stopped hlt
    · rw [plain_unary_minus d depth hlt]
      refine Governs.raise_le ((Governs.of_advance rest).bind fun r1 hr1 => ?_) (by omega)
      cases eq_of_map_advance hr1
      exact (ih .unary rest (Rule.weight_lt_of_size_lt (Nat.lt_succ_self _)) (depth + 1)).map _
        fun _ => rfl
  · have hts : ∀ pos rest, ts ≠ .cons ⟨.minus, pos⟩ rest :=
      fun pos rest h => hm ⟨pos, rest, h⟩
    rw [plain_levelsUnary_of_not_minus depth hts]
    by_cases hlt : d < depth + 1
    · rw [plain_unary_of_lt d depth hlt]
      exact .stopped hlt
    · rw [plain_unary_of_not_minus d depth hlt hts]
      exact Governs.raise_le (ih .power ts (Rule.weight_lt_of_rank_lt (Nat.le_refl _)
        (by decide)) (depth + 1)) (by omega)

theorem governed_power (ih : GovernedBelow d (Rule.power.weight ts)) (depth : Nat) :
    Governs Prod.snd d (levelsPower depth ts).plain (power d depth ts).plain := by
  rw [plain_levelsPower, plain_power]
  refine (ih .primary ts (Rule.weight_lt_of_rank_lt (Nat.le_refl _) (by decide)) depth).bind
    fun p hp => ?_
  obtain ⟨base, r⟩ := p
  have hr : r.size < ts.size := size_lt_of_primary hp
  rcases r with pos | ⟨pos, q⟩ | ⟨⟨s, pos⟩, rest⟩
  · exact .ok rfl
  · exact .ok rfl
  · cases s
    case caret =>
      simp only [levelsExponent, exponent]
      refine (Governs.of_advance rest).bind fun r1 hr1 => ?_
      cases eq_of_map_advance hr1
      have hfewer : rest.size < ts.size := by
        simp only [Tokens.size] at hr
        omega
      exact (ih .unary rest (Rule.weight_lt_of_size_lt hfewer) depth).map _ fun _ => rfl
    all_goals exact .ok rfl

theorem governed_primary (ih : GovernedBelow d (Rule.primary.weight ts)) (depth : Nat) :
    Governs Prod.snd d (levelsPrimary depth ts).plain (primary d depth ts).plain := by
  rcases ts with pos | ⟨pos, p⟩ | ⟨⟨s, pos⟩, rest⟩
  · simp only [levelsPrimary, primary, Levels.plain, Parsed.plain, Except.map, Option.map]
    exact .malformed _ _
  · simp only [levelsPrimary, primary, Levels.plain, Parsed.plain, Except.map, Option.map]
    exact .malformed _ _
  · cases s
    case number v =>
      rw [plain_levelsPrimary_number, plain_primary_number]
      exact (Governs.of_advance rest).map _ fun _ => rfl
    case name x =>
      rw [plain_levelsPrimary_name, plain_primary_name]
      exact (Governs.of_advance rest).map _ fun _ => rfl
    case openParen =>
      rw [plain_levelsPrimary_paren, plain_primary_paren]
      refine (Governs.of_advance rest).bind fun r1 hr1 => ?_
      cases eq_of_map_advance hr1
      exact (ih .sum rest (Rule.weight_lt_of_size_lt (Nat.lt_succ_self _)) depth).bind
        fun q _ => governs_closing pos q.1 q.2
    all_goals
      simp only [levelsPrimary, primary, Levels.plain, Parsed.plain, Except.map, Option.map]
      exact .malformed _ _

end Governed

/-- Whatever the limit, the reader of every rule stops at the limit exactly when the count of the
same reading with no limit passes it, and otherwise ends where that reading ends. -/
theorem readers_governed (d : Nat) (rule : Rule) (ts : Tokens) (depth : Nat) :
    Governs Prod.snd d (rule.levels depth ts).plain (rule.reader d depth ts).plain := by
  induction rule, ts using Rule.weight_induction generalizing depth with
  | step rule ts ih =>
      cases rule with
      | sum => exact governed_sum ih depth
      | sumTail a => exact governed_sumTail a ih depth
      | product => exact governed_product ih depth
      | productTail a => exact governed_productTail a ih depth
      | unary => exact governed_unary ih depth
      | power => exact governed_power ih depth
      | primary => exact governed_primary ih depth

/-! ## The threshold of a text -/

section Text

variable {L : Nat} {s : String}

theorem peakDepth_of_read (hlen : s.utf8ByteSize ≤ L) (hblank : Text.isBlankText s = false)
    (hscan : ∀ pos p, Tokens.scan s ≠ .fault pos p) :
    peakDepth L s = (levelsSum 0 (Tokens.scan s)).1 := by
  unfold peakDepth
  rw [if_neg (by omega), if_neg (by simp [hblank])]
  split
  · rename_i pos p hs
    exact absurd hs (hscan pos p)
  · rfl

theorem peakDepth_of_not_read
    (h : ¬(s.utf8ByteSize ≤ L ∧ Text.isBlankText s = false ∧
      ∀ pos p, Tokens.scan s ≠ .fault pos p)) :
    peakDepth L s = 0 := by
  by_cases hlen : s.utf8ByteSize ≤ L
  · cases hblank : Text.isBlankText s
    · obtain ⟨pos, p, hs⟩ : ∃ pos p, Tokens.scan s = .fault pos p := by
        simpa [hlen, hblank] using h
      simp [peakDepth, hblank, hs, Nat.not_lt.2 hlen]
    · simp [peakDepth, hblank]
  · simp [peakDepth, Nat.lt_of_not_le hlen]

/-- Under the limit `d`, the reading of a text stops at `d` exactly when the depth counter of the
reading with no limit passes `d`. -/
theorem parse_governed (d : Nat) :
    (d < peakDepth L s → parse ⟨d, L⟩ s = .error (.nestingTooDeep d)) ∧
      (peakDepth L s ≤ d → NoStop (parse ⟨d, L⟩ s)) := by
  by_cases hread : s.utf8ByteSize ≤ L ∧ Text.isBlankText s = false ∧
      ∀ pos p, Tokens.scan s ≠ .fault pos p
  · obtain ⟨hlen, hblank, hscan⟩ := hread
    have hlen' : s.utf8ByteSize ≤ (⟨d, L⟩ : Limits).maxLength := hlen
    have hsum : Governs Prod.snd d (levelsSum 0 (Tokens.scan s)).plain
        (sum d 0 (Tokens.scan s)).plain :=
      readers_governed d .sum (Tokens.scan s) 0
    rw [parse_eq_bind hlen' hblank hscan, peakDepth_of_read hlen hblank hscan]
    refine ⟨fun hlt => ?_, fun hle => (hsum.2 hle).1.bind fun p _ => noStop_atEnd p.1 p.2⟩
    rw [hsum.1 hlt]
    rfl
  · rw [peakDepth_of_not_read hread]
    exact ⟨fun h => absurd h (Nat.not_lt_zero d), fun _ => (parse_of_not_read d d hread).2⟩

end Text

/-- The least nesting limit that does not stop the reading of a text is the largest value the
depth counter reaches when the text is read with no limit. -/
theorem depthReached_eq_peakDepth (L : Nat) (s : String) : depthReached L s = peakDepth L s := by
  apply Nat.le_antisymm
  · apply Nat.find_min'
    exact Bool.eq_false_iff.2 fun h =>
      (parse_governed (peakDepth L s)).2 (Nat.le_refl _) _ (stoppedAt_eq_true.1 h)
  · apply Nat.le_of_not_lt
    intro hlt
    exact (parse_of_depthReached_le (Nat.le_refl _)).2 _ ((parse_governed _).1 hlt)

/-- The nesting limit only turns an answer into its own refusal. For every text and length limit,
the threshold is the largest value the depth counter reaches when the text is read with no limit,
and the least limit that does not stop the reading: every limit below it stops the reading at that
limit, and every limit from it on gives one and the same answer, a formula or a syntax error, which
no limit stopped. A sum of ones reaches one whatever its length. -/
theorem parse_depthReached :
    (∀ (L : Nat) (s : String), depthReached L s = peakDepth L s ∧
      (∀ d < peakDepth L s, parse ⟨d, L⟩ s = .error (.nestingTooDeep d)) ∧
        ∀ d, peakDepth L s ≤ d → parse ⟨d, L⟩ s = parse ⟨peakDepth L s, L⟩ s ∧
          ∀ k, parse ⟨d, L⟩ s ≠ .error (.nestingTooDeep k)) ∧
      ∀ n L, (onesChain n).utf8ByteSize ≤ L → peakDepth L (onesChain n) = 1 := by
  refine ⟨fun L s => ⟨depthReached_eq_peakDepth L s, fun d hd => (parse_governed d).1 hd,
    fun d hd => ?_⟩, fun n L hlen => ?_⟩
  · -- from the peak on the readings agree, and the one at the peak is not stopped
    rcases parse_stopsOrAgrees (L := L) (s := s) hd with hstop | ⟨heq, hno⟩
    · exact absurd hstop ((parse_governed (peakDepth L s)).2 (Nat.le_refl _) _)
    · exact ⟨heq, heq ▸ hno⟩
  · rw [← depthReached_eq_peakDepth]
    exact depthReached_onesChain hlen

/-- The text `1 + 1 + 1` fits the default length limit and reaches one level. -/
theorem parse_depthReached_ones :
    (onesChain 2).utf8ByteSize ≤ 65536 ∧ peakDepth 65536 (onesChain 2) = 1 :=
  ⟨by decide, parse_depthReached.2 2 65536 (by decide)⟩

end Recalc.Formula
