import Recalc.Proofs.NestingLimit

/-! # The readers with a budget of stack frames: `6 * limit + 3` frames suffice for every text -/

namespace Recalc.Formula

mutual

/-- `sum` on a stack of `frames` frames. -/
def sumWithin : Nat → (limit depth : Nat) → (ts : Tokens) → Option (Parsed ts)
  | 0, _, _, _ => none
  | frames + 1, limit, depth, ts =>
    match productWithin frames limit depth ts with
    | none => none
    | some (.error e) => some (.error e)
    | some (.ok (lhs, ⟨r, hr⟩)) =>
      match sumTailWithin frames limit depth lhs r with
      | none => none
      | some (.error e) => some (.error e)
      | some (.ok (f, ⟨r', hr'⟩)) => some (.ok (f, ⟨r', Nat.le_trans hr' hr⟩))
termination_by frames _ _ ts => (frames, ts.size * 8 + 6)
decreasing_by all_goals (simp only [Prod.lex_def]; omega)

/-- The loop of a sum, in the frame of the sum, with `frames` frames for its callees. -/
def sumTailWithin (frames limit depth : Nat) (lhs : Formula) (ts : Tokens) : Option (Parsed ts) :=
  match ts with
  | .cons t rest =>
    match sumOp? t.symbol with
    | some op =>
      match advance rest with
      | .error e => some (.error e)
      | .ok ⟨r1, h1⟩ =>
        match productWithin frames limit depth r1 with
        | none => none
        | some (.error e) => some (.error e)
        | some (.ok (rhs, ⟨r2, h2⟩)) =>
          match sumTailWithin frames limit depth (.bin op lhs rhs) r2 with
          | none => none
          | some (.error e) => some (.error e)
          | some (.ok (f, ⟨r3, h3⟩)) =>
            some (.ok (f, ⟨r3, by simp only [Tokens.size]; omega⟩))
    | none => some (.ok (lhs, ⟨.cons t rest, Nat.le_refl _⟩))
  | ts => some (.ok (lhs, ⟨ts, Nat.le_refl _⟩))
termination_by (frames, ts.size * 8 + 5)
decreasing_by all_goals (simp only [Prod.lex_def, Tokens.size, true_and]; omega)

def productWithin : Nat → (limit depth : Nat) → (ts : Tokens) → Option (Parsed ts)
  | 0, _, _, _ => none
  | frames + 1, limit, depth, ts =>
    match unaryWithin frames limit depth ts with
    | none => none
    | some (.error e) => some (.error e)
    | some (.ok (lhs, ⟨r, hr⟩)) =>
      match productTailWithin frames limit depth lhs r with
      | none => none
      | some (.error e) => some (.error e)
      | some (.ok (f, ⟨r', hr'⟩)) => some (.ok (f, ⟨r', Nat.le_trans hr' hr⟩))
termination_by frames _ _ ts => (frames, ts.size * 8 + 4)
decreasing_by all_goals (simp only [Prod.lex_def]; omega)

/-- The loop of a product, in the frame of the product, with `frames` frames for its callees. -/
def productTailWithin (frames limit depth : Nat) (lhs : Formula) (ts : Tokens) :
    Option (Parsed ts) :=
  match ts with
  | .cons t rest =>
    match productOp? t.symbol with
    | some op =>
      match advance rest with
      | .error e => some (.error e)
      | .ok ⟨r1, h1⟩ =>
        match unaryWithin frames limit depth r1 with
        | none => none
        | some (.error e) => some (.error e)
        | some (.ok (rhs, ⟨r2, h2⟩)) =>
          match productTailWithin frames limit depth (.bin op lhs rhs) r2 with
          | none => none
          | some (.error e) => some (.error e)
          | some (.ok (f, ⟨r3, h3⟩)) =>
            some (.ok (f, ⟨r3, by simp only [Tokens.size]; omega⟩))
    | none => some (.ok (lhs, ⟨.cons t rest, Nat.le_refl _⟩))
  | ts => some (.ok (lhs, ⟨ts, Nat.le_refl _⟩))
termination_by (frames, ts.size * 8 + 3)
decreasing_by all_goals (simp only [Prod.lex_def, Tokens.size, true_and]; omega)

/-- The count of a level, on a stack of `frames` frames: past the limit it refuses at once. -/
def unaryWithin : Nat → (limit depth : Nat) → (ts : Tokens) → Option (Parsed ts)
  | 0, _, _, _ => none
  | frames + 1, limit, depth, ts =>
    if limit < depth + 1 then some (.error (.nestingTooDeep limit))
    else negationWithin frames limit depth ts
termination_by frames _ _ ts => (frames, ts.size * 8 + 2)
decreasing_by all_goals (simp only [Prod.lex_def]; omega)

/-- A minus and a `unary`, or a power, one level deeper than `depth`. -/
def negationWithin : Nat → (limit depth : Nat) → (ts : Tokens) → Option (Parsed ts)
  | 0, _, _, _ => none
  | frames + 1, limit, depth, ts =>
    match ts with
    | .cons ⟨.minus, _⟩ rest =>
      match advance rest with
      | .error e => some (.error e)
      | .ok ⟨r1, h1⟩ =>
        match unaryWithin frames limit (depth + 1) r1 with
        | none => none
        | some (.error e) => some (.error e)
        | some (.ok (a, ⟨r2, h2⟩)) =>
          some (.ok (.neg a, ⟨r2, by simp only [Tokens.size]; omega⟩))
    | ts => powerWithin frames limit (depth + 1) ts
termination_by frames _ _ ts => (frames, ts.size * 8 + 2)
decreasing_by all_goals (simp only [Prod.lex_def]; omega)

def powerWithin : Nat → (limit depth : Nat) → (ts : Tokens) → Option (Parsed ts)
  | 0, _, _, _ => none
  | frames + 1, limit, depth, ts =>
    match primaryWithin frames limit depth ts with
    | none => none
    | some (.error e) => some (.error e)
    | some (.ok (base, ⟨r, hr⟩)) =>
      match hc : r with
      | .cons ⟨.caret, _⟩ rest =>
        match advance rest with
        | .error e => some (.error e)
        | .ok ⟨r1, h1⟩ =>
          match unaryWithin frames limit depth r1 with
          | none => none
          | some (.error e) => some (.error e)
          | some (.ok (ex, ⟨r2, h2⟩)) =>
            some (.ok (.bin .pow base ex,
              ⟨r2, by subst hc; simp only [Tokens.size] at hr; omega⟩))
      | other => some (.ok (base, ⟨other, hr⟩))
termination_by frames _ _ ts => (frames, ts.size * 8 + 1)
decreasing_by all_goals (simp only [Prod.lex_def]; omega)

def primaryWithin : Nat → (limit depth : Nat) → (ts : Tokens) → Option (Parsed ts)
  | 0, _, _, _ => none
  | frames + 1, limit, depth, ts =>
    match ts with
    | .cons ⟨.number v, _⟩ rest =>
      match advance rest with
      | .error e => some (.error e)
      | .ok ⟨r, h⟩ => some (.ok (.num v, ⟨r, by simp only [Tokens.size]; omega⟩))
    | .cons ⟨.name x, _⟩ rest =>
      match advance rest with
      | .error e => some (.error e)
      | .ok ⟨r, h⟩ => some (.ok (.var x, ⟨r, by simp only [Tokens.size]; omega⟩))
    | .cons ⟨.openParen, opened⟩ rest =>
      match advance rest with
      | .error e => some (.error e)
      | .ok ⟨r1, h1⟩ =>
        match sumWithin frames limit depth r1 with
        | none => none
        | some (.error e) => some (.error e)
        | some (.ok (inner, ⟨r2, h2⟩)) =>
          match hc : r2 with
          | .cons ⟨.closeParen, _⟩ rest' =>
            match advance rest' with
            | .error e => some (.error e)
            | .ok ⟨r3, h3⟩ =>
              some (.ok (inner, ⟨r3, by subst hc; simp only [Tokens.size] at h2 ⊢; omega⟩))
          | other => some (.error (.malformed other.pos (.unclosed opened)))
    | .cons ⟨s, pos⟩ _ => some (.error (.malformed pos (.expectedOperand (some s))))
    | .done pos => some (.error (.malformed pos (.expectedOperand none)))
    | .fault pos p => some (.error (.malformed pos p))
termination_by frames _ _ ts => (frames, ts.size * 8)
decreasing_by all_goals (simp only [Prod.lex_def]; omega)

end

/-- Reads a formula text as `parse` does, with the readers on a stack of `frames` frames. -/
def parseWithin (frames : Nat) (limits : Limits) (src : String) : Option (Except Error Formula) :=
  if limits.maxLength < src.utf8ByteSize then
    some (.error (.malformed limits.maxLength (.tooLong src.utf8ByteSize limits.maxLength)))
  else if Text.isBlankText src then some (.error (.malformed 0 .empty))
  else
    match Tokens.scan src with
    | .fault pos p => some (.error (.malformed pos p))
    | ts =>
      match sumWithin frames limits.maxDepth 0 ts with
      | none => none
      | some (.error e) => some (.error e)
      | some (.ok (f, ⟨.done _, _⟩)) => some (.ok f)
      | some (.ok (_, ⟨.cons t _, _⟩)) => some (.error (.malformed t.pos (.trailing t.symbol)))
      | some (.ok (_, ⟨.fault pos p, _⟩)) => some (.error (.malformed pos p))

/-! ## One step of each reader on a stack -/

/-- Reading `x` on a stack, then `f` on what it read: a stack that ran out stays out, a refusal
stays a refusal. -/
def stackBind {α β : Type} (x : Option (Except Error α)) (f : α → Option (Except Error β)) :
    Option (Except Error β) :=
  match x with
  | none => none
  | some (.error e) => some (.error e)
  | some (.ok a) => f a

theorem stackBind_some {α β : Type} {x : Option (Except Error α)} {y : Except Error α}
    {f : α → Option (Except Error β)} {g : α → Except Error β} (hx : x = some y)
    (hf : ∀ a, y = .ok a → f a = some (g a)) : stackBind x f = some (y.bind g) := by
  subst hx
  cases y with
  | error e => rfl
  | ok a => exact hf a rfl

section Steps

variable (limit depth : Nat)

theorem plain_sumWithin (frames : Nat) (ts : Tokens) :
    (sumWithin (frames + 1) limit depth ts).map Parsed.plain =
      stackBind ((productWithin frames limit depth ts).map Parsed.plain) fun p =>
        (sumTailWithin frames limit depth p.1 p.2).map Parsed.plain := by
  rw [sumWithin]
  rcases productWithin frames limit depth ts with _ | (e | ⟨a, r, hr⟩)
  · rfl
  · rfl
  · simp only [Option.map, Parsed.plain, Except.map, stackBind]
    rcases sumTailWithin frames limit depth a r with _ | (e | ⟨f, r', hr'⟩) <;> rfl

theorem plain_productWithin (frames : Nat) (ts : Tokens) :
    (productWithin (frames + 1) limit depth ts).map Parsed.plain =
      stackBind ((unaryWithin frames limit depth ts).map Parsed.plain) fun p =>
        (productTailWithin frames limit depth p.1 p.2).map Parsed.plain := by
  rw [productWithin]
  rcases unaryWithin frames limit depth ts with _ | (e | ⟨a, r, hr⟩)
  · rfl
  · rfl
  · simp only [Option.map, Parsed.plain, Except.map, stackBind]
    rcases productTailWithin frames limit depth a r with _ | (e | ⟨f, r', hr'⟩) <;> rfl

theorem plain_sumTailWithin_of_op (frames : Nat) {t : Token} {op : BinOp}
    (h : sumOp? t.symbol = some op) (a : Formula) (rest : Tokens) :
    (sumTailWithin frames limit depth a (.cons t rest)).map Parsed.plain =
      stackBind (some ((advance rest).map Subtype.val)) fun r1 =>
        stackBind ((productWithin frames limit depth r1).map Parsed.plain) fun p =>
          (sumTailWithin frames limit depth (.bin op a p.1) p.2).map Parsed.plain := by
  rw [sumTailWithin]
  simp only [h]
  rcases advance rest with e | ⟨r1, h1⟩
  · rfl
  · simp only [Except.map, stackBind]
    rcases productWithin frames limit depth r1 with _ | (e | ⟨b, r2, h2⟩)
    · rfl
    · rfl
    · simp only [Option.map, Parsed.plain, Except.map]
      rcases sumTailWithin frames limit depth (.bin op a b) r2 with _ | (e | ⟨f, r3, h3⟩) <;>
        rfl

theorem plain_productTailWithin_of_op (frames : Nat) {t : Token} {op : BinOp}
    (h : productOp? t.symbol = some op) (a : Formula) (rest : Tokens) :
    (productTailWithin frames limit depth a (.cons t rest)).map Parsed.plain =
      stackBind (some ((advance rest).map Subtype.val)) fun r1 =>
        stackBind ((unaryWithin frames limit depth r1).map Parsed.plain) fun p =>
          (productTailWithin frames limit depth (.bin op a p.1) p.2).map Parsed.plain := by
  rw [productTailWithin]
  simp only [h]
  rcases advance rest with e | ⟨r1, h1⟩
  · rfl
  · simp only [Except.map, stackBind]
    rcases unaryWithin frames limit depth r1 with _ | (e | ⟨b, r2, h2⟩)
    · rfl
    · rfl
    · simp only [Option.map, Parsed.plain, Except.map]
      rcases productTailWithin frames limit depth (.bin op a b) r2 with
        _ | (e | ⟨f, r3, h3⟩) <;> rfl

theorem plain_sumTailWithin_of_none (frames : Nat) {t : Token} (h : sumOp? t.symbol = none)
    (a : Formula) (rest : Tokens) :
    (sumTailWithin frames limit depth a (.cons t rest)).map Parsed.plain =
      some (.ok (a, .cons t rest)) := by
  rw [sumTailWithin]
  simp only [h]
  rfl

theorem plain_productTailWithin_of_none (frames : Nat) {t : Token}
    (h : productOp? t.symbol = none) (a : Formula) (rest : Tokens) :
    (productTailWithin frames limit depth a (.cons t rest)).map Parsed.plain =
      some (.ok (a, .cons t rest)) := by
  rw [productTailWithin]
  simp only [h]
  rfl

theorem plain_sumTailWithin_of_not_cons (frames : Nat) (ts : Tokens)
    (h : ∀ t rest, ts ≠ .cons t rest) (a : Formula) :
    (sumTailWithin frames limit depth a ts).map Parsed.plain = some (.ok (a, ts)) := by
  unfold sumTailWithin
  split
  · exact absurd rfl (h _ _)
  · rfl

theorem plain_productTailWithin_of_not_cons (frames : Nat) (ts : Tokens)
    (h : ∀ t rest, ts ≠ .cons t rest) (a : Formula) :
    (productTailWithin frames limit depth a ts).map Parsed.plain = some (.ok (a, ts)) := by
  unfold productTailWithin
  split
  · exact absurd rfl (h _ _)
  · rfl

theorem unaryWithin_of_lt (frames : Nat) (ts : Tokens) (h : limit < depth + 1) :
    unaryWithin (frames + 1) limit depth ts = some (.error (.nestingTooDeep limit)) := by
  rw [unaryWithin, if_pos h]

theorem unaryWithin_of_not_lt (frames : Nat) (ts : Tokens) (h : ¬limit < depth + 1) :
    unaryWithin (frames + 1) limit depth ts = negationWithin frames limit depth ts := by
  rw [unaryWithin, if_neg h]

theorem plain_negationWithin_minus (frames pos : Nat) (rest : Tokens) :
    (negationWithin (frames + 1) limit depth (.cons ⟨.minus, pos⟩ rest)).map Parsed.plain =
      stackBind (some ((advance rest).map Subtype.val)) fun r1 =>
        ((unaryWithin frames limit (depth + 1) r1).map Parsed.plain).map
          (Except.map fun p => (.neg p.1, p.2)) := by
  rw [negationWithin]
  rcases advance rest with e | ⟨r1, h1⟩
  · rfl
  · simp only [Except.map, stackBind]
    rcases unaryWithin frames limit (depth + 1) r1 with _ | (e | ⟨a, r2, h2⟩) <;> rfl

theorem negationWithin_of_not_minus (frames : Nat) {ts : Tokens}
    (hts : ∀ pos rest, ts ≠ .cons ⟨.minus, pos⟩ rest) :
    negationWithin (frames + 1) limit depth ts = powerWithin frames limit (depth + 1) ts := by
  rw [negationWithin]
  exact fun pos rest h => hts pos rest h

/-- What follows the base of a power on a stack: `^` and a `unary` in the frame the power hands
on, or nothing. -/
def exponentWithin (frames : Nat) (base : Formula) :
    Tokens → Option (Except Error (Formula × Tokens))
  | .cons ⟨.caret, _⟩ rest =>
    stackBind (some ((advance rest).map Subtype.val)) fun r1 =>
      ((unaryWithin frames limit depth r1).map Parsed.plain).map
        (Except.map fun p => (.bin .pow base p.1, p.2))
  | r => some (.ok (base, r))

theorem plain_powerWithin (frames : Nat) (ts : Tokens) :
    (powerWithin (frames + 1) limit depth ts).map Parsed.plain =
      stackBind ((primaryWithin frames limit depth ts).map Parsed.plain) fun p =>
        exponentWithin limit depth frames p.1 p.2 := by
  rw [powerWithin]
  rcases primaryWithin frames limit depth ts with _ | (e | ⟨base, r, hr⟩)
  · rfl
  · rfl
  · simp only [Option.map, Parsed.plain, Except.map, stackBind]
    rcases r with pos | ⟨pos, p⟩ | ⟨⟨s, pos⟩, rest⟩
    · rfl
    · rfl
    · cases s
      case caret =>
        simp only [exponentWithin]
        rcases advance rest with e | ⟨r1, h1⟩
        · rfl
        · simp only [Except.map, stackBind]
          rcases unaryWithin frames limit depth r1 with _ | (e | ⟨ex, r2, h2⟩) <;> rfl
      all_goals rfl

theorem plain_primaryWithin_number (frames : Nat) (v : Float) (pos : Nat) (rest : Tokens) :
    (primaryWithin (frames + 1) limit depth (.cons ⟨.number v, pos⟩ rest)).map Parsed.plain =
      some (((advance rest).map Subtype.val).map fun r => (.num v, r)) := by
  rw [primaryWithin]
  rcases advance rest with e | ⟨r, h⟩ <;> rfl

theorem plain_primaryWithin_name (frames : Nat) (x : String) (pos : Nat) (rest : Tokens) :
    (primaryWithin (frames + 1) limit depth (.cons ⟨.name x, pos⟩ rest)).map Parsed.plain =
      some (((advance rest).map Subtype.val).map fun r => (.var x, r)) := by
  rw [primaryWithin]
  rcases advance rest with e | ⟨r, h⟩ <;> rfl

theorem plain_primaryWithin_paren (frames pos : Nat) (rest : Tokens) :
    (primaryWithin (frames + 1) limit depth (.cons ⟨.openParen, pos⟩ rest)).map Parsed.plain =
      stackBind (some ((advance rest).map Subtype.val)) fun r1 =>
        stackBind ((sumWithin frames limit depth r1).map Parsed.plain) fun p =>
          some (closing pos p.1 p.2) := by
  rw [primaryWithin]
  rcases advance rest with e | ⟨r1, h1⟩
  · rfl
  · simp only [Except.map, stackBind]
    rcases sumWithin frames limit depth r1 with _ | (e | ⟨inner, r2, h2⟩)
    · rfl
    · rfl
    · simp only [Option.map, Parsed.plain, Except.map]
      rcases r2 with pos' | ⟨pos', p⟩ | ⟨⟨s, pos'⟩, rest'⟩
      · rfl
      · rfl
      · cases s
        case closeParen =>
          simp only [closing]
          rcases advance rest' with e | ⟨r3, h3⟩ <;> rfl
        all_goals rfl

end Steps

/-! ## Enough frames -/

def Rule.readerWithin (frames limit depth : Nat) : (rule : Rule) → (ts : Tokens) →
    Option (Parsed ts)
  | .sum => sumWithin frames limit depth
  | .sumTail a => sumTailWithin frames limit depth a
  | .product => productWithin frames limit depth
  | .productTail a => productTailWithin frames limit depth a
  | .unary => unaryWithin frames limit depth
  | .power => powerWithin frames limit depth
  | .primary => primaryWithin frames limit depth

/-- The frames the reader of a rule needs at `depth`: six for each level left below the limit,
and those of its own place in a level. A power and a primary are read one level deeper than the
`unary` they belong to, so theirs count from that level. -/
def Rule.frames (limit depth : Nat) : Rule → Nat
  | .sum => 6 * (limit - depth) + 3
  | .sumTail _ => 6 * (limit - depth) + 2
  | .product => 6 * (limit - depth) + 2
  | .productTail _ => 6 * (limit - depth) + 1
  | .unary => 6 * (limit - depth) + 1
  | .power => 6 * (limit - depth) + 5
  | .primary => 6 * (limit - depth) + 4

/-- On every call of weight below `n`, a stack with the frames the rule needs gives what the
reader gives. -/
def FitsBelow (limit n : Nat) : Prop :=
  ∀ rule ts, Rule.weight rule ts < n → ∀ depth frames, rule.frames limit depth ≤ frames →
    (rule.readerWithin frames limit depth ts).map Parsed.plain =
      some (rule.reader limit depth ts).plain

section Fits

variable {limit : Nat} {ts : Tokens}

theorem exists_frame {n frames : Nat} (h : n + 1 ≤ frames) : ∃ f, frames = f + 1 ∧ n ≤ f :=
  ⟨frames - 1, by omega, by omega⟩

theorem fits_sum (ih : FitsBelow limit (Rule.sum.weight ts)) (depth frames : Nat)
    (h : 6 * (limit - depth) + 3 ≤ frames) :
    (sumWithin frames limit depth ts).map Parsed.plain = some (sum limit depth ts).plain := by
  obtain ⟨f, rfl, hf⟩ := exists_frame h
  rw [plain_sumWithin, plain_sum]
  refine stackBind_some (ih .product ts (Rule.weight_lt_of_rank_lt (Nat.le_refl _) (by decide))
    depth f hf) fun p hp => ?_
  exact ih (.sumTail p.1) p.2
    (Rule.weight_lt_of_rank_lt (Parsed.size_le_of_plain hp) (by simp [Rule.rank])) depth f hf

theorem fits_product (ih : FitsBelow limit (Rule.product.weight ts)) (depth frames : Nat)
    (h : 6 * (limit - depth) + 2 ≤ frames) :
    (productWithin frames limit depth ts).map Parsed.plain =
      some (product limit depth ts).plain := by
  obtain ⟨f, rfl, hf⟩ := exists_frame h
  rw [plain_productWithin, plain_product]
  refine stackBind_some (ih .unary ts (Rule.weight_lt_of_rank_lt (Nat.le_refl _) (by decide))
    depth f hf) fun p hp => ?_
  exact ih (.productTail p.1) p.2
    (Rule.weight_lt_of_rank_lt (Parsed.size_le_of_plain hp) (by simp [Rule.rank])) depth f hf

/-- The rounds of the loop run in the frame of the sum: every round hands its product the same
frames. -/
theorem fits_sumTail (a : Formula) (ih : FitsBelow limit ((Rule.sumTail a).weight ts))
    (depth frames : Nat) (h : 6 * (limit - depth) + 2 ≤ frames) :
    (sumTailWithin frames limit depth a ts).map Parsed.plain =
      some (sumTail limit depth a ts).plain := by
  by_cases hc : ∃ tok rest, ts = .cons tok rest
  · obtain ⟨tok, rest, rfl⟩ := hc
    cases hop : sumOp? tok.symbol with
    | none =>
        rw [plain_sumTailWithin_of_none limit depth frames hop,
          plain_sumTail_of_none limit depth hop]
    | some op =>
        rw [plain_sumTailWithin_of_op limit depth frames hop, plain_sumTail_of_op limit depth hop]
        refine stackBind_some rfl fun r1 hr1 => ?_
        cases eq_of_map_advance hr1
        refine stackBind_some (ih .product rest (Rule.weight_lt_of_size_lt (Nat.lt_succ_self _))
          depth frames h) fun p hp => ?_
        exact ih (.sumTail (.bin op a p.1)) p.2
          (Rule.weight_lt_of_size_lt (Nat.lt_succ_of_le (Parsed.size_le_of_plain hp))) depth
          frames h
  · have hts : ∀ tok rest, ts ≠ .cons tok rest := fun tok rest h => hc ⟨tok, rest, h⟩
    rw [plain_sumTailWithin_of_not_cons limit depth frames ts hts,
      plain_sumTail_of_not_cons limit depth ts hts]

theorem fits_productTail (a : Formula) (ih : FitsBelow limit ((Rule.productTail a).weight ts))
    (depth frames : Nat) (h : 6 * (limit - depth) + 1 ≤ frames) :
    (productTailWithin frames limit depth a ts).map Parsed.plain =
      some (productTail limit depth a ts).plain := by
  by_cases hc : ∃ tok rest, ts = .cons tok rest
  · obtain ⟨tok, rest, rfl⟩ := hc
    cases hop : productOp? tok.symbol with
    | none =>
        rw [plain_productTailWithin_of_none limit depth frames hop,
          plain_productTail_of_none limit depth hop]
    | some op =>
        rw [plain_productTailWithin_of_op limit depth frames hop,
          plain_productTail_of_op limit depth hop]
        refine stackBind_some rfl fun r1 hr1 => ?_
        cases eq_of_map_advance hr1
        refine stackBind_some (ih .unary rest (Rule.weight_lt_of_size_lt (Nat.lt_succ_self _))
          depth frames h) fun p hp => ?_
        exact ih (.productTail (.bin op a p.1)) p.2
          (Rule.weight_lt_of_size_lt (Nat.lt_succ_of_le (Parsed.size_le_of_plain hp))) depth
          frames h
  · have hts : ∀ tok rest, ts ≠ .cons tok rest := fun tok rest h => hc ⟨tok, rest, h⟩
    rw [plain_productTailWithin_of_not_cons limit depth frames ts hts,
      plain_productTail_of_not_cons limit depth ts hts]

/-- The only step that reads the limit. Past it the count refuses in its own frame; below it the
two frames of `unary` leave six for each level below the next one, and one level more for a power
or a `unary` there. -/
theorem fits_unary (ih : FitsBelow limit (Rule.unary.weight ts)) (depth frames : Nat)
    (h : 6 * (limit - depth) + 1 ≤ frames) :
    (unaryWithin frames limit depth ts).map Parsed.plain = some (unary limit depth ts).plain := by
  obtain ⟨f, rfl, hf⟩ := exists_frame h
  by_cases hlt : limit < depth + 1
  · rw [unaryWithin_of_lt limit depth f ts hlt, plain_unary_of_lt limit depth hlt]
    rfl
  · obtain ⟨g, rfl, hg⟩ : ∃ g, f = g + 1 ∧ 6 * (limit - (depth + 1)) + 5 ≤ g :=
      exists_frame (by omega)
    rw [unaryWithin_of_not_lt limit depth (g + 1) ts hlt]
    by_cases hm : ∃ pos rest, ts = .cons ⟨.minus, pos⟩ rest
    · obtain ⟨pos, rest, rfl⟩ := hm
      rw [plain_negationWithin_minus, plain_unary_minus limit depth hlt pos rest]
      refine stackBind_some rfl fun r1 hr1 => ?_
      cases eq_of_map_advance hr1
      have hu : (unaryWithin g limit (depth + 1) rest).map Parsed.plain =
          some (unary limit (depth + 1) rest).plain :=
        ih .unary rest (Rule.weight_lt_of_size_lt (Nat.lt_succ_self _)) (depth + 1) g
          (show 6 * (limit - (depth + 1)) + 1 ≤ g by omega)
      rw [hu]
      rfl
    · have hts : ∀ pos rest, ts ≠ .cons ⟨.minus, pos⟩ rest :=
        fun pos rest h => hm ⟨pos, rest, h⟩
      rw [negationWithin_of_not_minus limit depth g hts,
        plain_unary_of_not_minus limit depth hlt hts]
      exact ih .power ts (Rule.weight_lt_of_rank_lt (Nat.le_refl _) (by decide)) (depth + 1) g hg

theorem fits_power (ih : FitsBelow limit (Rule.power.weight ts)) (depth frames : Nat)
    (h : 6 * (limit - depth) + 5 ≤ frames) :
    (powerWithin frames limit depth ts).map Parsed.plain = some (power limit depth ts).plain := by
  obtain ⟨f, rfl, hf⟩ := exists_frame h
  rw [plain_powerWithin, plain_power]
  refine stackBind_some (ih .primary ts (Rule.weight_lt_of_rank_lt (Nat.le_refl _) (by decide))
    depth f hf) fun p hp => ?_
  obtain ⟨base, r⟩ := p
  have hr : r.size < ts.size := size_lt_of_primary hp
  rcases r with pos | ⟨pos, q⟩ | ⟨⟨s, pos⟩, rest⟩
  · rfl
  · rfl
  · cases s
    case caret =>
      simp only [exponentWithin, exponent]
      refine stackBind_some rfl fun r1 hr1 => ?_
      cases eq_of_map_advance hr1
      have hfewer : rest.size < ts.size := by
        simp only [Tokens.size] at hr
        omega
      have hu : (unaryWithin f limit depth rest).map Parsed.plain =
          some (unary limit depth rest).plain :=
        ih .unary rest (Rule.weight_lt_of_size_lt hfewer) depth f
          (show 6 * (limit - depth) + 1 ≤ f by omega)
      rw [hu]
      rfl
    all_goals rfl

theorem fits_primary (ih : FitsBelow limit (Rule.primary.weight ts)) (depth frames : Nat)
    (h : 6 * (limit - depth) + 4 ≤ frames) :
    (primaryWithin frames limit depth ts).map Parsed.plain =
      some (primary limit depth ts).plain := by
  obtain ⟨f, rfl, hf⟩ := exists_frame h
  rcases ts with pos | ⟨pos, p⟩ | ⟨⟨s, pos⟩, rest⟩
  · simp only [primaryWithin, primary, Parsed.plain, Except.map, Option.map]
  · simp only [primaryWithin, primary, Parsed.plain, Except.map, Option.map]
  · cases s
    case number v =>
      rw [plain_primaryWithin_number, plain_primary_number]
    case name x =>
      rw [plain_primaryWithin_name, plain_primary_name]
    case openParen =>
      rw [plain_primaryWithin_paren, plain_primary_paren]
      refine stackBind_some rfl fun r1 hr1 => ?_
      cases eq_of_map_advance hr1
      exact stackBind_some (ih .sum rest (Rule.weight_lt_of_size_lt (Nat.lt_succ_self _)) depth f
        hf) fun p _ => rfl
    all_goals simp only [primaryWithin, primary, Parsed.plain, Except.map, Option.map]

end Fits

/-- With the frames its rule needs, every reader on the stack gives what the reader gives,
whatever the tokens. -/
theorem readersWithin_fit (limit : Nat) (rule : Rule) (ts : Tokens) (depth frames : Nat)
    (h : rule.frames limit depth ≤ frames) :
    (rule.readerWithin frames limit depth ts).map Parsed.plain =
      some (rule.reader limit depth ts).plain := by
  induction rule, ts using Rule.weight_induction generalizing depth frames with
  | step rule ts ih =>
      cases rule with
      | sum => exact fits_sum ih depth frames h
      | sumTail a => exact fits_sumTail a ih depth frames h
      | product => exact fits_product ih depth frames h
      | productTail a => exact fits_productTail a ih depth frames h
      | unary => exact fits_unary ih depth frames h
      | power => exact fits_power ih depth frames h
      | primary => exact fits_primary ih depth frames h

/-! ## The whole text -/

section Text

variable {limits : Limits} {s : String}

/-- On a stack, a text of allowed length that is not blank, whose first token can be read, is read
as a sum that the end of the text follows. -/
theorem parseWithin_eq_stackBind (frames : Nat) (hlen : s.utf8ByteSize ≤ limits.maxLength)
    (hblank : Text.isBlankText s = false) (hscan : ∀ pos p, Tokens.scan s ≠ .fault pos p) :
    parseWithin frames limits s =
      stackBind ((sumWithin frames limits.maxDepth 0 (Tokens.scan s)).map Parsed.plain) fun p =>
        some (atEnd p.1 p.2) := by
  unfold parseWithin
  rw [if_neg (by omega), if_neg (by simp [hblank])]
  split
  · rename_i pos p hs
    exact absurd hs (hscan pos p)
  · rcases sumWithin frames limits.maxDepth 0 (Tokens.scan s) with _ | (e | ⟨f, r, hr⟩)
    · rfl
    · rfl
    · rcases r with pos | ⟨pos, p⟩ | ⟨tok, rest⟩ <;> rfl

end Text

/-- The readers need a stack of `6 * maxDepth + 3` frames, whatever the length of the text: with
that many they always finish and read every text as `parse` does, under every limits, a nesting
limit of zero among them. -/
theorem parseWithin_eq_parse (limits : Limits) (src : String) (frames : Nat)
    (h : 6 * limits.maxDepth + 3 ≤ frames) :
    parseWithin frames limits src = some (parse limits src) := by
  by_cases hlen : src.utf8ByteSize ≤ limits.maxLength
  · cases hblank : Text.isBlankText src
    · by_cases hscan : ∀ pos p, Tokens.scan src ≠ .fault pos p
      · rw [parseWithin_eq_stackBind frames hlen hblank hscan, parse_eq_bind hlen hblank hscan]
        -- the sum starts at depth zero, with six frames for every level below the limit
        have hsum : (sumWithin frames limits.maxDepth 0 (Tokens.scan src)).map Parsed.plain =
            some (sum limits.maxDepth 0 (Tokens.scan src)).plain :=
          readersWithin_fit limits.maxDepth .sum _ 0 frames
            (show 6 * (limits.maxDepth - 0) + 3 ≤ frames by omega)
        exact stackBind_some hsum fun p _ => rfl
      · obtain ⟨pos, p, hs⟩ : ∃ pos p, Tokens.scan src = .fault pos p := by
          simpa using hscan
        rw [parse_of_fault hlen hblank hs]
        unfold parseWithin
        rw [if_neg (by omega), if_neg (by simp [hblank]), hs]
    · have hfits : ¬limits.maxLength < src.utf8ByteSize := Nat.not_lt.2 hlen
      unfold parseWithin parse
      rw [if_neg hfits, if_neg hfits, if_pos hblank, if_pos hblank]
  · have hlong : limits.maxLength < src.utf8ByteSize := Nat.lt_of_not_le hlen
    unfold parseWithin parse
    rw [if_pos hlong, if_pos hlong]

/-- Under the default limits, a parenthesised number is read on a stack of `6 * 256 + 3`
frames. -/
theorem parseWithin_eq_parse_default :
    6 * ({} : Limits).maxDepth + 3 ≤ 1539 ∧
      parseWithin 1539 {} "(1)" = some (parse {} "(1)") :=
  ⟨by decide, parseWithin_eq_parse {} "(1)" 1539 (by decide)⟩

end Recalc.Formula
