import Mathlib.Data.Nat.Find
import Recalc.Proofs.Reading

/-! # Readings under two limits run alike until the lower one stops, so each text has a threshold -/

namespace Recalc.Formula

/-! ## Results that no limit stopped -/

/-- A result that is no refusal of a nesting limit. -/
def NoStop {α : Type} (x : Except Error α) : Prop := ∀ k, x ≠ .error (.nestingTooDeep k)

namespace NoStop

variable {α β : Type} {x : Except Error α}

theorem ok (a : α) : NoStop (.ok a : Except Error α) := fun _ h => by cases h

theorem malformed (pos : Nat) (p : Problem) :
    NoStop (.error (.malformed pos p) : Except Error α) :=
  fun _ h => by cases h

theorem of_error {e : Error} (h : NoStop (.error e : Except Error α)) :
    NoStop (.error e : Except Error β) :=
  fun k hk => h k (by rw [Except.error.inj hk])

theorem bind {f : α → Except Error β} (hx : NoStop x) (hf : ∀ a, x = .ok a → NoStop (f a)) :
    NoStop (x.bind f) := by
  cases x with
  | error e => exact of_error hx
  | ok a => exact hf a rfl

theorem map (hx : NoStop x) (f : α → β) : NoStop (x.map f) := by
  cases x with
  | error e => exact of_error hx
  | ok a => exact ok (f a)

end NoStop

theorem noStop_advance (rest : Tokens) : NoStop ((advance rest).map Subtype.val) := by
  cases rest with
  | fault pos p => exact .malformed pos p
  | done pos => exact .ok _
  | cons t rest => exact .ok _

theorem noStop_closing (opened : Nat) (inner : Formula) (r : Tokens) :
    NoStop (closing opened inner r) := by
  rcases r with pos | ⟨pos, p⟩ | ⟨⟨s, pos⟩, rest⟩
  · exact .malformed _ _
  · exact .malformed _ _
  · cases s
    case closeParen => exact (noStop_advance rest).map _
    all_goals exact .malformed _ _

theorem noStop_atEnd (f : Formula) (r : Tokens) : NoStop (atEnd f r) := by
  cases r with
  | done pos => exact .ok _
  | fault pos p => exact .malformed _ _
  | cons t rest => exact .malformed _ _

theorem Parsed.size_le_of_plain {ts : Tokens} {p : Parsed ts} {q : Formula × Tokens}
    (h : p.plain = .ok q) : q.2.size ≤ ts.size := by
  obtain ⟨⟨t, r, hr⟩, -, rfl⟩ := map_eq_ok.1 h
  exact hr

theorem size_lt_of_primary {limit depth : Nat} {ts r : Tokens} {t : Formula}
    (h : (primary limit depth ts).plain = .ok (t, r)) : r.size < ts.size := by
  obtain ⟨toks, rfl, hd⟩ := readsPhrase limit .primary ts depth t r h
  have hne : toks ≠ [] := hd.tokens_ne_nil rfl
  rw [Tokens.size_append]
  exact Nat.lt_add_of_pos_left (List.length_pos_iff.2 hne)

/-! ## Two readings under two limits -/

/-- What a reading under the limit `d` gives, `x`, against what the same reading under a larger
limit gives, `x'`: it stops at `d`, or it gives what the larger limit gives, and that is no
refusal of a limit. -/
def StopsOrAgrees {α : Type} (d : Nat) (x' x : Except Error α) : Prop :=
  x = .error (.nestingTooDeep d) ∨ x' = x ∧ NoStop x

namespace StopsOrAgrees

variable {α β : Type} {d : Nat} {x' x : Except Error α}

theorem of_eq (h : x' = x) (hx : NoStop x) : StopsOrAgrees d x' x := .inr ⟨h, hx⟩

theorem bind {f' f : α → Except Error β} (hx : StopsOrAgrees d x' x)
    (hf : ∀ a, x = .ok a → StopsOrAgrees d (f' a) (f a)) :
    StopsOrAgrees d (x'.bind f') (x.bind f) := by
  rcases hx with rfl | ⟨rfl, hno⟩
  · exact .inl rfl
  · cases x' with
    | error e => exact .of_eq rfl hno.of_error
    | ok a => exact hf a rfl

theorem map (hx : StopsOrAgrees d x' x) (f : α → β) : StopsOrAgrees d (x'.map f) (x.map f) := by
  rcases hx with rfl | ⟨rfl, hno⟩
  · exact .inl rfl
  · exact .of_eq rfl (hno.map f)

end StopsOrAgrees

/-- Under the limits `d` and `d'`, every reader on every call of weight below `n` stops at `d` or
agrees with its reading under `d'`. -/
def AgreesBelow (d d' n : Nat) : Prop :=
  ∀ rule ts, Rule.weight rule ts < n → ∀ depth,
    StopsOrAgrees d (rule.reader d' depth ts).plain (rule.reader d depth ts).plain

section Lockstep

variable {d d' : Nat} {ts : Tokens}

theorem agree_sum (ih : AgreesBelow d d' (Rule.sum.weight ts)) (depth : Nat) :
    StopsOrAgrees d (sum d' depth ts).plain (sum d depth ts).plain := by
  rw [plain_sum, plain_sum]
  refine (ih .product ts (Rule.weight_lt_of_rank_lt (Nat.le_refl _) (by decide)) depth).bind
    fun p hp => ?_
  exact ih (.sumTail p.1) p.2
    (Rule.weight_lt_of_rank_lt (Parsed.size_le_of_plain hp) (by simp [Rule.rank])) depth

theorem agree_product (ih : AgreesBelow d d' (Rule.product.weight ts)) (depth : Nat) :
    StopsOrAgrees d (product d' depth ts).plain (product d depth ts).plain := by
  rw [plain_product, plain_product]
  refine (ih .unary ts (Rule.weight_lt_of_rank_lt (Nat.le_refl _) (by decide)) depth).bind
    fun p hp => ?_
  exact ih (.productTail p.1) p.2
    (Rule.weight_lt_of_rank_lt (Parsed.size_le_of_plain hp) (by simp [Rule.rank])) depth

theorem agree_sumTail (a : Formula) (ih : AgreesBelow d d' ((Rule.sumTail a).weight ts))
    (depth : Nat) :
    StopsOrAgrees d (sumTail d' depth a ts).plain (sumTail d depth a ts).plain := by
  by_cases hc : ∃ tok rest, ts = .cons tok rest
  · obtain ⟨tok, rest, rfl⟩ := hc
    cases hop : sumOp? tok.symbol with
    | none =>
        rw [plain_sumTail_of_none d' depth hop, plain_sumTail_of_none d depth hop]
        exact .of_eq rfl (.ok _)
    | some op =>
        rw [plain_sumTail_of_op d' depth hop, plain_sumTail_of_op d depth hop]
        refine (StopsOrAgrees.of_eq rfl (noStop_advance rest)).bind fun r1 hr1 => ?_
        cases eq_of_map_advance hr1
        refine (ih .product rest (Rule.weight_lt_of_size_lt (Nat.lt_succ_self _)) depth).bind
          fun p hp => ?_
        exact ih (.sumTail (.bin op a p.1)) p.2
          (Rule.weight_lt_of_size_lt (Nat.lt_succ_of_le (Parsed.size_le_of_plain hp))) depth
  · have hts : ∀ tok rest, ts ≠ .cons tok rest := fun tok rest h => hc ⟨tok, rest, h⟩
    rw [plain_sumTail_of_not_cons d' depth ts hts, plain_sumTail_of_not_cons d depth ts hts]
    exact .of_eq rfl (.ok _)

theorem agree_productTail (a : Formula) (ih : AgreesBelow d d' ((Rule.productTail a).weight ts))
    (depth : Nat) :
    StopsOrAgrees d (productTail d' depth a ts).plain (productTail d depth a ts).plain := by
  by_cases hc : ∃ tok rest, ts = .cons tok rest
  · obtain ⟨tok, rest, rfl⟩ := hc
    cases hop : productOp? tok.symbol with
    | none =>
        rw [plain_productTail_of_none d' depth hop, plain_productTail_of_none d depth hop]
        exact .of_eq rfl (.ok _)
    | some op =>
        rw [plain_productTail_of_op d' depth hop, plain_productTail_of_op d depth hop]
        refine (StopsOrAgrees.of_eq rfl (noStop_advance rest)).bind fun r1 hr1 => ?_
        cases eq_of_map_advance hr1
        refine (ih .unary rest (Rule.weight_lt_of_size_lt (Nat.lt_succ_self _)) depth).bind
          fun p hp => ?_
        exact ih (.productTail (.bin op a p.1)) p.2
          (Rule.weight_lt_of_size_lt (Nat.lt_succ_of_le (Parsed.size_le_of_plain hp))) depth
  · have hts : ∀ tok rest, ts ≠ .cons tok rest := fun tok rest h => hc ⟨tok, rest, h⟩
    rw [plain_productTail_of_not_cons d' depth ts hts,
      plain_productTail_of_not_cons d depth ts hts]
    exact .of_eq rfl (.ok _)

/-- The only step that reads the limit: the reading under `d` stops where the count passes `d`,
and below that both readings take the same branch. -/
theorem agree_unary (hd : d ≤ d') (ih : AgreesBelow d d' (Rule.unary.weight ts)) (depth : Nat) :
    StopsOrAgrees d (unary d' depth ts).plain (unary d depth ts).plain := by
  by_cases hlt : d < depth + 1
  · rw [plain_unary_of_lt d depth hlt]
    exact .inl rfl
  · have hlt' : ¬d' < depth + 1 := fun h => hlt (Nat.lt_of_le_of_lt hd h)
    by_cases hm : ∃ pos rest, ts = .cons ⟨.minus, pos⟩ rest
    · obtain ⟨pos, rest, rfl⟩ := hm
      rw [plain_unary_minus d' depth hlt' pos rest, plain_unary_minus d depth hlt pos rest]
      refine (StopsOrAgrees.of_eq rfl (noStop_advance rest)).bind fun r1 hr1 => ?_
      cases eq_of_map_advance hr1
      exact (ih .unary rest (Rule.weight_lt_of_size_lt (Nat.lt_succ_self _)) (depth + 1)).map _
    · have hts : ∀ pos rest, ts ≠ .cons ⟨.minus, pos⟩ rest :=
        fun pos rest h => hm ⟨pos, rest, h⟩
      rw [plain_unary_of_not_minus d' depth hlt' hts, plain_unary_of_not_minus d depth hlt hts]
      exact ih .power ts (Rule.weight_lt_of_rank_lt (Nat.le_refl _) (by decide)) (depth + 1)

theorem agree_power (ih : AgreesBelow d d' (Rule.power.weight ts)) (depth : Nat) :
    StopsOrAgrees d (power d' depth ts).plain (power d depth ts).plain := by
  rw [plain_power, plain_power]
  refine (ih .primary ts (Rule.weight_lt_of_rank_lt (Nat.le_refl _) (by decide)) depth).bind
    fun p hp => ?_
  obtain ⟨base, r⟩ := p
  have hr : r.size < ts.size := size_lt_of_primary hp
  rcases r with pos | ⟨pos, q⟩ | ⟨⟨s, pos⟩, rest⟩
  · exact .of_eq rfl (.ok _)
  · exact .of_eq rfl (.ok _)
  · cases s
    case caret =>
      simp only [exponent]
      refine (StopsOrAgrees.of_eq rfl (noStop_advance rest)).bind fun r1 hr1 => ?_
      cases eq_of_map_advance hr1
      have hfewer : rest.size < ts.size := by
        simp only [Tokens.size] at hr
        omega
      exact (ih .unary rest (Rule.weight_lt_of_size_lt hfewer) depth).map _
    all_goals exact .of_eq rfl (.ok _)

theorem agree_primary (ih : AgreesBelow d d' (Rule.primary.weight ts)) (depth : Nat) :
    StopsOrAgrees d (primary d' depth ts).plain (primary d depth ts).plain := by
  rcases ts with pos | ⟨pos, p⟩ | ⟨⟨s, pos⟩, rest⟩
  · simp only [primary, Parsed.plain, Except.map]
    exact .of_eq rfl (.malformed _ _)
  · simp only [primary, Parsed.plain, Except.map]
    exact .of_eq rfl (.malformed _ _)
  · cases s
    case number v =>
      rw [plain_primary_number, plain_primary_number]
      exact .of_eq rfl ((noStop_advance rest).map _)
    case name x =>
      rw [plain_primary_name, plain_primary_name]
      exact .of_eq rfl ((noStop_advance rest).map _)
    case openParen =>
      rw [plain_primary_paren, plain_primary_paren]
      refine (StopsOrAgrees.of_eq rfl (noStop_advance rest)).bind fun r1 hr1 => ?_
      cases eq_of_map_advance hr1
      refine (ih .sum rest (Rule.weight_lt_of_size_lt (Nat.lt_succ_self _)) depth).bind
        fun q _ => ?_
      exact .of_eq rfl (noStop_closing pos q.1 q.2)
    all_goals
      simp only [primary, Parsed.plain, Except.map]
      exact .of_eq rfl (.malformed _ _)

end Lockstep

/-- Two readings of the same tokens under limits `d ≤ d'`: the one under `d` stops at `d`, or
gives what the one under `d'` gives, which then is no refusal of a limit. -/
theorem readers_stopOrAgree {d d' : Nat} (hd : d ≤ d') (rule : Rule) (ts : Tokens)
    (depth : Nat) :
    StopsOrAgrees d (rule.reader d' depth ts).plain (rule.reader d depth ts).plain := by
  induction rule, ts using Rule.weight_induction generalizing depth with
  | step rule ts ih =>
      cases rule with
      | sum => exact agree_sum ih depth
      | sumTail a => exact agree_sumTail a ih depth
      | product => exact agree_product ih depth
      | productTail a => exact agree_productTail a ih depth
      | unary => exact agree_unary hd ih depth
      | power => exact agree_power ih depth
      | primary => exact agree_primary ih depth

/-! ## Room enough -/

/-- Under the limit `d`, every reader on every call of weight below `n` whose limit has room for
its depth and its tokens does not stop. -/
def RoomBelow (d n : Nat) : Prop :=
  ∀ rule ts, Rule.weight rule ts < n → ∀ depth, depth + ts.size + 1 ≤ d + rule.slack →
    NoStop (rule.reader d depth ts).plain

section Room

variable {d : Nat} {ts : Tokens}

theorem room_sum (ih : RoomBelow d (Rule.sum.weight ts)) (depth : Nat)
    (hroom : depth + ts.size + 1 ≤ d + Rule.sum.slack) : NoStop (sum d depth ts).plain := by
  rw [plain_sum]
  refine (ih .product ts (Rule.weight_lt_of_rank_lt (Nat.le_refl _) (by decide)) depth hroom).bind
    fun p hp => ?_
  have hle := Parsed.size_le_of_plain hp
  simp only [Rule.slack] at hroom
  exact ih (.sumTail p.1) p.2 (Rule.weight_lt_of_rank_lt hle (by simp [Rule.rank])) depth
    (by simp only [Rule.slack]; omega)

theorem room_product (ih : RoomBelow d (Rule.product.weight ts)) (depth : Nat)
    (hroom : depth + ts.size + 1 ≤ d + Rule.product.slack) :
    NoStop (product d depth ts).plain := by
  rw [plain_product]
  refine (ih .unary ts (Rule.weight_lt_of_rank_lt (Nat.le_refl _) (by decide)) depth hroom).bind
    fun p hp => ?_
  have hle := Parsed.size_le_of_plain hp
  simp only [Rule.slack] at hroom
  exact ih (.productTail p.1) p.2 (Rule.weight_lt_of_rank_lt hle (by simp [Rule.rank])) depth
    (by simp only [Rule.slack]; omega)

theorem room_sumTail (a : Formula) (ih : RoomBelow d ((Rule.sumTail a).weight ts)) (depth : Nat)
    (hroom : depth + ts.size + 1 ≤ d + (Rule.sumTail a).slack) :
    NoStop (sumTail d depth a ts).plain := by
  simp only [Rule.slack] at hroom
  by_cases hc : ∃ tok rest, ts = .cons tok rest
  · obtain ⟨tok, rest, rfl⟩ := hc
    simp only [Tokens.size] at hroom
    cases hop : sumOp? tok.symbol with
    | none =>
        rw [plain_sumTail_of_none d depth hop]
        exact .ok _
    | some op =>
        rw [plain_sumTail_of_op d depth hop]
        refine (noStop_advance rest).bind fun r1 hr1 => ?_
        cases eq_of_map_advance hr1
        refine (ih .product rest (Rule.weight_lt_of_size_lt (Nat.lt_succ_self _)) depth
          (by simp only [Rule.slack]; omega)).bind fun p hp => ?_
        have hle := Parsed.size_le_of_plain hp
        exact ih (.sumTail (.bin op a p.1)) p.2
          (Rule.weight_lt_of_size_lt (Nat.lt_succ_of_le hle)) depth
          (by simp only [Rule.slack]; omega)
  · rw [plain_sumTail_of_not_cons d depth ts fun tok rest h => hc ⟨tok, rest, h⟩]
    exact .ok _

theorem room_productTail (a : Formula) (ih : RoomBelow d ((Rule.productTail a).weight ts))
    (depth : Nat) (hroom : depth + ts.size + 1 ≤ d + (Rule.productTail a).slack) :
    NoStop (productTail d depth a ts).plain := by
  simp only [Rule.slack] at hroom
  by_cases hc : ∃ tok rest, ts = .cons tok rest
  · obtain ⟨tok, rest, rfl⟩ := hc
    simp only [Tokens.size] at hroom
    cases hop : productOp? tok.symbol with
    | none =>
        rw [plain_productTail_of_none d depth hop]
        exact .ok _
    | some op =>
        rw [plain_productTail_of_op d depth hop]
        refine (noStop_advance rest).bind fun r1 hr1 => ?_
        cases eq_of_map_advance hr1
        refine (ih .unary rest (Rule.weight_lt_of_size_lt (Nat.lt_succ_self _)) depth
          (by simp only [Rule.slack]; omega)).bind fun p hp => ?_
        have hle := Parsed.size_le_of_plain hp
        exact ih (.productTail (.bin op a p.1)) p.2
          (Rule.weight_lt_of_size_lt (Nat.lt_succ_of_le hle)) depth
          (by simp only [Rule.slack]; omega)
  · rw [plain_productTail_of_not_cons d depth ts fun tok rest h => hc ⟨tok, rest, h⟩]
    exact .ok _

/-- With room, the count of a `unary` stays within the limit, and what it reads next has room
too: a minus leaves one token fewer for one level more, and a power counts the level already. -/
theorem room_unary (ih : RoomBelow d (Rule.unary.weight ts)) (depth : Nat)
    (hroom : depth + ts.size + 1 ≤ d + Rule.unary.slack) : NoStop (unary d depth ts).plain := by
  simp only [Rule.slack] at hroom
  have hlt : ¬d < depth + 1 := by omega
  by_cases hm : ∃ pos rest, ts = .cons ⟨.minus, pos⟩ rest
  · obtain ⟨pos, rest, rfl⟩ := hm
    simp only [Tokens.size] at hroom
    rw [plain_unary_minus d depth hlt pos rest]
    refine (noStop_advance rest).bind fun r1 hr1 => ?_
    cases eq_of_map_advance hr1
    exact (ih .unary rest (Rule.weight_lt_of_size_lt (Nat.lt_succ_self _)) (depth + 1)
      (by simp only [Rule.slack]; omega)).map _
  · rw [plain_unary_of_not_minus d depth hlt fun pos rest h => hm ⟨pos, rest, h⟩]
    exact ih .power ts (Rule.weight_lt_of_rank_lt (Nat.le_refl _) (by decide)) (depth + 1)
      (by simp only [Rule.slack]; omega)

theorem room_power (ih : RoomBelow d (Rule.power.weight ts)) (depth : Nat)
    (hroom : depth + ts.size + 1 ≤ d + Rule.power.slack) : NoStop (power d depth ts).plain := by
  rw [plain_power]
  refine (ih .primary ts (Rule.weight_lt_of_rank_lt (Nat.le_refl _) (by decide)) depth hroom).bind
    fun p hp => ?_
  obtain ⟨base, r⟩ := p
  have hr : r.size < ts.size := size_lt_of_primary hp
  simp only [Rule.slack] at hroom
  rcases r with pos | ⟨pos, q⟩ | ⟨⟨s, pos⟩, rest⟩
  · exact .ok _
  · exact .ok _
  · cases s
    case caret =>
      simp only [exponent]
      refine (noStop_advance rest).bind fun r1 hr1 => ?_
      cases eq_of_map_advance hr1
      simp only [Tokens.size] at hr
      exact (ih .unary rest (Rule.weight_lt_of_size_lt (by omega)) depth
        (by simp only [Rule.slack]; omega)).map _
    all_goals exact .ok _

theorem room_primary (ih : RoomBelow d (Rule.primary.weight ts)) (depth : Nat)
    (hroom : depth + ts.size + 1 ≤ d + Rule.primary.slack) :
    NoStop (primary d depth ts).plain := by
  simp only [Rule.slack] at hroom
  rcases ts with pos | ⟨pos, p⟩ | ⟨⟨s, pos⟩, rest⟩
  · simp only [primary, Parsed.plain, Except.map]
    exact .malformed _ _
  · simp only [primary, Parsed.plain, Except.map]
    exact .malformed _ _
  · simp only [Tokens.size] at hroom
    cases s
    case number v =>
      rw [plain_primary_number]
      exact (noStop_advance rest).map _
    case name x =>
      rw [plain_primary_name]
      exact (noStop_advance rest).map _
    case openParen =>
      rw [plain_primary_paren]
      refine (noStop_advance rest).bind fun r1 hr1 => ?_
      cases eq_of_map_advance hr1
      refine (ih .sum rest (Rule.weight_lt_of_size_lt (Nat.lt_succ_self _)) depth
        (by simp only [Rule.slack]; omega)).bind fun q _ => ?_
      exact noStop_closing pos q.1 q.2
    all_goals
      simp only [primary, Parsed.plain, Except.map]
      exact .malformed _ _

end Room

/-- A reader whose limit has room for its depth and its tokens does not stop: each level it
enters reads a token first. -/
theorem readers_noStop {d : Nat} (rule : Rule) (ts : Tokens) (depth : Nat)
    (hroom : depth + ts.size + 1 ≤ d + rule.slack) : NoStop (rule.reader d depth ts).plain := by
  induction rule, ts using Rule.weight_induction generalizing depth with
  | step rule ts ih =>
      cases rule with
      | sum => exact room_sum ih depth hroom
      | sumTail a => exact room_sumTail a ih depth hroom
      | product => exact room_product ih depth hroom
      | productTail a => exact room_productTail a ih depth hroom
      | unary => exact room_unary ih depth hroom
      | power => exact room_power ih depth hroom
      | primary => exact room_primary ih depth hroom

/-! ## Reading a text under two limits -/

section Text

variable {L : Nat} {s : String}

/-- A text that is too long, blank, or whose first token cannot be read is refused before any
level is counted, alike under every limit. -/
theorem parse_of_not_read (d d' : Nat)
    (h : ¬(s.utf8ByteSize ≤ L ∧ Text.isBlankText s = false ∧
      ∀ pos p, Tokens.scan s ≠ .fault pos p)) :
    parse ⟨d', L⟩ s = parse ⟨d, L⟩ s ∧ NoStop (parse ⟨d, L⟩ s) := by
  by_cases hlen : s.utf8ByteSize ≤ L
  · cases hblank : Text.isBlankText s
    · -- with the length and the blanks passed, only the first token is left
      obtain ⟨pos, p, hs⟩ : ∃ pos p, Tokens.scan s = .fault pos p := by
        simpa [hlen, hblank] using h
      have hlen' : s.utf8ByteSize ≤ (⟨d, L⟩ : Limits).maxLength := hlen
      have hlen'' : s.utf8ByteSize ≤ (⟨d', L⟩ : Limits).maxLength := hlen
      rw [parse_of_fault hlen' hblank hs, parse_of_fault hlen'' hblank hs]
      exact ⟨rfl, .malformed _ _⟩
    · have hrefuse : ∀ d, parse ⟨d, L⟩ s = .error (.malformed 0 .empty) := fun d => by
        simp [parse, hblank, Nat.not_lt.2 hlen]
      rw [hrefuse, hrefuse]
      exact ⟨rfl, .malformed _ _⟩
  · have hrefuse : ∀ d, parse ⟨d, L⟩ s = .error (.malformed L (.tooLong s.utf8ByteSize L)) :=
      fun d => by simp [parse, Nat.lt_of_not_le hlen]
    rw [hrefuse, hrefuse]
    exact ⟨rfl, .malformed _ _⟩

/-- Under limits `d ≤ d'` the reading of a text stops at `d`, or gives what it gives under `d'`,
which is then no refusal of a limit. -/
theorem parse_stopsOrAgrees {d d' : Nat} (hd : d ≤ d') :
    StopsOrAgrees d (parse ⟨d', L⟩ s) (parse ⟨d, L⟩ s) := by
  by_cases hread : s.utf8ByteSize ≤ L ∧ Text.isBlankText s = false ∧
      ∀ pos p, Tokens.scan s ≠ .fault pos p
  · obtain ⟨hlen, hblank, hscan⟩ := hread
    have hlen' : s.utf8ByteSize ≤ (⟨d, L⟩ : Limits).maxLength := hlen
    have hlen'' : s.utf8ByteSize ≤ (⟨d', L⟩ : Limits).maxLength := hlen
    rw [parse_eq_bind hlen' hblank hscan, parse_eq_bind hlen'' hblank hscan]
    exact (readers_stopOrAgree hd .sum _ 0).bind fun p _ => .of_eq rfl (noStop_atEnd p.1 p.2)
  · obtain ⟨heq, hno⟩ := parse_of_not_read d d' hread
    exact .of_eq heq hno

theorem parse_noStop {d : Nat} (hroom : (Tokens.scan s).size + 1 ≤ d) :
    NoStop (parse ⟨d, L⟩ s) := by
  by_cases hread : s.utf8ByteSize ≤ L ∧ Text.isBlankText s = false ∧
      ∀ pos p, Tokens.scan s ≠ .fault pos p
  · obtain ⟨hlen, hblank, hscan⟩ := hread
    have hlen' : s.utf8ByteSize ≤ (⟨d, L⟩ : Limits).maxLength := hlen
    rw [parse_eq_bind hlen' hblank hscan]
    exact (readers_noStop .sum _ 0 (by simpa [Rule.slack] using hroom)).bind
      fun p _ => noStop_atEnd p.1 p.2
  · exact (parse_of_not_read d d hread).2

end Text

/-! ## The threshold of a text -/

def stoppedAt (d : Nat) : Except Error Formula → Bool
  | .error (.nestingTooDeep k) => k == d
  | _ => false

theorem stoppedAt_eq_true {d : Nat} {x : Except Error Formula} :
    stoppedAt d x = true ↔ x = .error (.nestingTooDeep d) := by
  rcases x with e | f
  · cases e <;> simp [stoppedAt]
  · simp [stoppedAt]

theorem exists_not_stoppedAt (L : Nat) (s : String) :
    ∃ d, stoppedAt d (parse ⟨d, L⟩ s) = false := by
  refine ⟨(Tokens.scan s).size + 1, Bool.eq_false_iff.2 fun h => ?_⟩
  exact parse_noStop (Nat.le_refl _) _ (stoppedAt_eq_true.1 h)

/-- The deepest level of nesting the reading of `s` enters under the length limit `L`, the whole
formula being the first: the least nesting limit that does not stop the reading. -/
def depthReached (L : Nat) (s : String) : Nat := Nat.find (exists_not_stoppedAt L s)

theorem parse_of_depthReached_le {L : Nat} {s : String} {d : Nat} (hd : depthReached L s ≤ d) :
    parse ⟨d, L⟩ s = parse ⟨depthReached L s, L⟩ s ∧ NoStop (parse ⟨d, L⟩ s) := by
  have hD : stoppedAt (depthReached L s) (parse ⟨depthReached L s, L⟩ s) = false :=
    Nat.find_spec (exists_not_stoppedAt L s)
  rcases parse_stopsOrAgrees hd with hstop | ⟨heq, hno⟩
  · rw [stoppedAt_eq_true.2 hstop] at hD
    cases hD
  · exact ⟨heq, heq ▸ hno⟩

/-! ## Sums of numbers in a row -/

section Ones

theorem scanFrom_blank {c : Char} (h : Text.isBlank c = true) (pos : Nat) (cs : List Char) :
    Tokens.scanFrom pos (c :: cs) = Tokens.scanFrom (pos + c.utf8Size) cs := by
  rw [Tokens.scanFrom, if_pos h]

theorem scanFrom_single {c : Char} {s : Symbol} (hb : Text.isBlank c = false)
    (h : singleSymbol? c = some s) (pos : Nat) (cs : List Char) :
    Tokens.scanFrom pos (c :: cs) = .cons ⟨s, pos⟩ (Tokens.scanFrom (pos + c.utf8Size) cs) := by
  rw [Tokens.scanFrom, if_neg (by simp [hb]), h]

theorem scanFrom_one (pos : Nat) (cs : List Char) (hcs : cs.head? = none ∨ cs.head? = some ' ') :
    Tokens.scanFrom pos ('1' :: cs) =
      .cons ⟨.number (Decimal.mk 1 0).toFloat, pos⟩ (Tokens.scanFrom (pos + 1) cs) := by
  have hnum : readNumeral ('1' :: cs) = .ok (1, (Decimal.mk 1 0).toFloat) := by
    rcases hcs with h | h
    · rw [List.head?_eq_none_iff] at h
      subst h
      simp [readNumeral, Decimal.digitValue]
    · obtain ⟨t, rfl⟩ : ∃ t, cs = ' ' :: t := by
        cases cs with
        | nil => cases h
        | cons c t =>
            obtain rfl : c = ' ' := by simpa using h
            exact ⟨t, rfl⟩
      simp [readNumeral, Decimal.digitValue]
  rw [Tokens.scanFrom, if_neg (by decide)]
  simp [singleSymbol?, hnum]

/-- The text `1 + 1 + ⋯ + 1` with `n + 1` ones. -/
def onesChain (n : Nat) : String := "1" ++ String.join (List.replicate n " + 1")

/-- Tokens that go on with a sum of numbers: `+` and a number, again and again, up to the end. -/
inductive PlusNumbers : Tokens → Prop where
  | done (q : Nat) : PlusNumbers (.done q)
  | more {p p' : Nat} {v : Float} {rest : Tokens} : PlusNumbers rest →
      PlusNumbers (.cons ⟨.plus, p⟩ (.cons ⟨.number v, p'⟩ rest))

theorem PlusNumbers.follows {r : Tokens} (h : PlusNumbers r) : r.Follows 2 := by
  cases h with
  | done q => trivial
  | more _ => simp [Tokens.Follows, Symbol.joinLevel]

theorem scanFrom_ones (n pos : Nat) :
    ∃ tail, Tokens.scanFrom pos ('1' :: (List.replicate n [' ', '+', ' ', '1']).flatten) =
      .cons ⟨.number (Decimal.mk 1 0).toFloat, pos⟩ tail ∧ PlusNumbers tail := by
  induction n generalizing pos with
  | zero =>
      refine ⟨.done (pos + 1), ?_, .done _⟩
      rw [List.replicate_zero, List.flatten_nil, scanFrom_one pos [] (.inl rfl), Tokens.scanFrom]
  | succ n ih =>
      obtain ⟨tail, htail, hplus⟩ := ih (pos + 4)
      refine ⟨.cons ⟨.plus, pos + 2⟩
        (.cons ⟨.number (Decimal.mk 1 0).toFloat, pos + 4⟩ tail), ?_, .more hplus⟩
      rw [List.replicate_succ, List.flatten_cons]
      simp only [List.cons_append, List.nil_append]
      rw [scanFrom_one pos _ (.inr rfl), scanFrom_blank (by decide),
        scanFrom_single (by decide) (rfl : singleSymbol? '+' = some .plus),
        scanFrom_blank (by decide)]
      have hpos : pos + 1 + Char.utf8Size ' ' + Char.utf8Size '+' + Char.utf8Size ' ' = pos + 4 :=
        rfl
      rw [hpos, htail]
      rfl

theorem toList_onesChain (n : Nat) :
    (onesChain n).toList = '1' :: (List.replicate n [' ', '+', ' ', '1']).flatten := by
  simp [onesChain, String.toList_join, List.flatMap_replicate]

theorem scan_onesChain (n : Nat) :
    ∃ tail, Tokens.scan (onesChain n) =
      .cons ⟨.number (Decimal.mk 1 0).toFloat, 0⟩ tail ∧ PlusNumbers tail := by
  rw [Tokens.scan, toList_onesChain]
  exact scanFrom_ones n 0

theorem plain_product_number {d : Nat} (hd : 1 ≤ d) (v : Float) (p : Nat) {r : Tokens}
    (hr : r.Follows 2) : (product d 0 (.cons ⟨.number v, p⟩ r)).plain = .ok (.num v, r) := by
  rw [plain_product, plain_unary_of_not_minus d 0 (by omega) (fun _ _ h => by cases h),
    plain_power, plain_primary_number, map_advance_of_follows hr]
  simp only [Except.map, Except.bind, exponent_of_follows d 1 (hr.mono (by decide)),
    plain_productTail_of_follows d 0 hr]

theorem plain_sumTail_plusNumbers {d : Nat} (hd : 1 ≤ d) {r : Tokens} (hr : PlusNumbers r)
    (a : Formula) : ∃ t q, (sumTail d 0 a r).plain = .ok (t, .done q) := by
  induction hr generalizing a with
  | done q => exact ⟨a, q, plain_sumTail_of_not_cons d 0 _ (fun _ _ h => by cases h) a⟩
  | @more p p' v rest hrest ih =>
      obtain ⟨t, q, ht⟩ := ih (.bin .add a (.num v))
      refine ⟨t, q, ?_⟩
      rw [plain_sumTail_of_op d 0 (rfl : sumOp? Symbol.plus = some .add)]
      simp only [advance, Except.map, Except.bind]
      rw [plain_product_number hd v p' hrest.follows]
      exact ht

theorem parse_zero_of_read {L : Nat} {s : String} (hlen : s.utf8ByteSize ≤ L)
    (hblank : Text.isBlankText s = false) (hscan : ∀ pos p, Tokens.scan s ≠ .fault pos p) :
    parse ⟨0, L⟩ s = .error (.nestingTooDeep 0) := by
  have hlen' : s.utf8ByteSize ≤ (⟨0, L⟩ : Limits).maxLength := hlen
  rw [parse_eq_bind hlen' hblank hscan, plain_sum, plain_product,
    plain_unary_of_lt 0 0 Nat.zero_lt_one]
  rfl

/-- A sum of ones enters one level whatever its length. -/
theorem depthReached_onesChain {n L : Nat} (hlen : (onesChain n).utf8ByteSize ≤ L) :
    depthReached L (onesChain n) = 1 := by
  obtain ⟨tail, hscan, hplus⟩ := scan_onesChain n
  have hblank : Text.isBlankText (onesChain n) = false := by
    have hone : Text.isBlank '1' = false := by decide
    rw [Text.isBlankText, toList_onesChain, List.all_cons, hone, Bool.false_and]
  have hread : ∀ pos p, Tokens.scan (onesChain n) ≠ .fault pos p := by
    rw [hscan]
    intro _ _ h
    cases h
  rw [depthReached, Nat.find_eq_iff]
  refine ⟨?_, fun m hm => ?_⟩
  · -- under the limit one the sum is read whole
    have hlen' : (onesChain n).utf8ByteSize ≤ (⟨1, L⟩ : Limits).maxLength := hlen
    obtain ⟨t, q, ht⟩ := plain_sumTail_plusNumbers (Nat.le_refl 1) hplus
      (.num (Decimal.mk 1 0).toFloat)
    rw [parse_eq_bind hlen' hblank hread, hscan, plain_sum,
      plain_product_number (Nat.le_refl 1) _ 0 hplus.follows]
    simp only [Except.bind]
    rw [ht]
    rfl
  · obtain rfl : m = 0 := Nat.lt_one_iff.1 hm
    rw [parse_zero_of_read hlen hblank hread]
    simp [stoppedAt]

end Ones

end Recalc.Formula
