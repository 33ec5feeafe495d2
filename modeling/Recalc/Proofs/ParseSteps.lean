import Recalc.Proofs.Grammar

/-! # One equation for each reader and each way its first token can lead, size proofs dropped -/

namespace Recalc.Formula

/-- The formula and the rest of a parse, without the proof that the rest is no longer. -/
def Parsed.plain {ts : Tokens} (p : Parsed ts) : Except Error (Formula × Tokens) :=
  p.map fun x => (x.1, x.2.1)

theorem bind_eq_ok {α β : Type} {x : Except Error α} {f : α → Except Error β} {b : β} :
    x.bind f = .ok b ↔ ∃ a, x = .ok a ∧ f a = .ok b := by
  cases x <;> simp [Except.bind]

theorem map_eq_ok {α β : Type} {x : Except Error α} {f : α → β} {b : β} :
    x.map f = .ok b ↔ ∃ a, x = .ok a ∧ f a = b := by
  cases x <;> simp [Except.map]

theorem map_eq_error {α β : Type} {x : Except Error α} {f : α → β} {e : Error} :
    x.map f = .error e ↔ x = .error e := by
  cases x <;> simp [Except.map]

/-! ## Moving onto the next token -/

theorem map_advance_of_follows {k : Nat} {r : Tokens} (h : r.Follows k) :
    (advance r).map Subtype.val = .ok r := by
  cases r with
  | done pos => rfl
  | fault pos p => exact h.elim
  | cons t rest => rfl

theorem map_advance_append {toks : List Token} (h : toks ≠ []) (r : Tokens) :
    (advance (Tokens.append toks r)).map Subtype.val = .ok (Tokens.append toks r) := by
  cases toks with
  | nil => exact absurd rfl h
  | cons t toks => rfl

theorem eq_of_map_advance {rest r : Tokens} (h : (advance rest).map Subtype.val = .ok r) :
    r = rest := by
  cases rest with
  | fault pos p => cases h
  | done pos =>
      cases h
      rfl
  | cons t rest' =>
      cases h
      rfl

theorem eq_of_map_map_advance {α : Type} {g : Tokens → α} {rest : Tokens} {b : α}
    (h : ((advance rest).map Subtype.val).map g = .ok b) : b = g rest := by
  obtain ⟨r, hr, rfl⟩ := map_eq_ok.1 h
  rw [eq_of_map_advance hr]

section Steps

variable (limit depth : Nat)

/-! ## Sums and products -/

theorem plain_sum (ts : Tokens) :
    (sum limit depth ts).plain =
      (product limit depth ts).plain.bind fun p => (sumTail limit depth p.1 p.2).plain := by
  rw [sum]
  rcases product limit depth ts with e | ⟨a, r, hr⟩
  · rfl
  · simp only [Parsed.plain, Except.map, Except.bind]
    rcases sumTail limit depth a r with e | ⟨f, r', hr'⟩ <;> rfl

theorem plain_product (ts : Tokens) :
    (product limit depth ts).plain =
      (unary limit depth ts).plain.bind fun p => (productTail limit depth p.1 p.2).plain := by
  rw [product]
  rcases unary limit depth ts with e | ⟨a, r, hr⟩
  · rfl
  · simp only [Parsed.plain, Except.map, Except.bind]
    rcases productTail limit depth a r with e | ⟨f, r', hr'⟩ <;> rfl

theorem plain_sumTail_of_op {t : Token} {op : BinOp} (h : sumOp? t.symbol = some op)
    (a : Formula) (rest : Tokens) :
    (sumTail limit depth a (.cons t rest)).plain =
      ((advance rest).map Subtype.val).bind fun r1 =>
        (product limit depth r1).plain.bind fun p =>
          (sumTail limit depth (.bin op a p.1) p.2).plain := by
  rw [sumTail]
  simp only [h]
  rcases advance rest with e | ⟨r1, h1⟩
  · rfl
  · simp only [Parsed.plain, Except.map, Except.bind]
    rcases product limit depth r1 with e | ⟨b, r2, h2⟩
    · rfl
    · simp only
      rcases sumTail limit depth (.bin op a b) r2 with e | ⟨f, r3, h3⟩ <;> rfl

theorem plain_productTail_of_op {t : Token} {op : BinOp} (h : productOp? t.symbol = some op)
    (a : Formula) (rest : Tokens) :
    (productTail limit depth a (.cons t rest)).plain =
      ((advance rest).map Subtype.val).bind fun r1 =>
        (unary limit depth r1).plain.bind fun p =>
          (productTail limit depth (.bin op a p.1) p.2).plain := by
  rw [productTail]
  simp only [h]
  rcases advance rest with e | ⟨r1, h1⟩
  · rfl
  · simp only [Parsed.plain, Except.map, Except.bind]
    rcases unary limit depth r1 with e | ⟨b, r2, h2⟩
    · rfl
    · simp only
      rcases productTail limit depth (.bin op a b) r2 with e | ⟨f, r3, h3⟩ <;> rfl

theorem plain_sumTail_of_none {t : Token} (h : sumOp? t.symbol = none) (a : Formula)
    (rest : Tokens) :
    (sumTail limit depth a (.cons t rest)).plain = .ok (a, .cons t rest) := by
  rw [sumTail]
  simp only [h]
  rfl

theorem plain_productTail_of_none {t : Token} (h : productOp? t.symbol = none) (a : Formula)
    (rest : Tokens) :
    (productTail limit depth a (.cons t rest)).plain = .ok (a, .cons t rest) := by
  rw [productTail]
  simp only [h]
  rfl

theorem plain_sumTail_of_not_cons (ts : Tokens) (h : ∀ t rest, ts ≠ .cons t rest)
    (a : Formula) : (sumTail limit depth a ts).plain = .ok (a, ts) := by
  unfold sumTail
  split
  · exact absurd rfl (h _ _)
  · rfl

theorem plain_productTail_of_not_cons (ts : Tokens) (h : ∀ t rest, ts ≠ .cons t rest)
    (a : Formula) : (productTail limit depth a ts).plain = .ok (a, ts) := by
  unfold productTail
  split
  · exact absurd rfl (h _ _)
  · rfl

theorem plain_sumTail_of_follows {r : Tokens} (hr : r.Follows 1) (a : Formula) :
    (sumTail limit depth a r).plain = .ok (a, r) := by
  cases r with
  | done pos =>
      exact plain_sumTail_of_not_cons limit depth (.done pos) (fun _ _ => Tokens.noConfusion) a
  | fault pos p => exact hr.elim
  | cons t rest =>
      cases hop : sumOp? t.symbol with
      | none => exact plain_sumTail_of_none limit depth hop a rest
      | some op =>
          have hlevel := joinLevel_of_sumOp? hop
          simp only [Tokens.Follows] at hr
          omega

theorem plain_productTail_of_follows {r : Tokens} (hr : r.Follows 2) (a : Formula) :
    (productTail limit depth a r).plain = .ok (a, r) := by
  cases r with
  | done pos =>
      exact plain_productTail_of_not_cons limit depth (.done pos) (fun _ _ => Tokens.noConfusion) a
  | fault pos p => exact hr.elim
  | cons t rest =>
      cases hop : productOp? t.symbol with
      | none => exact plain_productTail_of_none limit depth hop a rest
      | some op =>
          have hlevel := joinLevel_of_productOp? hop
          simp only [Tokens.Follows] at hr
          omega

/-! ## Negations and powers -/

theorem plain_unary_of_lt {ts : Tokens} (h : limit < depth + 1) :
    (unary limit depth ts).plain = .error (.nestingTooDeep limit) := by
  unfold unary
  rw [if_pos h]
  rfl

theorem plain_unary_minus (h : ¬limit < depth + 1) (pos : Nat) (rest : Tokens) :
    (unary limit depth (.cons ⟨.minus, pos⟩ rest)).plain =
      ((advance rest).map Subtype.val).bind fun r1 =>
        (unary limit (depth + 1) r1).plain.map fun p => (.neg p.1, p.2) := by
  rw [unary, if_neg h]
  rcases advance rest with e | ⟨r1, h1⟩
  · rfl
  · simp only [Parsed.plain, Except.map, Except.bind]
    rcases unary limit (depth + 1) r1 with e | ⟨a, r2, h2⟩ <;> rfl

theorem plain_unary_of_not_minus {ts : Tokens} (h : ¬limit < depth + 1)
    (hts : ∀ pos rest, ts ≠ .cons ⟨.minus, pos⟩ rest) :
    (unary limit depth ts).plain = (power limit (depth + 1) ts).plain := by
  unfold unary
  rw [if_neg h]
  split
  · exact absurd rfl (hts _ _)
  · rfl

/-- What follows the base of a power: `^` and a `unary` for the exponent, or nothing. -/
def exponent (base : Formula) : Tokens → Except Error (Formula × Tokens)
  | .cons ⟨.caret, _⟩ rest =>
    ((advance rest).map Subtype.val).bind fun r1 =>
      (unary limit depth r1).plain.map fun p => (.bin .pow base p.1, p.2)
  | r => .ok (base, r)

theorem plain_power (ts : Tokens) :
    (power limit depth ts).plain =
      (primary limit depth ts).plain.bind fun p => exponent limit depth p.1 p.2 := by
  rw [power]
  rcases primary limit depth ts with e | ⟨base, r, hr⟩
  · rfl
  · simp only [Parsed.plain, Except.map, Except.bind]
    -- the rest after the base decides; only `^` leads on
    rcases r with pos | ⟨pos, p⟩ | ⟨⟨s, pos⟩, rest⟩
    · rfl
    · rfl
    · cases s
      case caret =>
        simp only [exponent]
        rcases advance rest with e | ⟨r1, h1⟩
        · rfl
        · simp only [Parsed.plain, Except.map, Except.bind]
          rcases unary limit depth r1 with e | ⟨ex, r2, h2⟩ <;> rfl
      all_goals rfl

theorem exponent_of_follows {r : Tokens} (hr : r.Follows 3) (base : Formula) :
    exponent limit depth base r = .ok (base, r) := by
  rcases r with pos | ⟨pos, p⟩ | ⟨⟨s, pos⟩, rest⟩
  · rfl
  · exact hr.elim
  · cases s
    case caret => simp [Tokens.Follows, Symbol.joinLevel] at hr
    all_goals rfl

theorem exponent_eq_ok {base t : Formula} {r1 r : Tokens}
    (h : exponent limit depth base r1 = .ok (t, r)) :
    (t = base ∧ r = r1) ∨ ∃ pos rest b, r1 = .cons ⟨.caret, pos⟩ rest ∧
      (unary limit depth rest).plain = .ok (b, r) ∧ t = .bin .pow base b := by
  rcases r1 with pos | ⟨pos, p⟩ | ⟨⟨s, pos⟩, rest⟩
  · cases h
    exact .inl ⟨rfl, rfl⟩
  · cases h
    exact .inl ⟨rfl, rfl⟩
  · cases s
    case caret =>
      obtain ⟨r1, hr1, h⟩ := bind_eq_ok.1 h
      cases eq_of_map_advance hr1
      obtain ⟨⟨b, r'⟩, hu, he⟩ := map_eq_ok.1 h
      cases he
      exact .inr ⟨pos, rest, b, rfl, hu, rfl⟩
    all_goals
      cases h
      exact .inl ⟨rfl, rfl⟩

/-! ## Primaries -/

/-- What follows the formula inside parentheses opened at `opened`: the closing parenthesis. -/
def closing (opened : Nat) (inner : Formula) : Tokens → Except Error (Formula × Tokens)
  | .cons ⟨.closeParen, _⟩ rest => ((advance rest).map Subtype.val).map fun r => (inner, r)
  | other => .error (.malformed other.pos (.unclosed opened))

theorem plain_primary_number (v : Float) (pos : Nat) (rest : Tokens) :
    (primary limit depth (.cons ⟨.number v, pos⟩ rest)).plain =
      ((advance rest).map Subtype.val).map fun r => (.num v, r) := by
  rw [primary]
  rcases advance rest with e | ⟨r, h⟩ <;> rfl

theorem plain_primary_name (x : String) (pos : Nat) (rest : Tokens) :
    (primary limit depth (.cons ⟨.name x, pos⟩ rest)).plain =
      ((advance rest).map Subtype.val).map fun r => (.var x, r) := by
  rw [primary]
  rcases advance rest with e | ⟨r, h⟩ <;> rfl

theorem plain_primary_paren (pos : Nat) (rest : Tokens) :
    (primary limit depth (.cons ⟨.openParen, pos⟩ rest)).plain =
      ((advance rest).map Subtype.val).bind fun r1 =>
        (sum limit depth r1).plain.bind fun p => closing pos p.1 p.2 := by
  rw [primary]
  rcases advance rest with e | ⟨r1, h1⟩
  · rfl
  · simp only [Parsed.plain, Except.map, Except.bind]
    rcases sum limit depth r1 with e | ⟨inner, r2, h2⟩
    · rfl
    · simp only
      -- the rest after the inner sum decides; only `)` closes
      rcases r2 with pos' | ⟨pos', p⟩ | ⟨⟨s, pos'⟩, rest'⟩
      · rfl
      · rfl
      · cases s
        case closeParen =>
          simp only [closing]
          rcases advance rest' with e | ⟨r3, h3⟩ <;> rfl
        all_goals rfl

theorem closing_of_follows {k : Nat} {r : Tokens} (hr : r.Follows k) (opened pos : Nat)
    (inner : Formula) : closing opened inner (.cons ⟨.closeParen, pos⟩ r) = .ok (inner, r) := by
  simp only [closing, map_advance_of_follows hr]
  rfl

theorem closing_eq_ok {opened : Nat} {inner t : Formula} {r2 r : Tokens}
    (h : closing opened inner r2 = .ok (t, r)) :
    ∃ pos, r2 = .cons ⟨.closeParen, pos⟩ r ∧ t = inner := by
  rcases r2 with pos | ⟨pos, p⟩ | ⟨⟨s, pos⟩, rest⟩
  · cases h
  · cases h
  · cases s
    case closeParen =>
      cases eq_of_map_map_advance h
      exact ⟨pos, rfl, rfl⟩
    all_goals cases h

theorem primary_head {ts r : Tokens} {t : Formula}
    (h : (primary limit depth ts).plain = .ok (t, r)) :
    (∃ v pos rest, ts = .cons ⟨.number v, pos⟩ rest) ∨
      (∃ x pos rest, ts = .cons ⟨.name x, pos⟩ rest) ∨
      ∃ pos rest, ts = .cons ⟨.openParen, pos⟩ rest := by
  rcases ts with pos | ⟨pos, p⟩ | ⟨⟨s, pos⟩, rest⟩
  · simp [primary, Parsed.plain, Except.map] at h
  · simp [primary, Parsed.plain, Except.map] at h
  · cases s
    case number v => exact .inl ⟨v, pos, rest, rfl⟩
    case name x => exact .inr (.inl ⟨x, pos, rest, rfl⟩)
    case openParen => exact .inr (.inr ⟨pos, rest, rfl⟩)
    all_goals simp [primary, Parsed.plain, Except.map] at h

end Steps

end Recalc.Formula
