import Recalc.Formula.Parse

/-! # The grammar of formula texts, as derivations over token symbols that build their formula -/

namespace Recalc.Formula

/-- The rules of the grammar. A tail, the repeated part of a sum or a product, carries the
formula of the phrase before it. -/
inductive Rule where
  | sum
  | sumTail (lhs : Formula)
  | product
  | productTail (lhs : Formula)
  | unary
  | power
  | primary
deriving Inhabited

/-- `Derives rule ss t`: the symbols `ss` are a phrase of `rule` whose formula is `t`. For a
tail, `t` is the formula of the whole sum or product that the tail ends. -/
inductive Derives : Rule → List Symbol → Formula → Prop
  | sum {xs ys a t} : Derives .product xs a → Derives (.sumTail a) ys t →
      Derives .sum (xs ++ ys) t
  | sumEnd {a} : Derives (.sumTail a) [] a
  | sumMore {s op xs ys a b t} : sumOp? s = some op → Derives .product xs b →
      Derives (.sumTail (.bin op a b)) ys t → Derives (.sumTail a) (s :: (xs ++ ys)) t
  | product {xs ys a t} : Derives .unary xs a → Derives (.productTail a) ys t →
      Derives .product (xs ++ ys) t
  | productEnd {a} : Derives (.productTail a) [] a
  | productMore {s op xs ys a b t} : productOp? s = some op → Derives .unary xs b →
      Derives (.productTail (.bin op a b)) ys t → Derives (.productTail a) (s :: (xs ++ ys)) t
  | neg {xs a} : Derives .unary xs a → Derives .unary (.minus :: xs) (.neg a)
  | power {xs a} : Derives .power xs a → Derives .unary xs a
  | base {xs a} : Derives .primary xs a → Derives .power xs a
  | pow {xs ys a b} : Derives .primary xs a → Derives .unary ys b →
      Derives .power (xs ++ .caret :: ys) (.bin .pow a b)
  | number {v} : Derives .primary [.number v] (.num v)
  | name {x} : Derives .primary [.name x] (.var x)
  | paren {xs a} : Derives .sum xs a → Derives .primary (.openParen :: (xs ++ [.closeParen])) a

/-! ## Where a phrase ends -/

/-- How tightly a symbol joins what precedes it to what follows: `+` and `-` continue a sum,
`*` and `/` a product, `^` a power; no other symbol continues a phrase. -/
def Symbol.joinLevel : Symbol → Nat
  | .plus | .minus => 1
  | .times | .divide => 2
  | .caret => 3
  | _ => 0

/-- A phrase of a rule is extended by a next symbol that joins at this level or below. -/
def Rule.level : Rule → Nat
  | .sum | .sumTail _ => 1
  | .product | .productTail _ => 2
  | .unary | .power => 3
  | .primary => 4

def Rule.isTail : Rule → Bool
  | .sumTail _ | .productTail _ => true
  | _ => false

/-- The tokens `r` may follow a phrase of a rule of level `k`: they hold no token that cannot be
read next, and their first symbol does not extend the phrase. -/
def Tokens.Follows (k : Nat) : Tokens → Prop
  | .done _ => True
  | .fault _ _ => False
  | .cons t _ => t.symbol.joinLevel < k

theorem Tokens.Follows.mono {k k' : Nat} {r : Tokens} (hk : k ≤ k') (h : r.Follows k) :
    r.Follows k' := by
  cases r with
  | done pos => trivial
  | fault pos p => exact h
  | cons t rest => exact Nat.lt_of_lt_of_le h hk

theorem joinLevel_of_sumOp? {s : Symbol} {op : BinOp} (h : sumOp? s = some op) :
    s.joinLevel = 1 := by
  cases s <;> simp_all [sumOp?, Symbol.joinLevel]

theorem joinLevel_of_productOp? {s : Symbol} {op : BinOp} (h : productOp? s = some op) :
    s.joinLevel = 2 := by
  cases s <;> simp_all [productOp?, Symbol.joinLevel]

/-! ## Token streams from lists -/

namespace Tokens

def append : List Token → Tokens → Tokens
  | [], r => r
  | t :: ts, r => .cons t (append ts r)

/-- The symbols of a stream that ends with no token that cannot be read. -/
def symbols? : Tokens → Option (List Symbol)
  | .done _ => some []
  | .fault _ _ => none
  | .cons t r => r.symbols?.map (t.symbol :: ·)

@[simp] theorem append_nil (r : Tokens) : append [] r = r := rfl

@[simp] theorem append_cons (t : Token) (ts : List Token) (r : Tokens) :
    append (t :: ts) r = .cons t (append ts r) := rfl

@[simp] theorem append_append (xs ys : List Token) (r : Tokens) :
    append (xs ++ ys) r = append xs (append ys r) := by
  induction xs with
  | nil => rfl
  | cons t xs ih => simp [ih]

@[simp] theorem size_append (toks : List Token) (r : Tokens) :
    (append toks r).size = toks.length + r.size := by
  induction toks with
  | nil => simp
  | cons t toks ih =>
      rw [append_cons, size, ih, List.length_cons]
      omega

theorem size_le_append (toks : List Token) (r : Tokens) : r.size ≤ (append toks r).size := by
  rw [size_append]
  exact Nat.le_add_left _ _

theorem symbols?_append_done (toks : List Token) (pos : Nat) :
    (append toks (.done pos)).symbols? = some (toks.map Token.symbol) := by
  induction toks with
  | nil => rfl
  | cons t toks ih => simp [symbols?, ih]

theorem symbols?_eq_some_iff {ts : Tokens} {ss : List Symbol} :
    ts.symbols? = some ss ↔
      ∃ toks pos, ts = append toks (.done pos) ∧ toks.map Token.symbol = ss := by
  constructor
  · intro h
    induction ts generalizing ss with
    | done pos => exact ⟨[], pos, rfl, by simpa [symbols?] using h⟩
    | fault pos p => simp [symbols?] at h
    | cons t rest ih =>
        obtain ⟨ss', hrest, rfl⟩ := Option.map_eq_some_iff.1 h
        obtain ⟨toks, pos, rfl, rfl⟩ := ih hrest
        exact ⟨t :: toks, pos, rfl, rfl⟩
  · rintro ⟨toks, pos, rfl, rfl⟩
    exact symbols?_append_done toks pos

end Tokens

/-! ## The shape of phrases -/

namespace Derives

variable {rule : Rule} {ss : List Symbol} {t : Formula}

theorem ne_nil (h : Derives rule ss t) (hr : rule.isTail = false) : ss ≠ [] := by
  induction h with
  | sum _ _ ih => exact List.append_ne_nil_of_left_ne_nil (ih rfl) _
  | product _ _ ih => exact List.append_ne_nil_of_left_ne_nil (ih rfl) _
  | power _ ih => exact ih rfl
  | base _ ih => exact ih rfl
  | pow => simp
  | sumEnd | productEnd => simp [Rule.isTail] at hr
  | sumMore | productMore | neg | number | name | paren => simp

theorem tokens_ne_nil {toks : List Token} (h : Derives rule (toks.map Token.symbol) t)
    (hr : rule.isTail = false) : toks ≠ [] := by
  rintro rfl
  exact h.ne_nil hr rfl

theorem head_primary (h : Derives .primary ss t) :
    ∃ s rest, ss = s :: rest ∧ s.joinLevel = 0 := by
  cases h with
  | number => exact ⟨_, _, rfl, rfl⟩
  | name => exact ⟨_, _, rfl, rfl⟩
  | paren _ => exact ⟨_, _, rfl, rfl⟩

theorem head_power (h : Derives .power ss t) :
    ∃ s rest, ss = s :: rest ∧ s.joinLevel = 0 := by
  cases h with
  | base hp => exact hp.head_primary
  | pow hp _ =>
      obtain ⟨s, rest, rfl, hs⟩ := hp.head_primary
      exact ⟨s, _, rfl, hs⟩

theorem joinLevel_head_of_tail {s : Symbol} (h : Derives rule (s :: ss) t)
    (hr : rule.isTail = true) : s.joinLevel = rule.level := by
  generalize hl : s :: ss = l at h
  cases h with
  | sumMore hop _ _ =>
      cases hl
      exact joinLevel_of_sumOp? hop
  | productMore hop _ _ =>
      cases hl
      exact joinLevel_of_productOp? hop
  | sumEnd | productEnd => cases hl
  | sum | product | neg | power | base | pow | number | name | paren =>
      simp [Rule.isTail] at hr

/-- What may follow a tail may follow the phrase before it, one level tighter. -/
theorem follows_append_of_tail {toks : List Token} {r : Tokens}
    (h : Derives rule (toks.map Token.symbol) t) (htail : rule.isTail = true)
    (hr : r.Follows rule.level) : (Tokens.append toks r).Follows (rule.level + 1) := by
  cases toks with
  | nil => exact hr.mono (Nat.le_succ _)
  | cons tok toks =>
      have hlevel := joinLevel_head_of_tail h htail
      simp only [Tokens.append_cons, Tokens.Follows]
      omega

end Derives

end Recalc.Formula
