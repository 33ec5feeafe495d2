import Recalc.Proofs.ParseSteps

/-! # The reader accepts exactly the sums of the grammar and returns the formula of their unique
derivation -/

namespace Recalc.Formula

def Rule.reader (limit depth : Nat) : (rule : Rule) → (ts : Tokens) → Parsed ts
  | .sum => Formula.sum limit depth
  | .sumTail a => Formula.sumTail limit depth a
  | .product => Formula.product limit depth
  | .productTail a => Formula.productTail limit depth a
  | .unary => Formula.unary limit depth
  | .power => Formula.power limit depth
  | .primary => Formula.primary limit depth

/-- The place of each rule in the readers' recursion: a reader calls readers of lower rules on
the same tokens, and any reader on fewer tokens. -/
def Rule.rank : Rule → Nat
  | .sum => 6
  | .sumTail _ => 5
  | .product => 4
  | .productTail _ => 3
  | .unary => 2
  | .power => 1
  | .primary => 0

/-- The weight of a call of a reader: fewer tokens weigh less, whatever the rules. -/
def Rule.weight (rule : Rule) (ts : Tokens) : Nat := ts.size * 8 + rule.rank

theorem Rule.rank_lt (rule : Rule) : rule.rank < 8 := by
  cases rule <;> simp [Rule.rank]

theorem Rule.weight_lt_of_size_lt {rule rule' : Rule} {ts ts' : Tokens} (h : ts'.size < ts.size) :
    rule'.weight ts' < rule.weight ts := by
  have := rule'.rank_lt
  unfold Rule.weight
  omega

theorem Rule.weight_lt_of_rank_lt {rule rule' : Rule} {ts ts' : Tokens} (h : ts'.size ≤ ts.size)
    (hr : rule'.rank < rule.rank) : rule'.weight ts' < rule.weight ts := by
  unfold Rule.weight
  omega

/-- Induction on the weight of a call: what holds of a call whenever it holds of every lighter one
holds of every call. Every call a reader makes is lighter than its own. -/
theorem Rule.weight_induction {motive : Rule → Tokens → Prop}
    (step : ∀ rule ts, (∀ rule' ts', rule'.weight ts' < rule.weight ts → motive rule' ts') →
      motive rule ts)
    (rule : Rule) (ts : Tokens) : motive rule ts := by
  suffices h : ∀ n rule ts, rule.weight ts < n → motive rule ts from
    h _ rule ts (Nat.lt_succ_self _)
  intro n
  induction n with
  | zero => intro rule ts h; omega
  | succ n ih =>
      intro rule ts hn
      exact step rule ts fun rule' ts' h' => ih rule' ts' (by omega)

/-! ## Soundness -/

/-- Whatever the reader of `rule` reads at the front of `ts` is a phrase of the rule. -/
def ReadsPhrase (limit : Nat) (rule : Rule) (ts : Tokens) : Prop :=
  ∀ depth t r, (rule.reader limit depth ts).plain = .ok (t, r) →
    ∃ toks, ts = Tokens.append toks r ∧ Derives rule (toks.map Token.symbol) t

def ReadsPhraseBelow (limit n : Nat) : Prop :=
  ∀ rule ts, Rule.weight rule ts < n → ReadsPhrase limit rule ts

section Soundness

variable {limit : Nat} {ts : Tokens}

theorem readsPhrase_sum (ih : ReadsPhraseBelow limit (Rule.sum.weight ts)) :
    ReadsPhrase limit .sum ts := by
  intro depth t r h
  rw [Rule.reader, plain_sum] at h
  obtain ⟨⟨a, r1⟩, hp, ht⟩ := bind_eq_ok.1 h
  obtain ⟨toks1, rfl, hd1⟩ :=
    ih .product ts (Rule.weight_lt_of_rank_lt (Nat.le_refl _) (by decide)) depth a r1 hp
  obtain ⟨toks2, rfl, hd2⟩ := ih (.sumTail a) r1
    (Rule.weight_lt_of_rank_lt (Tokens.size_le_append _ _) (by simp [Rule.rank])) depth t r ht
  exact ⟨toks1 ++ toks2, by simp, by simpa using hd1.sum hd2⟩

theorem readsPhrase_product (ih : ReadsPhraseBelow limit (Rule.product.weight ts)) :
    ReadsPhrase limit .product ts := by
  intro depth t r h
  rw [Rule.reader, plain_product] at h
  obtain ⟨⟨a, r1⟩, hu, ht⟩ := bind_eq_ok.1 h
  obtain ⟨toks1, rfl, hd1⟩ :=
    ih .unary ts (Rule.weight_lt_of_rank_lt (Nat.le_refl _) (by decide)) depth a r1 hu
  obtain ⟨toks2, rfl, hd2⟩ := ih (.productTail a) r1
    (Rule.weight_lt_of_rank_lt (Tokens.size_le_append _ _) (by simp [Rule.rank])) depth t r ht
  exact ⟨toks1 ++ toks2, by simp, by simpa using hd1.product hd2⟩

theorem readsPhrase_sumTail (a : Formula)
    (ih : ReadsPhraseBelow limit ((Rule.sumTail a).weight ts)) :
    ReadsPhrase limit (.sumTail a) ts := by
  intro depth t r h
  rw [Rule.reader] at h
  by_cases hc : ∃ tok rest, ts = .cons tok rest
  · obtain ⟨tok, rest, rfl⟩ := hc
    cases hop : sumOp? tok.symbol with
    | none =>
        rw [plain_sumTail_of_none limit depth hop] at h
        cases h
        exact ⟨[], rfl, .sumEnd⟩
    | some op =>
        rw [plain_sumTail_of_op limit depth hop] at h
        obtain ⟨r1, hr1, h⟩ := bind_eq_ok.1 h
        cases eq_of_map_advance hr1
        obtain ⟨⟨b, r2⟩, hp, ht⟩ := bind_eq_ok.1 h
        obtain ⟨toks1, rfl, hd1⟩ :=
          ih .product rest (Rule.weight_lt_of_size_lt (Nat.lt_succ_self _)) depth b r2 hp
        have hfewer : r2.size < (Tokens.cons tok (Tokens.append toks1 r2)).size :=
          Nat.lt_succ_of_le (Tokens.size_le_append _ _)
        obtain ⟨toks2, rfl, hd2⟩ :=
          ih (.sumTail (.bin op a b)) r2 (Rule.weight_lt_of_size_lt hfewer) depth t r ht
        refine ⟨tok :: (toks1 ++ toks2), by simp, ?_⟩
        simpa using Derives.sumMore hop hd1 hd2
  · -- at the end of the tokens, or before one that cannot be read, the tail is empty
    rw [plain_sumTail_of_not_cons limit depth ts fun tok rest h => hc ⟨tok, rest, h⟩] at h
    cases h
    exact ⟨[], rfl, .sumEnd⟩

theorem readsPhrase_productTail (a : Formula)
    (ih : ReadsPhraseBelow limit ((Rule.productTail a).weight ts)) :
    ReadsPhrase limit (.productTail a) ts := by
  intro depth t r h
  rw [Rule.reader] at h
  by_cases hc : ∃ tok rest, ts = .cons tok rest
  · obtain ⟨tok, rest, rfl⟩ := hc
    cases hop : productOp? tok.symbol with
    | none =>
        rw [plain_productTail_of_none limit depth hop] at h
        cases h
        exact ⟨[], rfl, .productEnd⟩
    | some op =>
        rw [plain_productTail_of_op limit depth hop] at h
        obtain ⟨r1, hr1, h⟩ := bind_eq_ok.1 h
        cases eq_of_map_advance hr1
        obtain ⟨⟨b, r2⟩, hu, ht⟩ := bind_eq_ok.1 h
        obtain ⟨toks1, rfl, hd1⟩ :=
          ih .unary rest (Rule.weight_lt_of_size_lt (Nat.lt_succ_self _)) depth b r2 hu
        have hfewer : r2.size < (Tokens.cons tok (Tokens.append toks1 r2)).size :=
          Nat.lt_succ_of_le (Tokens.size_le_append _ _)
        obtain ⟨toks2, rfl, hd2⟩ :=
          ih (.productTail (.bin op a b)) r2 (Rule.weight_lt_of_size_lt hfewer) depth t r ht
        refine ⟨tok :: (toks1 ++ toks2), by simp, ?_⟩
        simpa using Derives.productMore hop hd1 hd2
  · -- at the end of the tokens, or before one that cannot be read, the tail is empty
    rw [plain_productTail_of_not_cons limit depth ts fun tok rest h => hc ⟨tok, rest, h⟩] at h
    cases h
    exact ⟨[], rfl, .productEnd⟩

theorem readsPhrase_unary (ih : ReadsPhraseBelow limit (Rule.unary.weight ts)) :
    ReadsPhrase limit .unary ts := by
  intro depth t r h
  rw [Rule.reader] at h
  by_cases hl : limit < depth + 1
  · rw [plain_unary_of_lt limit depth hl] at h
    cases h
  · by_cases hm : ∃ pos rest, ts = .cons ⟨.minus, pos⟩ rest
    · obtain ⟨pos, rest, rfl⟩ := hm
      rw [plain_unary_minus limit depth hl] at h
      obtain ⟨r1, hr1, h⟩ := bind_eq_ok.1 h
      cases eq_of_map_advance hr1
      obtain ⟨⟨a, r'⟩, hu, he⟩ := map_eq_ok.1 h
      cases he
      obtain ⟨toks, rfl, hd⟩ :=
        ih .unary rest (Rule.weight_lt_of_size_lt (Nat.lt_succ_self _)) (depth + 1) a _ hu
      exact ⟨⟨.minus, pos⟩ :: toks, rfl, hd.neg⟩
    · have hts : ∀ pos rest, ts ≠ .cons ⟨.minus, pos⟩ rest :=
        fun pos rest heq => hm ⟨pos, rest, heq⟩
      rw [plain_unary_of_not_minus limit depth hl hts] at h
      obtain ⟨toks, rfl, hd⟩ :=
        ih .power ts (Rule.weight_lt_of_rank_lt (Nat.le_refl _) (by decide)) (depth + 1) t r h
      exact ⟨toks, rfl, hd.power⟩

theorem readsPhrase_power (ih : ReadsPhraseBelow limit (Rule.power.weight ts)) :
    ReadsPhrase limit .power ts := by
  intro depth t r h
  rw [Rule.reader, plain_power] at h
  obtain ⟨⟨a, r1⟩, hp, he⟩ := bind_eq_ok.1 h
  obtain ⟨toks1, rfl, hd1⟩ :=
    ih .primary ts (Rule.weight_lt_of_rank_lt (Nat.le_refl _) (by decide)) depth a r1 hp
  rcases exponent_eq_ok limit depth he with ⟨rfl, rfl⟩ | ⟨pos, rest, b, rfl, hu, rfl⟩
  · exact ⟨toks1, rfl, hd1.base⟩
  · -- the exponent lies after the base and the `^`
    have hfewer : rest.size < (Tokens.append toks1 (.cons ⟨.caret, pos⟩ rest)).size :=
      Nat.lt_of_lt_of_le (Nat.lt_succ_self _)
        (Tokens.size_le_append toks1 (.cons ⟨.caret, pos⟩ rest))
    obtain ⟨toks2, rfl, hd2⟩ := ih .unary rest (Rule.weight_lt_of_size_lt hfewer) depth b r hu
    exact ⟨toks1 ++ ⟨.caret, pos⟩ :: toks2, by simp, by simpa using hd1.pow hd2⟩

theorem readsPhrase_primary (ih : ReadsPhraseBelow limit (Rule.primary.weight ts)) :
    ReadsPhrase limit .primary ts := by
  intro depth t r h
  rw [Rule.reader] at h
  rcases primary_head limit depth h with
    ⟨v, pos, rest, rfl⟩ | ⟨x, pos, rest, rfl⟩ | ⟨pos, rest, rfl⟩
  · rw [plain_primary_number] at h
    cases eq_of_map_map_advance h
    exact ⟨[⟨.number v, pos⟩], rfl, .number⟩
  · rw [plain_primary_name] at h
    cases eq_of_map_map_advance h
    exact ⟨[⟨.name x, pos⟩], rfl, .name⟩
  · rw [plain_primary_paren] at h
    obtain ⟨r1, hr1, h⟩ := bind_eq_ok.1 h
    cases eq_of_map_advance hr1
    obtain ⟨⟨a, r2⟩, hs, hc⟩ := bind_eq_ok.1 h
    obtain ⟨pos', rfl, rfl⟩ := closing_eq_ok hc
    obtain ⟨toks, rfl, hd⟩ :=
      ih .sum rest (Rule.weight_lt_of_size_lt (Nat.lt_succ_self _)) depth t _ hs
    refine ⟨⟨.openParen, pos⟩ :: (toks ++ [⟨.closeParen, pos'⟩]), by simp, ?_⟩
    simpa using hd.paren

end Soundness

/-- Whatever a reader reads is a phrase of its rule. -/
theorem readsPhrase (limit : Nat) (rule : Rule) (ts : Tokens) : ReadsPhrase limit rule ts := by
  induction rule, ts using Rule.weight_induction with
  | step rule ts ih =>
      cases rule with
      | sum => exact readsPhrase_sum ih
      | sumTail a => exact readsPhrase_sumTail a ih
      | product => exact readsPhrase_product ih
      | productTail a => exact readsPhrase_productTail a ih
      | unary => exact readsPhrase_unary ih
      | power => exact readsPhrase_power ih
      | primary => exact readsPhrase_primary ih

/-! ## Completeness -/

/-- A power or a primary is read one level deeper than the `unary` it belongs to: its depth
already counts that level. -/
def Rule.slack : Rule → Nat
  | .power | .primary => 1
  | _ => 0

/-- The reader gives `a`, unless the nesting limit stops it, which it does only when the limit is
below `n`. -/
def GivesUnlessDeep {α : Type} (limit n : Nat) (x : Except Error α) (a : α) : Prop :=
  x = .ok a ∨ (x = .error (.nestingTooDeep limit) ∧ limit < n)

namespace GivesUnlessDeep

variable {α β : Type} {limit n m : Nat} {x : Except Error α} {a : α}

theorem tooDeep (hl : limit < n) (a : α) :
    GivesUnlessDeep limit n (.error (.nestingTooDeep limit)) a :=
  .inr ⟨rfl, hl⟩

theorem mono (h : GivesUnlessDeep limit n x a) (hn : n ≤ m) : GivesUnlessDeep limit m x a := by
  rcases h with h | ⟨h, hl⟩
  · exact .inl h
  · exact .inr ⟨h, Nat.lt_of_lt_of_le hl hn⟩

theorem bind {f : α → Except Error β} {b : β} (hx : GivesUnlessDeep limit n x a)
    (hf : GivesUnlessDeep limit n (f a) b) : GivesUnlessDeep limit n (x.bind f) b := by
  rcases hx with rfl | ⟨rfl, hl⟩
  · exact hf
  · exact .tooDeep hl b

theorem map (hx : GivesUnlessDeep limit n x a) (f : α → β) :
    GivesUnlessDeep limit n (x.map f) (f a) := by
  rcases hx with rfl | ⟨rfl, hl⟩
  · exact .inl rfl
  · exact .tooDeep hl (f a)

theorem eq_ok (h : GivesUnlessDeep limit n x a) (hn : n ≤ limit) : x = .ok a := by
  rcases h with h | ⟨-, hl⟩
  · exact h
  · omega

end GivesUnlessDeep

/-- A power never starts with a minus, so the reader of a `unary` leaves it to the reader of
powers. -/
theorem Derives.append_ne_minus {toks : List Token} {a : Formula}
    (h : Derives .power (toks.map Token.symbol) a) (r : Tokens) :
    ∀ pos rest, Tokens.append toks r ≠ .cons ⟨.minus, pos⟩ rest := by
  obtain ⟨s, ss, hss, hs⟩ := h.head_power
  intro pos rest heq
  cases toks with
  | nil => cases hss
  | cons tok toks =>
      simp only [List.map_cons, List.cons.injEq] at hss
      simp only [Tokens.append_cons, Tokens.cons.injEq] at heq
      rw [← hss.1, heq.1] at hs
      simp [Symbol.joinLevel] at hs

/-- A phrase of a rule, followed by tokens that cannot extend it, is read whole, unless the
nesting limit stops the reader first, which it does only when the limit is below the depth plus
the number of tokens. -/
theorem Derives.read {rule : Rule} {ss : List Symbol} {t : Formula} (h : Derives rule ss t)
    (limit : Nat) : ∀ depth toks r, toks.map Token.symbol = ss → r.Follows rule.level →
      GivesUnlessDeep limit (depth + toks.length - rule.slack)
        (rule.reader limit depth (Tokens.append toks r)).plain (t, r) := by
  induction h with
  | sum hp ht ihp iht =>
      intro depth toks r hmap hr
      obtain ⟨toks1, toks2, rfl, rfl, rfl⟩ := List.map_eq_append_iff.1 hmap
      rw [Tokens.append_append, Rule.reader, plain_sum]
      exact ((ihp depth toks1 _ rfl (ht.follows_append_of_tail rfl hr)).mono
        (by simp [Rule.slack])).bind ((iht depth toks2 r rfl hr).mono (by simp [Rule.slack]))
  | product hu ht ihu iht =>
      intro depth toks r hmap hr
      obtain ⟨toks1, toks2, rfl, rfl, rfl⟩ := List.map_eq_append_iff.1 hmap
      rw [Tokens.append_append, Rule.reader, plain_product]
      exact ((ihu depth toks1 _ rfl (ht.follows_append_of_tail rfl hr)).mono
        (by simp [Rule.slack])).bind ((iht depth toks2 r rfl hr).mono (by simp [Rule.slack]))
  | sumEnd =>
      intro depth toks r hmap hr
      cases List.map_eq_nil_iff.1 hmap
      exact .inl (plain_sumTail_of_follows limit depth hr _)
  | productEnd =>
      intro depth toks r hmap hr
      cases List.map_eq_nil_iff.1 hmap
      exact .inl (plain_productTail_of_follows limit depth hr _)
  | sumMore hop hp ht ihp iht =>
      intro depth toks r hmap hr
      obtain ⟨tok, rest, rfl, rfl, hrest⟩ := List.map_eq_cons_iff.1 hmap
      obtain ⟨toks1, toks2, rfl, rfl, rfl⟩ := List.map_eq_append_iff.1 hrest
      rw [Tokens.append_cons, Tokens.append_append, Rule.reader,
        plain_sumTail_of_op limit depth hop, map_advance_append (hp.tokens_ne_nil rfl)]
      exact ((ihp depth toks1 _ rfl (ht.follows_append_of_tail rfl hr)).mono
        (by simp only [Rule.slack, List.length_cons, List.length_append]; omega)).bind
        ((iht depth toks2 r rfl hr).mono
          (by simp only [Rule.slack, List.length_cons, List.length_append]; omega))
  | productMore hop hu ht ihu iht =>
      intro depth toks r hmap hr
      obtain ⟨tok, rest, rfl, rfl, hrest⟩ := List.map_eq_cons_iff.1 hmap
      obtain ⟨toks1, toks2, rfl, rfl, rfl⟩ := List.map_eq_append_iff.1 hrest
      rw [Tokens.append_cons, Tokens.append_append, Rule.reader,
        plain_productTail_of_op limit depth hop, map_advance_append (hu.tokens_ne_nil rfl)]
      exact ((ihu depth toks1 _ rfl (ht.follows_append_of_tail rfl hr)).mono
        (by simp only [Rule.slack, List.length_cons, List.length_append]; omega)).bind
        ((iht depth toks2 r rfl hr).mono
          (by simp only [Rule.slack, List.length_cons, List.length_append]; omega))
  | neg hu ihu =>
      intro depth toks r hmap hr
      obtain ⟨⟨s, pos⟩, toks', rfl, hs, rfl⟩ := List.map_eq_cons_iff.1 hmap
      cases hs
      rw [Tokens.append_cons, Rule.reader]
      by_cases hl : limit < depth + 1
      · rw [plain_unary_of_lt limit depth hl]
        exact .tooDeep (by simp only [Rule.slack, List.length_cons]; omega) _
      · rw [plain_unary_minus limit depth hl, map_advance_append (hu.tokens_ne_nil rfl)]
        exact ((ihu (depth + 1) toks' r rfl hr).mono
          (by simp only [Rule.slack, List.length_cons]; omega)).map _
  | power hp ihp =>
      intro depth toks r hmap hr
      subst hmap
      have hlen : 0 < toks.length := List.length_pos_iff.2 (hp.tokens_ne_nil rfl)
      rw [Rule.reader]
      by_cases hl : limit < depth + 1
      · rw [plain_unary_of_lt limit depth hl]
        exact .tooDeep (by simp only [Rule.slack]; omega) _
      · rw [plain_unary_of_not_minus limit depth hl (hp.append_ne_minus r)]
        exact (ihp (depth + 1) toks r rfl hr).mono (by simp [Rule.slack])
  | base hp ihp =>
      intro depth toks r hmap hr
      rw [Rule.reader, plain_power]
      exact (ihp depth toks r hmap (hr.mono (by decide))).bind
        (.inl (exponent_of_follows limit depth hr _))
  | pow hp hu ihp ihu =>
      intro depth toks r hmap hr
      obtain ⟨toks1, rest, rfl, rfl, hrest⟩ := List.map_eq_append_iff.1 hmap
      obtain ⟨⟨s, pos⟩, toks2, rfl, hs, rfl⟩ := List.map_eq_cons_iff.1 hrest
      cases hs
      have hlen : 0 < toks1.length := List.length_pos_iff.2 (hp.tokens_ne_nil rfl)
      rw [Tokens.append_append, Tokens.append_cons, Rule.reader, plain_power]
      refine ((ihp depth toks1 _ rfl (by simp [Tokens.Follows, Symbol.joinLevel, Rule.level])).mono
        (by simp only [Rule.slack, List.length_cons, List.length_append]; omega)).bind ?_
      simp only [exponent, map_advance_append (hu.tokens_ne_nil rfl)]
      exact ((ihu depth toks2 r rfl hr).mono
        (by simp only [Rule.slack, List.length_cons, List.length_append]; omega)).map _
  | number =>
      intro depth toks r hmap hr
      obtain ⟨⟨s, pos⟩, toks', rfl, hs, hnil⟩ := List.map_eq_cons_iff.1 hmap
      cases hs
      cases List.map_eq_nil_iff.1 hnil
      rw [Tokens.append_cons, Tokens.append_nil, Rule.reader, plain_primary_number,
        map_advance_of_follows hr]
      exact .inl rfl
  | name =>
      intro depth toks r hmap hr
      obtain ⟨⟨s, pos⟩, toks', rfl, hs, hnil⟩ := List.map_eq_cons_iff.1 hmap
      cases hs
      cases List.map_eq_nil_iff.1 hnil
      rw [Tokens.append_cons, Tokens.append_nil, Rule.reader, plain_primary_name,
        map_advance_of_follows hr]
      exact .inl rfl
  | paren hs ihs =>
      intro depth toks r hmap hr
      obtain ⟨⟨so, pos⟩, rest, rfl, hso, hrest⟩ := List.map_eq_cons_iff.1 hmap
      cases hso
      obtain ⟨toks1, rest', rfl, rfl, hrest'⟩ := List.map_eq_append_iff.1 hrest
      obtain ⟨⟨sc, pos'⟩, toks3, rfl, hsc, hnil⟩ := List.map_eq_cons_iff.1 hrest'
      cases hsc
      cases List.map_eq_nil_iff.1 hnil
      rw [Tokens.append_cons, Tokens.append_append, Tokens.append_cons, Tokens.append_nil,
        Rule.reader, plain_primary_paren, map_advance_append (hs.tokens_ne_nil rfl)]
      exact ((ihs depth toks1 _ rfl (by simp [Tokens.Follows, Symbol.joinLevel, Rule.level])).mono
        (by simp [Rule.slack])).bind (.inl (closing_of_follows hr pos pos' _))

theorem Derives.read_eq_ok {rule : Rule} {toks : List Token} {t : Formula}
    (h : Derives rule (toks.map Token.symbol) t) {r : Tokens} (hr : r.Follows rule.level)
    (limit depth : Nat) (hlimit : depth + toks.length ≤ limit + rule.slack) :
    (rule.reader limit depth (Tokens.append toks r)).plain = .ok (t, r) :=
  (h.read limit depth toks r rfl hr).eq_ok (by omega)

/-- The grammar is unambiguous: the symbols of a phrase of a rule have one formula. -/
theorem Derives.unique {rule : Rule} {ss : List Symbol} {t t' : Formula} (h : Derives rule ss t)
    (h' : Derives rule ss t') : t = t' := by
  let toks : List Token := ss.map fun s => ⟨s, 0⟩
  have hmap : toks.map Token.symbol = ss := by simp [toks, Function.comp_def]
  have hroom : 0 + toks.length - rule.slack ≤ toks.length := by omega
  have e := (h.read toks.length 0 toks (.done 0) hmap trivial).eq_ok hroom
  have e' := (h'.read toks.length 0 toks (.done 0) hmap trivial).eq_ok hroom
  exact (Prod.mk.inj (Except.ok.inj (e.symm.trans e'))).1

/-! ## Reading a formula text -/

def atEnd (f : Formula) : Tokens → Except Error Formula
  | .done _ => .ok f
  | .cons t _ => .error (.malformed t.pos (.trailing t.symbol))
  | .fault pos p => .error (.malformed pos p)

theorem atEnd_eq_ok {f t : Formula} {r : Tokens} (h : atEnd f r = .ok t) :
    (∃ pos, r = .done pos) ∧ f = t := by
  cases r with
  | done pos =>
      cases h
      exact ⟨⟨pos, rfl⟩, rfl⟩
  | cons tok rest => cases h
  | fault pos p => cases h

section Text

variable {limits : Limits} {s : String}

theorem parse_of_fault (hlen : s.utf8ByteSize ≤ limits.maxLength)
    (hblank : Text.isBlankText s = false) {pos : Nat} {p : Problem}
    (hs : Tokens.scan s = .fault pos p) : parse limits s = .error (.malformed pos p) := by
  unfold parse
  rw [if_neg (by omega), if_neg (by simp [hblank]), hs]

theorem parse_eq_bind (hlen : s.utf8ByteSize ≤ limits.maxLength)
    (hblank : Text.isBlankText s = false) (hscan : ∀ pos p, Tokens.scan s ≠ .fault pos p) :
    parse limits s =
      (sum limits.maxDepth 0 (Tokens.scan s)).plain.bind fun p => atEnd p.1 p.2 := by
  unfold parse
  rw [if_neg (by omega), if_neg (by simp [hblank])]
  split
  · rename_i pos p hs
    exact absurd hs (hscan pos p)
  · rcases sum limits.maxDepth 0 (Tokens.scan s) with e | ⟨f, r, hr⟩
    · rfl
    · rcases r with pos | ⟨pos, p⟩ | ⟨tok, rest⟩ <;> rfl

/-- A formula text that is not blank, is within the length limit and does not nest too deeply
for the reader is read as `t` exactly when its tokens are a sum of the grammar whose formula is
`t`; and `t` is the formula of the only derivation of those tokens. -/
theorem parse_eq_ok_iff_derives (hblank : Text.isBlankText s = false)
    (hlen : s.utf8ByteSize ≤ limits.maxLength)
    (hdepth : parse limits s ≠ .error (.nestingTooDeep limits.maxDepth)) (t : Formula) :
    parse limits s = .ok t ↔ ∃ ss, (Tokens.scan s).symbols? = some ss ∧ Derives .sum ss t ∧
      ∀ t', Derives .sum ss t' → t' = t := by
  constructor
  · intro h
    have hscan : ∀ pos p, Tokens.scan s ≠ .fault pos p := by
      intro pos p hs
      rw [parse_of_fault hlen hblank hs] at h
      cases h
    rw [parse_eq_bind hlen hblank hscan] at h
    obtain ⟨⟨f, r⟩, hsum, hend⟩ := bind_eq_ok.1 h
    obtain ⟨⟨pos, rfl⟩, rfl⟩ := atEnd_eq_ok hend
    obtain ⟨toks, hts, hd⟩ := readsPhrase limits.maxDepth .sum _ 0 f _ hsum
    refine ⟨toks.map Token.symbol, ?_, hd, fun t' hd' => hd'.unique hd⟩
    rw [hts]
    exact Tokens.symbols?_append_done toks pos
  · rintro ⟨ss, hss, hd, -⟩
    obtain ⟨toks, pos, hts, rfl⟩ := Tokens.symbols?_eq_some_iff.1 hss
    have hscan : ∀ pos' p, Tokens.scan s ≠ .fault pos' p := by
      intro pos' p hs
      rw [hts] at hs
      cases toks <;> cases hs
    rw [parse_eq_bind hlen hblank hscan, hts] at hdepth ⊢
    rcases hd.read limits.maxDepth 0 toks (.done pos) rfl trivial with hok | ⟨hdeep, -⟩
    · rw [Rule.reader] at hok
      rw [hok]
      rfl
    · rw [Rule.reader] at hdeep
      rw [hdeep] at hdepth
      exact absurd rfl hdepth

/-- A text whose tokens are a phrase of a sum is read as that sum's formula, when the limit leaves
room for one level of nesting per token. -/
theorem parse_of_derives {toks : List Token} {pos : Nat} {t : Formula}
    (hlen : s.utf8ByteSize ≤ limits.maxLength) (hblank : Text.isBlankText s = false)
    (hscan : Tokens.scan s = Tokens.append toks (.done pos))
    (hd : Derives .sum (toks.map Token.symbol) t) (hroom : toks.length ≤ limits.maxDepth) :
    parse limits s = .ok t := by
  have hnf : ∀ pos' p, Tokens.scan s ≠ .fault pos' p := by
    intro pos' p hs
    rw [hscan] at hs
    cases toks <;> cases hs
  have hsum : (sum limits.maxDepth 0 (Tokens.scan s)).plain = .ok (t, .done pos) := by
    rw [hscan]
    have hend : (Tokens.done pos).Follows Rule.sum.level := trivial
    exact hd.read_eq_ok hend _ 0 (by simpa [Rule.slack] using hroom)
  rw [parse_eq_bind hlen hblank hnf, hsum]
  rfl

/-- The text `-a^b-c` is read as `-(a^b) - c`: `^` binds tighter than the leading minus, and the
minus between terms joins the negated power to `c`. -/
theorem parse_negPowSub :
    parse {} "-a^b-c" = .ok (.bin .sub (.neg (.bin .pow (.var "a") (.var "b"))) (.var "c")) := by
  let toks : List Token := [⟨.minus, 0⟩, ⟨.name "a", 1⟩, ⟨.caret, 2⟩, ⟨.name "b", 3⟩,
    ⟨.minus, 4⟩, ⟨.name "c", 5⟩]
  have hscan : Tokens.scan "-a^b-c" = Tokens.append toks (.done 6) := by
    have hm : Text.isBlank '-' = false := by decide
    have hc : Text.isBlank '^' = false := by decide
    have ha : Text.isBlank 'a' = false := by decide
    have hb : Text.isBlank 'b' = false := by decide
    have hc' : Text.isBlank 'c' = false := by decide
    have hm1 : '-'.utf8Size = 1 := rfl
    have hc1 : '^'.utf8Size = 1 := rfl
    simp [toks, Tokens.scan, Tokens.scanFrom, singleSymbol?, isNameStart, isNameChar, hm, hc, ha,
      hb, hc', hm1, hc1]
  have hpow : Derives .unary [.minus, .name "a", .caret, .name "b"]
      (.neg (.bin .pow (.var "a") (.var "b"))) :=
    .neg (.power (.pow .name (.power (.base .name))))
  have hc : Derives .product [.name "c"] (.var "c") := by
    simpa using Derives.product (.power (.base .name)) .productEnd
  have hd : Derives .sum (toks.map Token.symbol)
      (.bin .sub (.neg (.bin .pow (.var "a") (.var "b"))) (.var "c")) := by
    simpa [toks] using Derives.sum (.product hpow .productEnd) (.sumMore rfl hc .sumEnd)
  exact parse_of_derives (by decide) (by decide) hscan hd (by decide)

/-- The text `-a^b-c` meets the conditions. -/
theorem parse_eq_ok_iff_derives_ops :
    let t : Formula := .bin .sub (.neg (.bin .pow (.var "a") (.var "b"))) (.var "c")
    Text.isBlankText "-a^b-c" = false ∧ "-a^b-c".utf8ByteSize ≤ ({} : Limits).maxLength ∧
      parse {} "-a^b-c" ≠ .error (.nestingTooDeep ({} : Limits).maxDepth) ∧
      (parse {} "-a^b-c" = .ok t ↔ ∃ ss, (Tokens.scan "-a^b-c").symbols? = some ss ∧
        Derives .sum ss t ∧ ∀ t', Derives .sum ss t' → t' = t) := by
  intro t
  have hblank : Text.isBlankText "-a^b-c" = false := by decide
  have hlen : "-a^b-c".utf8ByteSize ≤ ({} : Limits).maxLength := by decide
  have hdepth : parse {} "-a^b-c" ≠ .error (.nestingTooDeep ({} : Limits).maxDepth) := by
    rw [parse_negPowSub]
    intro h
    cases h
  exact ⟨hblank, hlen, hdepth, parse_eq_ok_iff_derives hblank hlen hdepth _⟩

end Text

end Recalc.Formula
