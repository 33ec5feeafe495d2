import Recalc.Formula.Ast
import Recalc.Proofs.Lowering
import Recalc.Proofs.NestingLimit
import Recalc.Proofs.Lexemes

/-! # The pushing readers lay out the formula the tree readers read, node for node: a post-order
arena whose leaves come in token order -/

namespace Recalc.Formula

/-- The formula that node `i` of an arena stands for, its operands read at their places; `none`
when a place is missing or an operand does not come before its node. -/
def readAt (arena : List Node) (i : Nat) : Option Formula :=
  match arena[i]? with
  | some (.num v) => some (.num v)
  | some (.var x) => some (.var x)
  | some (.neg a) => if a < i then (readAt arena a).map .neg else none
  | some (.bin op l r) =>
    if l < i ∧ r < i then
      (readAt arena l).bind fun lhs => (readAt arena r).map (.bin op lhs)
    else none
  | none => none
termination_by i

/-! ## Reading an arena back -/

theorem readAt_append {xs : List Node} (ys : List Node) {i : Nat} (hi : i < xs.length) :
    readAt (xs ++ ys) i = readAt xs i := by
  induction i using Nat.strongRecOn with
  | ind i ih =>
      rw [readAt, readAt, List.getElem?_append_left hi]
      split
      case h_3 a _ =>
        split
        · rw [ih a (by omega) (by omega)]
        · rfl
      case h_4 op l r _ =>
        split
        · rename_i h
          rw [ih l h.1 (by omega), ih r h.2 (by omega)]
        · rfl
      all_goals rfl

theorem getElem?_append_singleton_of_eq {xs : List Node} {x : Node} {i : Nat} (h : i = xs.length) :
    (xs ++ [x])[i]? = some x := by
  subst h
  simp

/-- A formula laid out after the nodes `pre` is read back from the last place of its block. -/
theorem readAt_layout (f : Formula) (pre : List Node) :
    readAt (pre ++ f.layout pre.length) (pre.length + f.size - 1) = some f := by
  induction f generalizing pre with
  | num v => rw [readAt, layout_num, getElem?_append_singleton_of_eq (by simp [size])]
  | var x => rw [readAt, layout_var, getElem?_append_singleton_of_eq (by simp [size])]
  | neg a ih =>
      have ha := a.size_pos
      rw [readAt, layout_neg, ← List.append_assoc,
        getElem?_append_singleton_of_eq (by simp [size])]
      dsimp only
      rw [if_pos (by simp [size]; omega), readAt_append _ (by simp; omega), ih]
      rfl
  | bin op l r ihl ihr =>
      have hl := l.size_pos
      have hr := r.size_pos
      -- the operands are read from the last places of their blocks, before the new node
      have hlhs : readAt (pre ++ l.layout pre.length ++ r.layout (pre.length + l.size) ++
          [.bin op (pre.length + l.size - 1) (pre.length + l.size + r.size - 1)])
          (pre.length + l.size - 1) = some l := by
        rw [readAt_append _ (by simp; omega), readAt_append _ (by simp; omega), ihl]
      have hrhs : readAt (pre ++ l.layout pre.length ++ r.layout (pre.length + l.size) ++
          [.bin op (pre.length + l.size - 1) (pre.length + l.size + r.size - 1)])
          (pre.length + l.size + r.size - 1) = some r := by
        have := ihr (pre ++ l.layout pre.length)
        simp only [List.length_append, length_layout] at this
        rw [readAt_append _ (by simp; omega), this]
      rw [readAt, layout_bin, ← List.append_assoc, ← List.append_assoc,
        getElem?_append_singleton_of_eq (by simp [size])]
      dsimp only
      rw [if_pos (by simp [size]; omega), hlhs, hrhs]
      rfl

/-! ## Operands -/

theorem count_operands_layout (f : Formula) (n k : Nat) :
    ((f.layout n).flatMap Node.operands).count k = if n ≤ k ∧ k + 1 < n + f.size then 1 else 0 := by
  induction f generalizing n with
  | num v => simp [Node.operands, size]
  | var x => simp [Node.operands, size]
  | neg a ih =>
      have := a.size_pos
      simp [List.flatMap_append, List.count_append, ih, Node.operands, size, List.count_cons]
      grind
  | bin op l r ihl ihr =>
      have := l.size_pos
      have := r.size_pos
      simp [List.flatMap_append, List.count_append, ihl, ihr, Node.operands, size, List.count_cons]
      grind

/-- An arena in post-order with its root last: it is not empty, every operand comes before the
node that reads it, and every node but the root is read by exactly one node, once. -/
structure PostOrder (arena : List Node) (root : Nat) : Prop where
  ne_nil : arena ≠ []
  root_last : root + 1 = arena.length
  operands_lt : ∀ i (node : Node), arena[i]? = some node → ∀ k ∈ node.operands, k < i
  read_once : ∀ k, (arena.flatMap Node.operands).count k = if k < root then 1 else 0

theorem nodes_postOrder (f : Formula) : PostOrder f.nodes f.root where
  ne_nil := by
    rw [nodes_eq_layout, ← List.length_pos_iff, length_layout]
    exact f.size_pos
  root_last := by
    have := f.size_pos
    rw [root, nodes_eq_layout, length_layout]
    omega
  operands_lt i node h k hk := by
    have := operands_layout f 0 i node h k hk
    omega
  read_once k := by
    have := f.size_pos
    rw [nodes_eq_layout, count_operands_layout, root]
    grind

/-! ## Leaves -/

def Node.leaf? : Node → Option Symbol
  | .num v => some (.number v)
  | .var x => some (.name x)
  | _ => none

def Symbol.isOperand : Symbol → Bool
  | .number _ | .name _ => true
  | _ => false

/-- The leaves of a formula, left to right, as the symbols they were read from. -/
def leaves : Formula → List Symbol
  | .num v => [.number v]
  | .var x => [.name x]
  | .neg a => a.leaves
  | .bin _ l r => l.leaves ++ r.leaves

theorem filterMap_leaf?_layout (f : Formula) (n : Nat) :
    (f.layout n).filterMap Node.leaf? = f.leaves := by
  induction f generalizing n with
  | num v => rfl
  | var x => rfl
  | neg a ih => simp [ih, Node.leaf?, leaves]
  | bin op l r ihl ihr => simp [ihl, ihr, Node.leaf?, leaves]

/-- The leaves that the phrase before a tail contributes. -/
def Rule.leavesBefore : Rule → List Symbol
  | .sumTail a | .productTail a => a.leaves
  | _ => []

theorem isOperand_of_sumOp? {s : Symbol} {op : BinOp} (h : sumOp? s = some op) :
    s.isOperand = false := by
  cases s <;> simp_all [sumOp?, Symbol.isOperand]

theorem isOperand_of_productOp? {s : Symbol} {op : BinOp} (h : productOp? s = some op) :
    s.isOperand = false := by
  cases s <;> simp_all [productOp?, Symbol.isOperand]

/-- The leaves of a derived formula are the numbers and names of its phrase, in order, after those
of the phrase before a tail. -/
theorem Derives.leaves_eq {rule : Rule} {ss : List Symbol} {t : Formula} (h : Derives rule ss t) :
    t.leaves = rule.leavesBefore ++ ss.filter Symbol.isOperand := by
  induction h with
  | sum _ _ ih₁ ih₂ => simp_all [Rule.leavesBefore]
  | sumEnd => simp [Rule.leavesBefore]
  | sumMore hop _ _ ih₁ ih₂ =>
      simp_all [Rule.leavesBefore, leaves, isOperand_of_sumOp? hop]
  | product _ _ ih₁ ih₂ => simp_all [Rule.leavesBefore]
  | productEnd => simp [Rule.leavesBefore]
  | productMore hop _ _ ih₁ ih₂ =>
      simp_all [Rule.leavesBefore, leaves, isOperand_of_productOp? hop]
  | neg _ ih => simp_all [Rule.leavesBefore, leaves, Symbol.isOperand]
  | power _ ih => simp_all [Rule.leavesBefore]
  | base _ ih => simp_all [Rule.leavesBefore]
  | pow _ _ ih₁ ih₂ => simp_all [Rule.leavesBefore, leaves, Symbol.isOperand]
  | number => rfl
  | name => rfl
  | paren _ ih => simp_all [Rule.leavesBefore, Symbol.isOperand]

/-! ## The arena of a formula that was read -/

section Reading

variable {limits : Limits} {s : String} {t : Formula}

theorem parse_eq_ok_checks (h : parse limits s = .ok t) :
    s.utf8ByteSize ≤ limits.maxLength ∧ Text.isBlankText s = false := by
  unfold parse at h
  split at h
  · cases h
  · split at h
    · cases h
    · rename_i hlong hblank
      exact ⟨Nat.le_of_not_lt hlong, by simpa using hblank⟩

theorem parse_eq_ok_tokens (h : parse limits s = .ok t) :
    ∃ toks pos, Tokens.scan s = Tokens.append toks (.done pos) ∧
      Derives .sum (toks.map Token.symbol) t := by
  obtain ⟨hlen, hblank⟩ := parse_eq_ok_checks h
  have hscan : ∀ pos p, Tokens.scan s ≠ .fault pos p := by
    intro pos p hs
    rw [parse_of_fault hlen hblank hs] at h
    cases h
  rw [parse_eq_bind hlen hblank hscan] at h
  obtain ⟨⟨f, r⟩, hsum, hend⟩ := bind_eq_ok.1 h
  obtain ⟨⟨pos, rfl⟩, rfl⟩ := atEnd_eq_ok hend
  obtain ⟨toks, hts, hd⟩ := readsPhrase limits.maxDepth .sum _ 0 f _ hsum
  exact ⟨toks, pos, hts, hd⟩

end Reading

@[simp] theorem Tokens.toList_append (toks : List Token) (r : Tokens) :
    (Tokens.append toks r).toList = toks ++ r.toList := by
  induction toks with
  | nil => rfl
  | cons tok toks ih => simp [Tokens.toList, ih]

theorem primary_paren_eq_ok {limit depth p : Nat} {rest r : Tokens} {g : Formula}
    (h : (primary limit depth (.cons ⟨.openParen, p⟩ rest)).plain = .ok (g, r)) :
    ∃ r', (sum limit depth rest).plain = .ok (g, r') := by
  rw [plain_primary_paren] at h
  obtain ⟨r1, hadv, hin⟩ := bind_eq_ok.1 h
  obtain rfl := eq_of_map_advance hadv
  obtain ⟨⟨inner, r2⟩, hsum, hclose⟩ := bind_eq_ok.1 hin
  obtain ⟨_, _, rfl⟩ := closing_eq_ok hclose
  exact ⟨r2, hsum⟩

/-- The arena of a formula read from a text is a post-order tree whose leaves come in the order of
the tokens, which increases their offsets. -/
theorem parse_arena {limits : Limits} {s : String} {t : Formula} (h : parse limits s = .ok t) :
    PostOrder t.nodes t.root ∧ readAt t.nodes t.root = some t ∧
      ∃ toks pos, Tokens.scan s = Tokens.append toks (.done pos) ∧
        (toks.map Token.pos).Pairwise (· < ·) ∧
        t.nodes.filterMap Node.leaf? =
          (toks.filter fun tok => tok.symbol.isOperand).map Token.symbol := by
  obtain ⟨toks, pos, hscan, hd⟩ := parse_eq_ok_tokens h
  have hroot : readAt t.nodes t.root = some t := by
    simpa [nodes_eq_layout, root] using readAt_layout t []
  have hpos := (scan_lexed s).positions.1
  rw [hscan, Tokens.toList_append] at hpos
  refine ⟨nodes_postOrder t, hroot, toks, pos, hscan, by simpa [Tokens.toList] using hpos, ?_⟩
  rw [nodes_eq_layout, filterMap_leaf?_layout, hd.leaves_eq]
  simp only [Rule.leavesBefore, List.nil_append, List.filter_map]
  rfl

/-! ## Reading into an arena

The readers that push lay out after the arena they are given, node for node, what the readers of
the tree read (`pushers_layOut`), and give the place of the last node they pushed. -/

def Pushed.plain {ts : Tokens} (p : Pushed ts) : Except Error (Nat × Array Node × Tokens) :=
  p.map fun x => (x.1, x.2.1, x.2.2.1)

theorem Pushed.eq_ok_of_plain {ts : Tokens} {p : Pushed ts} {i : Nat} {a : Array Node}
    {r : Tokens} (h : p.plain = .ok (i, a, r)) : ∃ hr, p = .ok (i, a, ⟨r, hr⟩) := by
  obtain ⟨⟨j, b, r', hr'⟩, hp, he⟩ := map_eq_ok.1 h
  simp only [Prod.mk.injEq] at he
  obtain ⟨rfl, rfl, rfl⟩ := he
  exact ⟨hr', hp⟩

theorem push_eq (arena : Array Node) (node : Node) :
    push arena node = (arena.size, arena.push node) := by
  simp [push]

section Steps

variable (limit depth : Nat)

theorem plain_pushSum (arena : Array Node) (ts : Tokens) :
    (pushSum limit depth arena ts).plain =
      (pushProduct limit depth arena ts).plain.bind fun p =>
        (pushSumTail limit depth p.1 p.2.1 p.2.2).plain := by
  rw [pushSum]
  rcases pushProduct limit depth arena ts with e | ⟨i, a, r, hr⟩
  · rfl
  · simp only [Pushed.plain, Except.map, Except.bind]
    rcases pushSumTail limit depth i a r with e | ⟨j, a', r', hr'⟩ <;> rfl

theorem plain_pushProduct (arena : Array Node) (ts : Tokens) :
    (pushProduct limit depth arena ts).plain =
      (pushUnary limit depth arena ts).plain.bind fun p =>
        (pushProductTail limit depth p.1 p.2.1 p.2.2).plain := by
  rw [pushProduct]
  rcases pushUnary limit depth arena ts with e | ⟨i, a, r, hr⟩
  · rfl
  · simp only [Pushed.plain, Except.map, Except.bind]
    rcases pushProductTail limit depth i a r with e | ⟨j, a', r', hr'⟩ <;> rfl

theorem plain_pushSumTail_of_op {t : Token} {op : BinOp} (h : sumOp? t.symbol = some op)
    (lhs : Nat) (arena : Array Node) (rest : Tokens) :
    (pushSumTail limit depth lhs arena (.cons t rest)).plain =
      ((advance rest).map Subtype.val).bind fun r1 =>
        (pushProduct limit depth arena r1).plain.bind fun p =>
          (pushSumTail limit depth p.2.1.size (p.2.1.push (.bin op lhs p.1)) p.2.2).plain := by
  rw [pushSumTail]
  simp only [h]
  rcases advance rest with e | ⟨r1, h1⟩
  · rfl
  · simp only [Pushed.plain, Except.map, Except.bind]
    rcases pushProduct limit depth arena r1 with e | ⟨b, a, r2, h2⟩
    · rfl
    · simp only [push_eq]
      rcases pushSumTail limit depth a.size (a.push (.bin op lhs b)) r2 with
        e | ⟨j, a', r3, h3⟩ <;> rfl

theorem plain_pushProductTail_of_op {t : Token} {op : BinOp} (h : productOp? t.symbol = some op)
    (lhs : Nat) (arena : Array Node) (rest : Tokens) :
    (pushProductTail limit depth lhs arena (.cons t rest)).plain =
      ((advance rest).map Subtype.val).bind fun r1 =>
        (pushUnary limit depth arena r1).plain.bind fun p =>
          (pushProductTail limit depth p.2.1.size (p.2.1.push (.bin op lhs p.1)) p.2.2).plain := by
  rw [pushProductTail]
  simp only [h]
  rcases advance rest with e | ⟨r1, h1⟩
  · rfl
  · simp only [Pushed.plain, Except.map, Except.bind]
    rcases pushUnary limit depth arena r1 with e | ⟨b, a, r2, h2⟩
    · rfl
    · simp only [push_eq]
      rcases pushProductTail limit depth a.size (a.push (.bin op lhs b)) r2 with
        e | ⟨j, a', r3, h3⟩ <;> rfl

theorem plain_pushSumTail_of_none {t : Token} (h : sumOp? t.symbol = none) (lhs : Nat)
    (arena : Array Node) (rest : Tokens) :
    (pushSumTail limit depth lhs arena (.cons t rest)).plain = .ok (lhs, arena, .cons t rest) := by
  rw [pushSumTail]
  simp only [h]
  rfl

theorem plain_pushProductTail_of_none {t : Token} (h : productOp? t.symbol = none) (lhs : Nat)
    (arena : Array Node) (rest : Tokens) :
    (pushProductTail limit depth lhs arena (.cons t rest)).plain =
      .ok (lhs, arena, .cons t rest) := by
  rw [pushProductTail]
  simp only [h]
  rfl

theorem plain_pushSumTail_of_not_cons (ts : Tokens) (h : ∀ t rest, ts ≠ .cons t rest)
    (lhs : Nat) (arena : Array Node) :
    (pushSumTail limit depth lhs arena ts).plain = .ok (lhs, arena, ts) := by
  unfold pushSumTail
  split
  · exact absurd rfl (h _ _)
  · rfl

theorem plain_pushProductTail_of_not_cons (ts : Tokens) (h : ∀ t rest, ts ≠ .cons t rest)
    (lhs : Nat) (arena : Array Node) :
    (pushProductTail limit depth lhs arena ts).plain = .ok (lhs, arena, ts) := by
  unfold pushProductTail
  split
  · exact absurd rfl (h _ _)
  · rfl

theorem plain_pushUnary_of_lt {arena : Array Node} {ts : Tokens} (h : limit < depth + 1) :
    (pushUnary limit depth arena ts).plain = .error (.nestingTooDeep limit) := by
  unfold pushUnary
  rw [if_pos h]
  rfl

theorem plain_pushUnary_minus (h : ¬limit < depth + 1) (arena : Array Node) (pos : Nat)
    (rest : Tokens) :
    (pushUnary limit depth arena (.cons ⟨.minus, pos⟩ rest)).plain =
      ((advance rest).map Subtype.val).bind fun r1 =>
        (pushUnary limit (depth + 1) arena r1).plain.map fun p =>
          (p.2.1.size, p.2.1.push (.neg p.1), p.2.2) := by
  rw [pushUnary, if_neg h]
  rcases advance rest with e | ⟨r1, h1⟩
  · rfl
  · simp only [Pushed.plain, Except.map, Except.bind]
    rcases pushUnary limit (depth + 1) arena r1 with e | ⟨a, ar, r2, h2⟩
    · rfl
    · simp only [push_eq]

theorem plain_pushUnary_of_not_minus {arena : Array Node} {ts : Tokens} (h : ¬limit < depth + 1)
    (hts : ∀ pos rest, ts ≠ .cons ⟨.minus, pos⟩ rest) :
    (pushUnary limit depth arena ts).plain = (pushPower limit (depth + 1) arena ts).plain := by
  unfold pushUnary
  rw [if_neg h]
  split
  · exact absurd rfl (hts _ _)
  · rfl

/-- What follows the base of a power that pushed: `^`, a `unary` and the power's own node, or
nothing. -/
def pushExponent (base : Nat) (arena : Array Node) :
    Tokens → Except Error (Nat × Array Node × Tokens)
  | .cons ⟨.caret, _⟩ rest =>
    ((advance rest).map Subtype.val).bind fun r1 =>
      (pushUnary limit depth arena r1).plain.map fun p =>
        (p.2.1.size, p.2.1.push (.bin .pow base p.1), p.2.2)
  | r => .ok (base, arena, r)

theorem plain_pushPower (arena : Array Node) (ts : Tokens) :
    (pushPower limit depth arena ts).plain =
      (pushPrimary limit depth arena ts).plain.bind fun p =>
        pushExponent limit depth p.1 p.2.1 p.2.2 := by
  rw [pushPower]
  rcases pushPrimary limit depth arena ts with e | ⟨base, a, r, hr⟩
  · rfl
  · simp only [Pushed.plain, Except.map, Except.bind]
    rcases r with pos | ⟨pos, p⟩ | ⟨⟨s, pos⟩, rest⟩
    · rfl
    · rfl
    · cases s
      case caret =>
        simp only [pushExponent]
        rcases advance rest with e | ⟨r1, h1⟩
        · rfl
        · simp only [Pushed.plain, Except.map, Except.bind]
          rcases pushUnary limit depth a r1 with e | ⟨ex, a', r2, h2⟩
          · rfl
          · simp only [push_eq]
      all_goals rfl

/-- What follows the sum inside parentheses opened at `opened`, in a reading that pushed: the
closing parenthesis, which pushes nothing. -/
def pushClosing (opened inner : Nat) (arena : Array Node) :
    Tokens → Except Error (Nat × Array Node × Tokens)
  | .cons ⟨.closeParen, _⟩ rest => ((advance rest).map Subtype.val).map fun r => (inner, arena, r)
  | other => .error (.malformed other.pos (.unclosed opened))

theorem plain_pushPrimary_number (arena : Array Node) (v : Float) (pos : Nat) (rest : Tokens) :
    (pushPrimary limit depth arena (.cons ⟨.number v, pos⟩ rest)).plain =
      ((advance rest).map Subtype.val).map fun r => (arena.size, arena.push (.num v), r) := by
  rw [pushPrimary]
  rcases advance rest with e | ⟨r, h⟩
  · rfl
  · simp only [push_eq]
    rfl

theorem plain_pushPrimary_name (arena : Array Node) (x : String) (pos : Nat) (rest : Tokens) :
    (pushPrimary limit depth arena (.cons ⟨.name x, pos⟩ rest)).plain =
      ((advance rest).map Subtype.val).map fun r => (arena.size, arena.push (.var x), r) := by
  rw [pushPrimary]
  rcases advance rest with e | ⟨r, h⟩
  · rfl
  · simp only [push_eq]
    rfl

theorem plain_pushPrimary_paren (arena : Array Node) (pos : Nat) (rest : Tokens) :
    (pushPrimary limit depth arena (.cons ⟨.openParen, pos⟩ rest)).plain =
      ((advance rest).map Subtype.val).bind fun r1 =>
        (pushSum limit depth arena r1).plain.bind fun p => pushClosing pos p.1 p.2.1 p.2.2 := by
  rw [pushPrimary]
  rcases advance rest with e | ⟨r1, h1⟩
  · rfl
  · simp only [Pushed.plain, Except.map, Except.bind]
    rcases pushSum limit depth arena r1 with e | ⟨inner, a, r2, h2⟩
    · rfl
    · simp only
      rcases r2 with pos' | ⟨pos', p⟩ | ⟨⟨s, pos'⟩, rest'⟩
      · rfl
      · rfl
      · cases s
        case closeParen =>
          simp only [pushClosing]
          rcases advance rest' with e | ⟨r3, h3⟩ <;> rfl
        all_goals rfl

end Steps

/-! ## Pushing lays out what is read -/

/-- The layout of `t` pushed after `acc`, and the place of its last node. -/
def laidOut (acc : Array Node) (t : Formula) : Nat × Array Node :=
  (acc.size + t.size - 1, acc ++ (t.layout acc.size).toArray)

/-- What a reader that pushes gives for the formula `p.1` read before the tokens `p.2`. -/
def placed (acc : Array Node) (p : Formula × Tokens) : Nat × Array Node × Tokens :=
  ((laidOut acc p.1).1, (laidOut acc p.1).2, p.2)

/-- The reader of each rule that pushes, after the arena `acc`; a tail starts on the arena with the
layout of the formula before it, given the place of its last node. -/
def Rule.pusher (limit depth : Nat) : Rule → Array Node → (ts : Tokens) → Pushed ts
  | .sum, acc => pushSum limit depth acc
  | .sumTail a, acc => pushSumTail limit depth (laidOut acc a).1 (laidOut acc a).2
  | .product, acc => pushProduct limit depth acc
  | .productTail a, acc => pushProductTail limit depth (laidOut acc a).1 (laidOut acc a).2
  | .unary, acc => pushUnary limit depth acc
  | .power, acc => pushPower limit depth acc
  | .primary, acc => pushPrimary limit depth acc

theorem laidOut_num (acc : Array Node) (v : Float) :
    laidOut acc (.num v) = (acc.size, acc.push (.num v)) := by
  simp [laidOut, size]

theorem laidOut_var (acc : Array Node) (x : String) :
    laidOut acc (.var x) = (acc.size, acc.push (.var x)) := by
  simp [laidOut, size]

theorem laidOut_neg (acc : Array Node) (a : Formula) :
    ((laidOut acc a).2.size, (laidOut acc a).2.push (.neg (laidOut acc a).1)) =
      laidOut acc (.neg a) := by
  have := a.size_pos
  simp [laidOut, size]

theorem laidOut_bin (acc : Array Node) (op : BinOp) (a b : Formula) :
    ((laidOut (laidOut acc a).2 b).2.size,
        (laidOut (laidOut acc a).2 b).2.push
          (.bin op (laidOut acc a).1 (laidOut (laidOut acc a).2 b).1)) =
      laidOut acc (.bin op a b) := by
  have := a.size_pos
  have := b.size_pos
  simp [laidOut, size]

/-- On every call of weight below `n`, the reader that pushes lays out after any arena what the
reader reads. -/
def LaysOutBelow (limit n : Nat) : Prop :=
  ∀ rule ts, Rule.weight rule ts < n → ∀ depth acc,
    (rule.pusher limit depth acc ts).plain = (rule.reader limit depth ts).plain.map (placed acc)

theorem bind_map_eq_map_bind {α β γ δ : Type} {x : Except Error α} {x' : Except Error β}
    {g : α → β} {f : α → Except Error γ} {f' : β → Except Error δ} {h : γ → δ}
    (hx : x' = x.map g) (hf : ∀ a, x = .ok a → f' (g a) = (f a).map h) :
    x'.bind f' = (x.bind f).map h := by
  subst hx
  cases x with
  | error e => rfl
  | ok a => exact hf a rfl

theorem bind_eq_map_bind {α γ δ : Type} {x : Except Error α} {f : α → Except Error γ}
    {f' : α → Except Error δ} {h : γ → δ} (hf : ∀ a, x = .ok a → f' a = (f a).map h) :
    x.bind f' = (x.bind f).map h := by
  cases x with
  | error e => rfl
  | ok a => exact hf a rfl

theorem map_eq_map_map {α β γ δ : Type} {x : Except Error α} {x' : Except Error β} {g : α → β}
    {f : α → γ} {f' : β → δ} {h : γ → δ} (hx : x' = x.map g) (hf : ∀ a, f' (g a) = h (f a)) :
    x'.map f' = (x.map f).map h := by
  subst hx
  cases x with
  | error e => rfl
  | ok a => exact congrArg Except.ok (hf a)

theorem map_map_of_eq {α β γ : Type} {x : Except Error α} {f : α → β} {g : β → γ} {f' : α → γ}
    (h : ∀ a, g (f a) = f' a) : (x.map f).map g = x.map f' := by
  cases x with
  | error e => rfl
  | ok a => exact congrArg Except.ok (h a)

section Lays

variable {limit : Nat} {ts : Tokens}

theorem lays_sum (ih : LaysOutBelow limit (Rule.sum.weight ts)) (depth : Nat) (acc : Array Node) :
    (pushSum limit depth acc ts).plain = (sum limit depth ts).plain.map (placed acc) := by
  rw [plain_pushSum, plain_sum]
  refine bind_map_eq_map_bind (ih .product ts (Rule.weight_lt_of_rank_lt (Nat.le_refl _)
    (by decide)) depth acc) fun p hp => ?_
  exact ih (.sumTail p.1) p.2
    (Rule.weight_lt_of_rank_lt (Parsed.size_le_of_plain hp) (by simp [Rule.rank])) depth acc

theorem lays_product (ih : LaysOutBelow limit (Rule.product.weight ts)) (depth : Nat)
    (acc : Array Node) :
    (pushProduct limit depth acc ts).plain = (product limit depth ts).plain.map (placed acc) := by
  rw [plain_pushProduct, plain_product]
  refine bind_map_eq_map_bind (ih .unary ts (Rule.weight_lt_of_rank_lt (Nat.le_refl _)
    (by decide)) depth acc) fun p hp => ?_
  exact ih (.productTail p.1) p.2
    (Rule.weight_lt_of_rank_lt (Parsed.size_le_of_plain hp) (by simp [Rule.rank])) depth acc

theorem lays_sumTail (a : Formula) (ih : LaysOutBelow limit ((Rule.sumTail a).weight ts))
    (depth : Nat) (acc : Array Node) :
    ((Rule.sumTail a).pusher limit depth acc ts).plain =
      (sumTail limit depth a ts).plain.map (placed acc) := by
  by_cases hc : ∃ tok rest, ts = .cons tok rest
  · obtain ⟨tok, rest, rfl⟩ := hc
    cases hop : sumOp? tok.symbol with
    | none =>
        rw [Rule.pusher, plain_pushSumTail_of_none limit depth hop,
          plain_sumTail_of_none limit depth hop]
        rfl
    | some op =>
        rw [Rule.pusher, plain_pushSumTail_of_op limit depth hop, plain_sumTail_of_op limit depth hop]
        refine bind_eq_map_bind fun r1 hr1 => ?_
        cases eq_of_map_advance hr1
        refine bind_map_eq_map_bind (ih .product rest (Rule.weight_lt_of_size_lt
          (Nat.lt_succ_self _)) depth _) fun p hp => ?_
        have hnext := ih (.sumTail (.bin op a p.1)) p.2 (Rule.weight_lt_of_size_lt
          (Nat.lt_succ_of_le (Parsed.size_le_of_plain hp))) depth acc
        rw [Rule.pusher, Rule.reader, ← laidOut_bin] at hnext
        exact hnext
  · have hts : ∀ tok rest, ts ≠ .cons tok rest := fun tok rest h => hc ⟨tok, rest, h⟩
    rw [Rule.pusher, plain_pushSumTail_of_not_cons limit depth ts hts,
      plain_sumTail_of_not_cons limit depth ts hts]
    rfl

theorem lays_productTail (a : Formula) (ih : LaysOutBelow limit ((Rule.productTail a).weight ts))
    (depth : Nat) (acc : Array Node) :
    ((Rule.productTail a).pusher limit depth acc ts).plain =
      (productTail limit depth a ts).plain.map (placed acc) := by
  by_cases hc : ∃ tok rest, ts = .cons tok rest
  · obtain ⟨tok, rest, rfl⟩ := hc
    cases hop : productOp? tok.symbol with
    | none =>
        rw [Rule.pusher, plain_pushProductTail_of_none limit depth hop,
          plain_productTail_of_none limit depth hop]
        rfl
    | some op =>
        rw [Rule.pusher, plain_pushProductTail_of_op limit depth hop,
          plain_productTail_of_op limit depth hop]
        refine bind_eq_map_bind fun r1 hr1 => ?_
        cases eq_of_map_advance hr1
        refine bind_map_eq_map_bind (ih .unary rest (Rule.weight_lt_of_size_lt
          (Nat.lt_succ_self _)) depth _) fun p hp => ?_
        have hnext := ih (.productTail (.bin op a p.1)) p.2 (Rule.weight_lt_of_size_lt
          (Nat.lt_succ_of_le (Parsed.size_le_of_plain hp))) depth acc
        rw [Rule.pusher, Rule.reader, ← laidOut_bin] at hnext
        exact hnext
  · have hts : ∀ tok rest, ts ≠ .cons tok rest := fun tok rest h => hc ⟨tok, rest, h⟩
    rw [Rule.pusher, plain_pushProductTail_of_not_cons limit depth ts hts,
      plain_productTail_of_not_cons limit depth ts hts]
    rfl

theorem lays_unary (ih : LaysOutBelow limit (Rule.unary.weight ts)) (depth : Nat)
    (acc : Array Node) :
    (pushUnary limit depth acc ts).plain = (unary limit depth ts).plain.map (placed acc) := by
  by_cases hlt : limit < depth + 1
  · rw [plain_pushUnary_of_lt limit depth hlt, plain_unary_of_lt limit depth hlt]
    rfl
  · by_cases hm : ∃ pos rest, ts = .cons ⟨.minus, pos⟩ rest
    · obtain ⟨pos, rest, rfl⟩ := hm
      rw [plain_pushUnary_minus limit depth hlt, plain_unary_minus limit depth hlt]
      refine bind_eq_map_bind fun r1 hr1 => ?_
      cases eq_of_map_advance hr1
      refine map_eq_map_map (ih .unary rest (Rule.weight_lt_of_size_lt (Nat.lt_succ_self _))
        (depth + 1) acc) fun p => ?_
      show _ = ((laidOut acc (.neg p.1)).1, (laidOut acc (.neg p.1)).2, p.2)
      rw [← laidOut_neg]
      rfl
    · have hts : ∀ pos rest, ts ≠ .cons ⟨.minus, pos⟩ rest :=
        fun pos rest h => hm ⟨pos, rest, h⟩
      rw [plain_pushUnary_of_not_minus limit depth hlt hts,
        plain_unary_of_not_minus limit depth hlt hts]
      exact ih .power ts (Rule.weight_lt_of_rank_lt (Nat.le_refl _) (by decide)) (depth + 1) acc

theorem lays_power (ih : LaysOutBelow limit (Rule.power.weight ts)) (depth : Nat)
    (acc : Array Node) :
    (pushPower limit depth acc ts).plain = (power limit depth ts).plain.map (placed acc) := by
  rw [plain_pushPower, plain_power]
  refine bind_map_eq_map_bind (ih .primary ts (Rule.weight_lt_of_rank_lt (Nat.le_refl _)
    (by decide)) depth acc) fun p hp => ?_
  obtain ⟨base, r⟩ := p
  have hr : r.size < ts.size := size_lt_of_primary hp
  rcases r with pos | ⟨pos, q⟩ | ⟨⟨s, pos⟩, rest⟩
  · rfl
  · rfl
  · cases s
    case caret =>
      simp only [placed, pushExponent, exponent]
      refine bind_eq_map_bind fun r1 hr1 => ?_
      cases eq_of_map_advance hr1
      have hfewer : rest.size < ts.size := by
        simp only [Tokens.size] at hr
        omega
      refine map_eq_map_map (ih .unary rest (Rule.weight_lt_of_size_lt hfewer) depth _)
        fun p => ?_
      show _ = ((laidOut acc (.bin .pow base p.1)).1, (laidOut acc (.bin .pow base p.1)).2, p.2)
      rw [← laidOut_bin]
      rfl
    all_goals rfl

theorem lays_primary (ih : LaysOutBelow limit (Rule.primary.weight ts)) (depth : Nat)
    (acc : Array Node) :
    (pushPrimary limit depth acc ts).plain = (primary limit depth ts).plain.map (placed acc) := by
  rcases ts with pos | ⟨pos, p⟩ | ⟨⟨s, pos⟩, rest⟩
  · simp only [pushPrimary, primary, Pushed.plain, Parsed.plain, Except.map]
  · simp only [pushPrimary, primary, Pushed.plain, Parsed.plain, Except.map]
  · cases s
    case number v =>
      rw [plain_pushPrimary_number, plain_primary_number]
      exact (map_map_of_eq fun r => by rw [placed, laidOut_num]).symm
    case name x =>
      rw [plain_pushPrimary_name, plain_primary_name]
      exact (map_map_of_eq fun r => by rw [placed, laidOut_var]).symm
    case openParen =>
      rw [plain_pushPrimary_paren, plain_primary_paren]
      refine bind_eq_map_bind fun r1 hr1 => ?_
      cases eq_of_map_advance hr1
      refine bind_map_eq_map_bind (ih .sum rest (Rule.weight_lt_of_size_lt (Nat.lt_succ_self _))
        depth acc) fun p _ => ?_
      obtain ⟨inner, r2⟩ := p
      rcases r2 with pos' | ⟨pos', q⟩ | ⟨⟨s, pos'⟩, rest'⟩
      · rfl
      · rfl
      · cases s
        case closeParen =>
          simp only [placed, pushClosing, closing]
          symm
          exact map_map_of_eq fun r => rfl
        all_goals rfl
    all_goals simp only [pushPrimary, primary, Pushed.plain, Parsed.plain, Except.map]

end Lays

/-- Every reader that pushes lays out after any arena, node for node, what the reader of the tree
reads, and gives the place of the last node of that layout. -/
theorem pushers_layOut (limit : Nat) (rule : Rule) (ts : Tokens) (depth : Nat) (acc : Array Node) :
    (rule.pusher limit depth acc ts).plain = (rule.reader limit depth ts).plain.map (placed acc) := by
  induction rule, ts using Rule.weight_induction generalizing depth acc with
  | step rule ts ih =>
      cases rule with
      | sum => exact lays_sum ih depth acc
      | sumTail a => exact lays_sumTail a ih depth acc
      | product => exact lays_product ih depth acc
      | productTail a => exact lays_productTail a ih depth acc
      | unary => exact lays_unary ih depth acc
      | power => exact lays_power ih depth acc
      | primary => exact lays_primary ih depth acc

/-! ## The arena of a text -/

def atEndAst (root : Nat) (nodes : Array Node) : Tokens → Except Error Ast
  | .done _ => .ok ⟨nodes, root⟩
  | .cons t _ => .error (.malformed t.pos (.trailing t.symbol))
  | .fault pos p => .error (.malformed pos p)

section Text

variable {limits : Limits} {s : String}

theorem parseAst_eq_bind (hlen : s.utf8ByteSize ≤ limits.maxLength)
    (hblank : Text.isBlankText s = false) (hscan : ∀ pos p, Tokens.scan s ≠ .fault pos p) :
    parseAst limits s =
      (pushSum limits.maxDepth 0 #[] (Tokens.scan s)).plain.bind fun p =>
        atEndAst p.1 p.2.1 p.2.2 := by
  unfold parseAst
  rw [if_neg (by omega), if_neg (by simp [hblank])]
  split
  · rename_i pos p hs
    exact absurd hs (hscan pos p)
  · rcases pushSum limits.maxDepth 0 #[] (Tokens.scan s) with e | ⟨i, a, r, hr⟩
    · rfl
    · rcases r with pos | ⟨pos, p⟩ | ⟨tok, rest⟩ <;> rfl

end Text

def toAst (t : Formula) : Ast := ⟨t.nodes.toArray, t.root⟩

theorem laidOut_empty (t : Formula) : laidOut #[] t = (t.toAst.root, t.toAst.nodes) := by
  simp [laidOut, toAst, root, nodes_eq_layout]

theorem identifiers_toAst (t : Formula) : t.toAst.identifiers = t.identifiers := by
  simp [Ast.identifiers, toAst, identifiers, nodes_eq_layout, filterMap_layout]

/-- Reading a text into an arena gives the arena of the formula that reading it as a tree gives,
or the same error. -/
theorem parseAst_eq (limits : Limits) (src : String) :
    parseAst limits src = (parse limits src).map toAst := by
  by_cases hlen : src.utf8ByteSize ≤ limits.maxLength
  · cases hblank : Text.isBlankText src
    · by_cases hscan : ∀ pos p, Tokens.scan src ≠ .fault pos p
      · rw [parseAst_eq_bind hlen hblank hscan, parse_eq_bind hlen hblank hscan]
        refine bind_map_eq_map_bind (pushers_layOut limits.maxDepth .sum _ 0 #[]) fun p _ => ?_
        obtain ⟨t, r⟩ := p
        rcases r with pos | ⟨pos, q⟩ | ⟨tok, rest⟩
        · simp only [placed, laidOut_empty, atEndAst, atEnd]
          rfl
        · rfl
        · rfl
      · obtain ⟨pos, p, hs⟩ : ∃ pos p, Tokens.scan src = .fault pos p := by
          simpa using hscan
        rw [parse_of_fault hlen hblank hs]
        unfold parseAst
        rw [if_neg (by omega), if_neg (by simp [hblank]), hs]
        rfl
    · have hfits : ¬limits.maxLength < src.utf8ByteSize := Nat.not_lt.2 hlen
      unfold parseAst parse
      rw [if_neg hfits, if_neg hfits, if_pos hblank, if_pos hblank]
      rfl
  · have hlong : limits.maxLength < src.utf8ByteSize := Nat.lt_of_not_le hlen
    unfold parseAst parse
    rw [if_pos hlong, if_pos hlong]
    rfl

/-! ## Each reader gives the place of the last node it pushed -/

/-- A reader that was given `arena` and left `arena'` pushed at least one node after those of
`arena`, which it left as they were, and `i` is the place of the last node it pushed. -/
def PushedAfter (arena arena' : Array Node) (i : Nat) : Prop :=
  arena.toList <+: arena'.toList ∧ arena.size < arena'.size ∧ i + 1 = arena'.size

theorem pushedAfter_laidOut (acc : Array Node) (t : Formula) :
    PushedAfter acc (laidOut acc t).2 (laidOut acc t).1 := by
  have := t.size_pos
  refine ⟨?_, ?_, ?_⟩
  · simp [laidOut]
  · simp [laidOut]
    omega
  · simp [laidOut]
    omega

theorem pushedAfter_of_pusher {limit depth : Nat} (rule : Rule) {acc : Array Node} {ts : Tokens}
    {i : Nat} {arena' : Array Node} {r : Tokens}
    (h : (rule.pusher limit depth acc ts).plain = .ok (i, arena', r)) :
    PushedAfter acc arena' i := by
  rw [pushers_layOut] at h
  obtain ⟨⟨t, r'⟩, -, hp⟩ := map_eq_ok.1 h
  simp only [placed, Prod.mk.injEq] at hp
  obtain ⟨rfl, rfl, -⟩ := hp
  exact pushedAfter_laidOut acc t

/-- Each reader of a whole rule pushes the nodes of what it reads onto the arena it is given and
gives the place of the last node it pushed; a parenthesised primary pushes nothing of its own and
gives the place and the arena that the sum inside gives. -/
structure ReturnsLastPushed : Prop where
  sum : ∀ limit depth arena ts i arena' r, pushSum limit depth arena ts = .ok (i, arena', r) →
    PushedAfter arena arena' i
  product : ∀ limit depth arena ts i arena' r,
    pushProduct limit depth arena ts = .ok (i, arena', r) → PushedAfter arena arena' i
  unary : ∀ limit depth arena ts i arena' r, pushUnary limit depth arena ts = .ok (i, arena', r) →
    PushedAfter arena arena' i
  power : ∀ limit depth arena ts i arena' r, pushPower limit depth arena ts = .ok (i, arena', r) →
    PushedAfter arena arena' i
  primary : ∀ limit depth arena ts i arena' r,
    pushPrimary limit depth arena ts = .ok (i, arena', r) → PushedAfter arena arena' i
  paren : ∀ limit depth arena pos rest i arena' r,
    pushPrimary limit depth arena (.cons ⟨.openParen, pos⟩ rest) = .ok (i, arena', r) →
      ∃ r', pushSum limit depth arena rest = .ok (i, arena', r')

theorem returnsLastPushed : ReturnsLastPushed where
  sum _ _ _ _ _ _ _ h := pushedAfter_of_pusher .sum (by rw [Rule.pusher, h]; rfl)
  product _ _ _ _ _ _ _ h := pushedAfter_of_pusher .product (by rw [Rule.pusher, h]; rfl)
  unary _ _ _ _ _ _ _ h := pushedAfter_of_pusher .unary (by rw [Rule.pusher, h]; rfl)
  power _ _ _ _ _ _ _ h := pushedAfter_of_pusher .power (by rw [Rule.pusher, h]; rfl)
  primary _ _ _ _ _ _ _ h := pushedAfter_of_pusher .primary (by rw [Rule.pusher, h]; rfl)
  paren limit depth arena pos rest i arena' r h := by
    have hp : (Rule.primary.pusher limit depth arena (.cons ⟨.openParen, pos⟩ rest)).plain =
        .ok (i, arena', r.1) := by
      rw [Rule.pusher, h]
      rfl
    rw [pushers_layOut] at hp
    obtain ⟨⟨g, r0⟩, hprim, hplaced⟩ := map_eq_ok.1 hp
    obtain ⟨r', hsum⟩ := primary_paren_eq_ok hprim
    have hpush := pushers_layOut limit .sum rest depth arena
    rw [Rule.pusher, Rule.reader, hsum] at hpush
    simp only [placed, Prod.mk.injEq] at hplaced
    obtain ⟨rfl, rfl, -⟩ := hplaced
    obtain ⟨hr', heq⟩ := Pushed.eq_ok_of_plain hpush
    exact ⟨⟨r', hr'⟩, heq⟩

/-- What the arena of a text read holds: a post-order tree whose root stands for the formula that
reading the text as a tree gives, whose numbers and names come in the order of their tokens, and
which the readers filled by pushes, each giving the place of the last node it pushed. -/
structure ParsedArena (limits : Limits) (s : String) (a : Ast) : Prop where
  postOrder : PostOrder a.nodes.toList a.root
  readsBack : ∃ t, parse limits s = .ok t ∧ readAt a.nodes.toList a.root = some t
  leaves : ∃ toks pos, Tokens.scan s = Tokens.append toks (.done pos) ∧
    (toks.map Token.pos).Pairwise (· < ·) ∧
    a.nodes.toList.filterMap Node.leaf? =
      (toks.filter fun tok => tok.symbol.isOperand).map Token.symbol
  returnsLast : ReturnsLastPushed

/-- The arena that reading a text fills by pushes is a post-order tree: it is not empty, its root
is its last place, every operand comes before the node that reads it, every other node is read by
exactly one node, and its numbers and names come in the order of their tokens. -/
theorem parseAst_postOrder {limits : Limits} {s : String} {a : Ast}
    (h : parseAst limits s = .ok a) : ParsedArena limits s a := by
  rw [parseAst_eq] at h
  obtain ⟨t, ht, rfl⟩ := map_eq_ok.1 h
  obtain ⟨hpost, hroot, hleaves⟩ := parse_arena ht
  exact ⟨hpost, ⟨t, ht, hroot⟩, hleaves, returnsLastPushed⟩

theorem parseAst_postOrder_negPowSub :
    parseAst {} "-a^b-c" =
        .ok ⟨#[.var "a", .var "b", .bin .pow 0 1, .neg 2, .var "c", .bin .sub 3 4], 5⟩ ∧
      ParsedArena {} "-a^b-c"
        ⟨#[.var "a", .var "b", .bin .pow 0 1, .neg 2, .var "c", .bin .sub 3 4], 5⟩ := by
  have h : parseAst {} "-a^b-c" =
      .ok ⟨#[.var "a", .var "b", .bin .pow 0 1, .neg 2, .var "c", .bin .sub 3 4], 5⟩ := by
    rw [parseAst_eq, parse_negPowSub]
    rfl
  exact ⟨h, parseAst_postOrder h⟩

end Recalc.Formula
