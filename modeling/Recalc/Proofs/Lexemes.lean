import Recalc.Formula.Token

/-! # The tokens of a text cut it into blanks and lexemes at increasing UTF-8 byte offsets -/

namespace Recalc.Formula

/-! ## Bytes of characters -/

/-- The number of bytes of characters in UTF-8. -/
def byteLength : List Char → Nat
  | [] => 0
  | c :: cs => c.utf8Size + byteLength cs

@[simp] theorem byteLength_nil : byteLength [] = 0 := rfl

@[simp] theorem byteLength_cons (c : Char) (cs : List Char) :
    byteLength (c :: cs) = c.utf8Size + byteLength cs := rfl

@[simp] theorem byteLength_append (xs ys : List Char) :
    byteLength (xs ++ ys) = byteLength xs + byteLength ys := by
  induction xs with
  | nil => simp
  | cons c xs ih => simp [ih, Nat.add_assoc]

theorem byteLength_eq_utf8ByteSize (cs : List Char) :
    byteLength cs = (String.ofList cs).utf8ByteSize := by
  induction cs with
  | nil => simp
  | cons c cs ih =>
      rw [show c :: cs = [c] ++ cs from rfl, String.ofList_append, String.utf8ByteSize_append,
        ← ih]
      simp

theorem byteLength_pos {cs : List Char} (h : cs ≠ []) : 0 < byteLength cs := by
  obtain ⟨c, cs, rfl⟩ := List.exists_cons_of_ne_nil h
  have := c.utf8Size_pos
  simp only [byteLength_cons]
  omega

theorem byteLength_of_utf8Size {cs : List Char} (h : ∀ c ∈ cs, c.utf8Size = 1) :
    byteLength cs = cs.length := by
  induction cs with
  | nil => rfl
  | cons c cs ih =>
      simp only [List.mem_cons, forall_eq_or_imp] at h
      simp [h.1, ih h.2, Nat.add_comm]

theorem utf8Size_of_val_le {c : Char} {b : UInt32} (h : c.val ≤ b) (hb : b ≤ 127) :
    c.utf8Size = 1 :=
  Char.utf8Size_eq_one_iff.2 (UInt32.le_trans h hb)

theorem utf8Size_of_isDigit {c : Char} (h : c.isDigit = true) : c.utf8Size = 1 := by
  simp only [Char.isDigit, Bool.and_eq_true, decide_eq_true_eq] at h
  exact utf8Size_of_val_le h.2 (by decide)

theorem utf8Size_of_isNameChar {c : Char} (h : isNameChar c = true) : c.utf8Size = 1 := by
  -- the letters, the digits and `_` are ASCII: the classes are unfolded by their definitions
  have hclass : (decide (c.val ≥ 'A'.val ∧ c.val ≤ 'Z'.val) ||
      (decide (c.val ≥ 'a'.val) && decide (c.val ≤ 'z'.val)) ||
      (decide (c.val ≥ '0'.val) && decide (c.val ≤ '9'.val)) || decide (c = '_')) = true := h
  simp only [Bool.or_eq_true, Bool.and_eq_true, decide_eq_true_eq] at hclass
  rcases hclass with ((h | h) | h) | rfl
  · exact utf8Size_of_val_le h.2 (by decide)
  · exact utf8Size_of_val_le h.2 (by decide)
  · exact utf8Size_of_val_le h.2 (by decide)
  · rfl

theorem isNameChar_of_isNameStart {c : Char} (h : isNameStart c = true) : isNameChar c = true := by
  simp only [isNameStart, isNameChar, Char.isAlphanum, Bool.or_eq_true] at h ⊢
  rcases h with h | h <;> simp [h]

theorem take_length_takeWhile {α : Type} (p : α → Bool) (l : List α) :
    l.take (l.takeWhile p).length = l.takeWhile p :=
  (List.prefix_iff_eq_take.1 (List.takeWhile_prefix p)).symm

theorem drop_length_takeWhile {α : Type} (p : α → Bool) (l : List α) :
    l.drop (l.takeWhile p).length = l.dropWhile p := by
  have h := List.takeWhile_append_dropWhile (p := p) (l := l)
  calc l.drop (l.takeWhile p).length
      = (l.takeWhile p ++ l.dropWhile p).drop (l.takeWhile p).length := by rw [h]
    _ = l.dropWhile p := List.drop_left

/-! ## What the numeral reader reads -/

/-- The first `k` characters of `cs` are there and take one byte each. -/
def OneBytePrefix (k : Nat) (cs : List Char) : Prop :=
  k ≤ cs.length ∧ byteLength (cs.take k) = k

namespace OneBytePrefix

theorem zero (cs : List Char) : OneBytePrefix 0 cs := ⟨Nat.zero_le _, rfl⟩

theorem add {a b : Nat} {cs : List Char} (ha : OneBytePrefix a cs)
    (hb : OneBytePrefix b (cs.drop a)) : OneBytePrefix (a + b) cs := by
  refine ⟨?_, ?_⟩
  · have := hb.1
    have := ha.1
    simp only [List.length_drop] at *
    omega
  · rw [List.take_add, byteLength_append, ha.2, hb.2]

theorem single {c : Char} (h : c.utf8Size = 1) (cs : List Char) : OneBytePrefix 1 (c :: cs) :=
  ⟨by simp, by simp [h]⟩

theorem next {a : Nat} {cs t : List Char} {c : Char} (ha : OneBytePrefix a cs)
    (hdrop : cs.drop a = c :: t) (hc : c.utf8Size = 1) : OneBytePrefix (a + 1) cs := by
  apply ha.add
  rw [hdrop]
  exact single hc t

theorem takeWhile_isDigit (cs : List Char) :
    OneBytePrefix (cs.takeWhile Char.isDigit).length cs := by
  refine ⟨(List.takeWhile_prefix Char.isDigit).length_le, ?_⟩
  rw [take_length_takeWhile]
  exact byteLength_of_utf8Size fun c hc =>
    utf8Size_of_isDigit (List.all_eq_true.1 List.all_takeWhile c hc)

end OneBytePrefix

theorem drop_succ_of_drop_eq {a : Nat} {cs t : List Char} {c : Char} (hdrop : cs.drop a = c :: t) :
    cs.drop (a + 1) = t := by
  rw [← List.drop_drop, hdrop]
  rfl

theorem utf8Size_of_exponentMark {e : Char} (h : (decide (e = 'e') || decide (e = 'E')) = true) :
    e.utf8Size = 1 := by
  simp only [Bool.or_eq_true, decide_eq_true_eq] at h
  rcases h with rfl | rfl <;> rfl

/-- What the numeral reader reports covers characters of one byte each: the numeral it reads,
which is not empty, or the characters before the problem it finds. -/
def NumeralBytes (cs : List Char) : Except (Nat × Problem) (Nat × Float) → Prop
  | .ok (n, _) => 0 < n ∧ OneBytePrefix n cs
  | .error (off, _) => OneBytePrefix off cs

theorem numeralBytes_readNumeral (cs : List Char) : NumeralBytes cs (readNumeral cs) := by
  unfold readNumeral
  dsimp only
  have hw := OneBytePrefix.takeWhile_isDigit cs
  split <;> dsimp only
  case' h_1 t hdot =>
    have hm : OneBytePrefix ((cs.takeWhile Char.isDigit).length + 1 +
        (t.takeWhile Char.isDigit).length) cs := by
      apply (hw.next hdot (by decide)).add
      rw [drop_succ_of_drop_eq hdot]
      exact OneBytePrefix.takeWhile_isDigit t
    have hpos :
        ¬((cs.takeWhile Char.isDigit).isEmpty && (t.takeWhile Char.isDigit).isEmpty) = true →
        0 < (cs.takeWhile Char.isDigit).length + 1 + (t.takeWhile Char.isDigit).length := by
      intro _
      omega
    generalize (cs.takeWhile Char.isDigit).length + 1 + (t.takeWhile Char.isDigit).length = m
      at hm hpos ⊢
  case' h_2 =>
    have hm :
        OneBytePrefix ((cs.takeWhile Char.isDigit).length + 0 + ([] : List Char).length) cs := by
      simpa using hw
    have hpos : ¬((cs.takeWhile Char.isDigit).isEmpty && ([] : List Char).isEmpty) = true →
        0 < (cs.takeWhile Char.isDigit).length + 0 + ([] : List Char).length := by
      intro h
      simpa [List.length_pos_iff] using h
    generalize (cs.takeWhile Char.isDigit).length + 0 + ([] : List Char).length = m at hm hpos ⊢
  all_goals
    split
    case isTrue => exact OneBytePrefix.zero cs
    case isFalse hdigits =>
      have hm0 := hpos hdigits
      split
      case h_2 => exact ⟨hm0, hm⟩
      case h_1 e t hdrop =>
        split
        case isFalse => exact ⟨hm0, hm⟩
        case isTrue he =>
          have hme := hm.next hdrop (utf8Size_of_exponentMark he)
          have hafter := drop_succ_of_drop_eq hdrop
          split <;> dsimp only
          case' h_1 tail =>
            have hs : OneBytePrefix (m + 1 + 1) cs := hme.next hafter (by decide)
            have hrest : cs.drop (m + 1 + 1) = List.drop 1 ('+' :: tail) :=
              drop_succ_of_drop_eq hafter
          case' h_2 tail =>
            have hs : OneBytePrefix (m + 1 + 1) cs := hme.next hafter (by decide)
            have hrest : cs.drop (m + 1 + 1) = List.drop 1 ('-' :: tail) :=
              drop_succ_of_drop_eq hafter
          case' h_3 =>
            have hs : OneBytePrefix (m + 1 + 0) cs := hme
            have hrest : cs.drop (m + 1 + 0) = List.drop 0 t := hafter
          all_goals
            split
            case isTrue => exact hs
            case isFalse =>
              refine ⟨by omega, hs.add ?_⟩
              rw [hrest]
              exact OneBytePrefix.takeWhile_isDigit _

/-! ## The cut of a text -/

/-- `Lexeme s cs rest`: the characters `cs`, when `rest` follows them, are read as one token of
symbol `s`. -/
inductive Lexeme : Symbol → List Char → List Char → Prop
  /-- an operator or a parenthesis, in one of its spellings -/
  | single {c : Char} {s : Symbol} {rest : List Char} : singleSymbol? c = some s →
      Lexeme s [c] rest
  /-- a name: a letter or an underscore, then every letter, digit and underscore that follows -/
  | name {c : Char} {body rest : List Char} : isNameStart c = true →
      (∀ d ∈ body, isNameChar d = true) → (∀ d ∈ rest.head?, isNameChar d = false) →
      Lexeme (.name (String.ofList (c :: body))) (c :: body) rest
  /-- a numeral: what the numeral reader takes, from a digit or a point on -/
  | number {c : Char} {cs rest : List Char} {v : Float} : (c.isDigit || c = '.') = true →
      readNumeral (c :: cs ++ rest) = .ok (cs.length + 1, v) → Lexeme (.number v) (c :: cs) rest

theorem Lexeme.ne_nil {s : Symbol} {lexeme rest : List Char} (h : Lexeme s lexeme rest) :
    lexeme ≠ [] := by
  cases h <;> simp

/-- `Lexed pos cs ts`: the tokens `ts` cut the characters `cs`, the first of which sits at byte
offset `pos`, into blanks and lexemes. Each token comes after blanks and sits where its lexeme
starts, and the next token is read after the lexeme. The stream ends after blanks that run to the
end, at the offset of that end, or stops with a problem at a character boundary. -/
inductive Lexed : Nat → List Char → Tokens → Prop
  | done {pos : Nat} {blanks : List Char} : (∀ c ∈ blanks, Text.isBlank c = true) →
      Lexed pos blanks (.done (pos + byteLength blanks))
  | cons {pos : Nat} {blanks lexeme rest : List Char} {s : Symbol} {ts : Tokens} :
      (∀ c ∈ blanks, Text.isBlank c = true) → Lexeme s lexeme rest →
      Lexed (pos + byteLength blanks + byteLength lexeme) rest ts →
      Lexed pos (blanks ++ lexeme ++ rest) (.cons ⟨s, pos + byteLength blanks⟩ ts)
  | fault {pos : Nat} {before after : List Char} {p : Problem} :
      Lexed pos (before ++ after) (.fault (pos + byteLength before) p)

def Tokens.toList : Tokens → List Token
  | .cons t rest => t :: rest.toList
  | _ => []

def Tokens.stop : Tokens → Tokens
  | .cons _ rest => rest.stop
  | ts => ts

namespace Lexed

theorem done_at {pos q : Nat} (blanks : List Char) (hb : ∀ c ∈ blanks, Text.isBlank c = true)
    (hq : q = pos + byteLength blanks) : Lexed pos blanks (.done q) :=
  hq ▸ done hb

theorem cons_at {pos q : Nat} {lexeme cs : List Char} {s : Symbol} {ts : Tokens}
    (blanks rest : List Char) (hb : ∀ c ∈ blanks, Text.isBlank c = true) (hl : Lexeme s lexeme rest)
    (hcs : cs = blanks ++ lexeme ++ rest) (hq : q = pos + byteLength blanks)
    (h : Lexed (q + byteLength lexeme) rest ts) : Lexed pos cs (.cons ⟨s, q⟩ ts) := by
  subst hcs hq
  exact cons hb hl h

theorem fault_at {pos q : Nat} {cs : List Char} {p : Problem} (before after : List Char)
    (hcs : cs = before ++ after) (hq : q = pos + byteLength before) :
    Lexed pos cs (.fault q p) := by
  subst hcs hq
  exact fault

theorem blank {c : Char} {pos : Nat} {cs : List Char} {ts : Tokens} (hc : Text.isBlank c = true)
    (h : Lexed (pos + c.utf8Size) cs ts) : Lexed pos (c :: cs) ts := by
  cases h with
  | done hb =>
      refine done_at (c :: _) ?_ (by simp [Nat.add_assoc])
      simpa [hc] using hb
  | @cons _ blanks lexeme rest s ts hb hl h =>
      refine cons_at (c :: blanks) rest ?_ hl (by simp) (by simp [Nat.add_assoc]) ?_
      · simpa [hc] using hb
      · simpa [Nat.add_assoc] using h
  | @fault _ before after p =>
      exact fault_at (c :: before) after (by simp) (by simp [Nat.add_assoc])

end Lexed

/-! ## The scanner cuts its text -/

/-- The tokens the scanner reads from characters at byte offset `pos` cut them. The induction
follows the scanner: a blank, an operator, a numeral that fails or is read, a name, or a character
that starts no token. -/
theorem scanFrom_lexed (pos : Nat) (cs : List Char) : Lexed pos cs (Tokens.scanFrom pos cs) := by
  fun_induction Tokens.scanFrom pos cs with
  | case1 pos => exact Lexed.done_at [] (by simp) (by simp)
  | case2 pos c cs hc ih => exact Lexed.blank hc ih
  | case3 pos c cs _ s hs ih =>
      exact Lexed.cons_at [] cs (by simp) (.single hs) (by simp) (by simp) (by simpa using ih)
  | case4 pos c cs _ _ _ off p hread =>
      have hbytes := numeralBytes_readNumeral (c :: cs)
      rw [hread] at hbytes
      exact Lexed.fault_at _ _ (List.take_append_drop off (c :: cs)).symm (by rw [hbytes.2])
  | case5 pos c cs _ _ hd n v hread ih =>
      have hbytes := numeralBytes_readNumeral (c :: cs)
      rw [hread] at hbytes
      obtain ⟨k, rfl⟩ : ∃ k, n = k + 1 := ⟨n - 1, by have := hbytes.1; omega⟩
      have hk : (cs.take k).length = k := by
        have := hbytes.2.1
        simp only [List.length_cons] at this
        simp only [List.length_take]
        omega
      have hlex : Lexeme (.number v) (c :: cs.take k) (cs.drop k) := by
        refine .number hd ?_
        rw [List.cons_append, List.take_append_drop, hk, hread]
      refine Lexed.cons_at [] _ (by simp) hlex (by simp) (by simp) ?_
      have hlen : byteLength (c :: cs.take k) = k + 1 := hbytes.2.2
      simpa [hlen] using ih
  | case6 pos c cs _ _ _ hn body ih =>
      have hbody : ∀ d ∈ body, isNameChar d = true := fun d hd =>
        List.all_eq_true.1 List.all_takeWhile d hd
      have hend : ∀ d ∈ (cs.drop body.length).head?, isNameChar d = false := by
        intro d hd
        rw [drop_length_takeWhile] at hd
        obtain ⟨tl, htl⟩ := List.head?_eq_some_iff.1 hd
        have := List.head_dropWhile_not isNameChar (l := cs) (by simp [htl])
        simpa [htl] using this
      have hbytes : byteLength (c :: body) = 1 + body.length := by
        rw [byteLength_cons, utf8Size_of_isNameChar (isNameChar_of_isNameStart hn),
          byteLength_of_utf8Size fun d hd => utf8Size_of_isNameChar (hbody d hd)]
      refine Lexed.cons_at [] _ (by simp) (.name hn hbody hend) ?_ (by simp) ?_
      · have hsplit := List.take_append_drop body.length cs
        rw [show cs.take body.length = body from take_length_takeWhile isNameChar cs] at hsplit
        simp [hsplit]
      · simpa [hbytes, Nat.add_assoc] using ih
  | case7 pos c cs _ _ _ _ => exact Lexed.fault_at [] _ rfl (by simp)

/-! ## What a cut says about offsets -/

namespace Lexed

variable {pos : Nat} {cs : List Char} {ts : Tokens}

theorem positions (h : Lexed pos cs ts) :
    (ts.toList.map Token.pos).Pairwise (· < ·) ∧ ∀ t ∈ ts.toList, pos ≤ t.pos := by
  induction h with
  | done => simp [Tokens.toList]
  | fault => simp [Tokens.toList]
  | @cons pos blanks lexeme rest s ts hb hl h ih =>
      have hlen := byteLength_pos hl.ne_nil
      refine ⟨?_, ?_⟩
      · simp only [Tokens.toList, List.map_cons, List.pairwise_cons, List.mem_map]
        refine ⟨?_, ih.1⟩
        rintro _ ⟨t, ht, rfl⟩
        have := ih.2 t ht
        omega
      · intro t ht
        simp only [Tokens.toList, List.mem_cons] at ht
        rcases ht with rfl | ht
        · exact Nat.le_add_right _ _
        · have := ih.2 t ht
          omega

theorem stop_done (h : Lexed pos cs ts) {q : Nat} (hq : ts.stop = .done q) :
    q = pos + byteLength cs := by
  induction h with
  | done => simpa [Tokens.stop] using hq.symm
  | fault => simp [Tokens.stop] at hq
  | cons _ _ _ ih =>
      rw [ih hq]
      simp [Nat.add_assoc]

theorem stop_fault (h : Lexed pos cs ts) {q : Nat} {p : Problem} (hq : ts.stop = .fault q p) :
    ∃ before after, cs = before ++ after ∧ q = pos + byteLength before := by
  induction h with
  | done => simp [Tokens.stop] at hq
  | @fault pos before after p' =>
      simp only [Tokens.stop, Tokens.fault.injEq] at hq
      exact ⟨before, after, rfl, hq.1.symm⟩
  | @cons pos blanks lexeme rest s ts _ _ _ ih =>
      obtain ⟨before, after, rfl, rfl⟩ := ih hq
      exact ⟨blanks ++ lexeme ++ before, after, by simp, by simp [Nat.add_assoc]⟩

end Lexed

theorem scan_lexed (s : String) : Lexed 0 s.toList (Tokens.scan s) :=
  scanFrom_lexed 0 s.toList

/-- The tokens of a formula text cut it: blanks, then a lexeme whose token sits at the byte offset
where the lexeme starts, and so on, a name being a maximal run of name characters. The offsets of
the tokens increase; the end of the text is reported at its byte length, and a problem at a
character boundary of the text, no further than its end. The spellings `×`, `÷` and `−` are
operators of two, two and three bytes. -/
theorem scan_cuts (s : String) :
    Lexed 0 s.toList (Tokens.scan s) ∧
      ((Tokens.scan s).toList.map Token.pos).Pairwise (· < ·) ∧
      (∀ q, (Tokens.scan s).stop = .done q → q = s.utf8ByteSize) ∧
      (∀ q p, (Tokens.scan s).stop = .fault q p →
        q ≤ s.utf8ByteSize ∧ String.Pos.Raw.IsValid s ⟨q⟩) ∧
      (singleSymbol? '×' = some .times ∧ byteLength ['×'] = 2) ∧
      (singleSymbol? '÷' = some .divide ∧ byteLength ['÷'] = 2) ∧
      (singleSymbol? '−' = some .minus ∧ byteLength ['−'] = 3) := by
  have h := scan_lexed s
  have htotal : byteLength s.toList = s.utf8ByteSize := by
    rw [byteLength_eq_utf8ByteSize, String.ofList_toList]
  refine ⟨h, h.positions.1, fun q hq => by simpa [htotal] using h.stop_done hq, ?_,
    ⟨rfl, rfl⟩, ⟨rfl, rfl⟩, ⟨rfl, rfl⟩⟩
  intro q p hq
  obtain ⟨before, after, hcut, rfl⟩ := h.stop_fault hq
  refine ⟨?_, ?_⟩
  · rw [← htotal, hcut, byteLength_append]
    omega
  · rw [String.Pos.Raw.isValid_iff_exists_take_toList]
    refine ⟨before.length, ?_⟩
    rw [hcut, List.take_left, ← byteLength_eq_utf8ByteSize]
    simp

end Recalc.Formula
