import Recalc.Registry.Update

/-! # Running a lowered formula appends its values after any earlier ones and ends with its value -/

namespace Recalc.Formula

/-! ## The post-order layout -/

theorem pushNodes_snd (f : Formula) (acc : Array Node) (n : Nat) :
    (f.pushNodes (acc, n)).2 = n + f.size := by
  induction f generalizing acc n with
  | num v => simp [pushNodes, size]
  | var x => simp [pushNodes, size]
  | neg a ih =>
      simp [pushNodes, size, ih]
      omega
  | bin op l r ihl ihr =>
      simp [pushNodes, size, ihl, ihr]
      omega

theorem pushNodes_fst (f : Formula) (acc : Array Node) (n : Nat) :
    (f.pushNodes (acc, n)).1 = acc ++ (f.pushNodes (#[], n)).1 := by
  induction f generalizing acc n with
  | num v => simp [pushNodes]
  | var x => simp [pushNodes]
  | neg a ih => simp [pushNodes, pushNodes_snd, ih acc]
  | bin op l r ihl ihr =>
      simp only [pushNodes, pushNodes_snd]
      rw [ihr, ihl acc, ihr (l.pushNodes (#[], n)).1]
      simp [Array.append_assoc]

/-- The nodes of a formula laid out after `n` earlier nodes, operands named by their place among
all of them. -/
def layout (f : Formula) (n : Nat) : List Node := (f.pushNodes (#[], n)).1.toList

theorem nodes_eq_layout (f : Formula) : f.nodes = f.layout 0 := rfl

@[simp] theorem layout_num (v : Float) (n : Nat) : (num v).layout n = [.num v] := rfl

@[simp] theorem layout_var (x : String) (n : Nat) : (var x).layout n = [.var x] := rfl

@[simp] theorem layout_neg (a : Formula) (n : Nat) :
    (neg a).layout n = a.layout n ++ [.neg (n + a.size - 1)] := by
  simp [layout, pushNodes, pushNodes_snd]

@[simp] theorem layout_bin (op : BinOp) (l r : Formula) (n : Nat) :
    (bin op l r).layout n =
      l.layout n ++ r.layout (n + l.size) ++
        [.bin op (n + l.size - 1) (n + l.size + r.size - 1)] := by
  simp only [layout, pushNodes, pushNodes_snd]
  rw [pushNodes_fst r]
  simp

theorem size_pos (f : Formula) : 0 < f.size := by
  cases f <;> simp [size]

@[simp] theorem length_layout (f : Formula) (n : Nat) : (f.layout n).length = f.size := by
  induction f generalizing n with
  | num v => rfl
  | var x => rfl
  | neg a ih => simp [ih, size]
  | bin op l r ihl ihr =>
      simp [ihl, ihr, size]
      omega

theorem pushNames_eq (f : Formula) (acc : Array String) :
    f.pushNames acc = acc ++ f.pushNames #[] := by
  induction f generalizing acc with
  | num v => simp [pushNames]
  | var x => simp [pushNames]
  | neg a ih => simp [pushNames, ih acc]
  | bin op l r ihl ihr =>
      simp only [pushNames]
      rw [ihr, ihl acc, ihr (l.pushNames #[])]
      simp [Array.append_assoc]

@[simp] theorem names_num (v : Float) : (num v).names = [] := rfl

@[simp] theorem names_var (x : String) : (var x).names = [x] := rfl

@[simp] theorem names_neg (a : Formula) : (neg a).names = a.names := rfl

@[simp] theorem names_bin (op : BinOp) (l r : Formula) :
    (bin op l r).names = l.names ++ r.names := by
  simp only [names, pushNames]
  rw [pushNames_eq r]
  simp

def Node.operands : Node → List Nat
  | .neg a => [a]
  | .bin _ l r => [l, r]
  | _ => []

/-- The names read by the nodes of a layout, in order, are the names of the formula read left to
right. -/
theorem filterMap_layout (f : Formula) (n : Nat) :
    (f.layout n).filterMap Node.name? = f.names := by
  induction f generalizing n with
  | num v => rfl
  | var x => rfl
  | neg a ih => simp [ih, Node.name?]
  | bin op l r ihl ihr => simp [ihl, ihr, Node.name?]

/-- The layout is post-order: node `j` reads only places of the same layout before it. -/
theorem operands_layout (f : Formula) (n : Nat) :
    ∀ j node, (f.layout n)[j]? = some node → ∀ k ∈ node.operands, n ≤ k ∧ k < n + j := by
  induction f generalizing n with
  | num v =>
      intro j node h k hk
      cases j <;> simp at h
      simp [← h, Node.operands] at hk
  | var x =>
      intro j node h k hk
      cases j <;> simp at h
      simp [← h, Node.operands] at hk
  | neg a ih =>
      intro j node h k hk
      have hpos := a.size_pos
      rw [layout_neg, List.getElem?_append] at h
      split at h
      · exact ih n j node h k hk
      · rename_i hj
        simp only [length_layout, List.getElem?_singleton] at h hj
        split at h
        · cases h
          simp [Node.operands] at hk
          omega
        · cases h
  | bin op l r ihl ihr =>
      intro j node h k hk
      have hl := l.size_pos
      have hr := r.size_pos
      rw [layout_bin, List.getElem?_append, List.getElem?_append] at h
      simp only [List.length_append, length_layout, List.getElem?_singleton] at h
      split at h
      · split at h
        · exact ihl n j node h k hk
        · have := ihr (n + l.size) (j - l.size) node h k hk
          omega
      · split at h
        · cases h
          simp [Node.operands] at hk
          omega
        · cases h

end Recalc.Formula

namespace Recalc.Program

open Formula

/-! ## Lowering node by node -/

theorem slotOf?_of_mem {slots : List String} {x : String} (hx : x ∈ slots) :
    slotOf? slots x = some (slots.idxOf x) := by
  rw [slotOf?, List.findIdx?_eq_guard_findIdx_lt]
  simp [Option.guard, List.idxOf] at *
  exact hx

theorem slotOf?_eq_none {slots : List String} {x : String} (hx : x ∉ slots) :
    slotOf? slots x = none := by
  simp only [slotOf?, List.findIdx?_eq_none_iff, beq_eq_false_iff_ne]
  rintro y hy rfl
  exact hx hy

theorem slotOf?_eq_some {slots : List String} {x : String} {s : Nat}
    (h : slotOf? slots x = some s) : s = slots.idxOf x ∧ x ∈ slots := by
  by_cases hx : x ∈ slots
  · rw [slotOf?_of_mem hx, Option.some.injEq] at h
    exact ⟨h.symm, hx⟩
  · rw [slotOf?_eq_none hx] at h
    cases h

theorem lowerNodes_cons (slots : List String) (i : Nat) (n : Node) (ns : List Node) (op : Op)
    (h : lowerNode slots i n = .ok op) :
    lowerNodes slots i (n :: ns) = (lowerNodes slots (i + 1) ns).map (op :: ·) := by
  simp [lowerNodes, h]

theorem lowerNodes_singleton {slots : List String} {i : Nat} {n : Node} {ops : List Op}
    (h : lowerNodes slots i [n] = .ok ops) :
    ∃ op, lowerNode slots i n = .ok op ∧ ops = [op] := by
  cases hn : lowerNode slots i n with
  | error e => simp [lowerNodes, hn] at h
  | ok op =>
      simp [lowerNodes, hn, Except.map] at h
      exact ⟨op, rfl, h.symm⟩

theorem lowerNodes_append {slots : List String} {i : Nat} {ns ms : List Node} {ops : List Op}
    (h : lowerNodes slots i (ns ++ ms) = .ok ops) :
    ∃ a b, lowerNodes slots i ns = .ok a ∧ lowerNodes slots (i + ns.length) ms = .ok b ∧
      ops = a ++ b := by
  induction ns generalizing i ops with
  | nil => exact ⟨[], ops, rfl, by simpa using h, rfl⟩
  | cons n ns ih =>
      cases hn : lowerNode slots i n with
      | error e => simp [lowerNodes, hn] at h
      | ok op =>
          rw [List.cons_append, lowerNodes_cons slots i n _ op hn] at h
          cases hrest : lowerNodes slots (i + 1) (ns ++ ms) with
          | error e => simp [hrest, Except.map] at h
          | ok rest =>
              simp only [hrest, Except.map, Except.ok.injEq] at h
              obtain ⟨a, b, ha, hb, rfl⟩ := ih hrest
              refine ⟨op :: a, b, ?_, ?_, h.symm⟩
              · simp [lowerNodes_cons slots i n _ op hn, ha, Except.map]
              · simpa [Nat.add_right_comm, Nat.add_assoc] using hb

theorem lowerNodes_getElem? {slots : List String} {i : Nat} {ns : List Node} {ops : List Op}
    (h : lowerNodes slots i ns = .ok ops) :
    ops.length = ns.length ∧
      ∀ j op, ops[j]? = some op →
        ∃ node, ns[j]? = some node ∧ lowerNode slots (i + j) node = .ok op := by
  induction ns generalizing i ops with
  | nil =>
      simp only [lowerNodes, Except.ok.injEq] at h
      subst h
      simp
  | cons n ns ih =>
      cases hn : lowerNode slots i n with
      | error e => simp [lowerNodes, hn] at h
      | ok o =>
          rw [lowerNodes_cons slots i n ns o hn] at h
          cases hrest : lowerNodes slots (i + 1) ns with
          | error e => simp [hrest, Except.map] at h
          | ok rest =>
              simp only [hrest, Except.map, Except.ok.injEq] at h
              subst h
              obtain ⟨hlen, hget⟩ := ih hrest
              refine ⟨by simp [hlen], ?_⟩
              intro j op hop
              cases j with
              | zero =>
                  simp only [List.getElem?_cons_zero, Option.some.injEq] at hop
                  subst hop
                  exact ⟨n, rfl, by simpa using hn⟩
              | succ j =>
                  obtain ⟨node, hnode, hlow⟩ := hget j op (by simpa using hop)
                  refine ⟨node, by simpa using hnode, ?_⟩
                  simpa [Nat.add_right_comm, Nat.add_assoc] using hlow

theorem lowerNode_ok {slots : List String} (i : Nat) {n : Node}
    (h : ∀ x, n.name? = some x → x ∈ slots) : ∃ op, lowerNode slots i n = .ok op := by
  cases n with
  | var x => simp [lowerNode, slotOf?_of_mem (h x rfl)]
  | num v => simp [lowerNode]
  | neg a => simp [lowerNode]
  | bin op l r => simp [lowerNode]

theorem lowerNodes_ok {slots : List String} {ns : List Node}
    (h : ∀ n ∈ ns, ∀ x, n.name? = some x → x ∈ slots) (i : Nat) :
    ∃ ops, lowerNodes slots i ns = .ok ops := by
  induction ns generalizing i with
  | nil => exact ⟨[], rfl⟩
  | cons n ns ih =>
      obtain ⟨op, hop⟩ := lowerNode_ok i (h n (by simp))
      obtain ⟨rest, hrest⟩ := ih (fun m hm => h m (by simp [hm])) (i + 1)
      exact ⟨op :: rest, by simp [lowerNodes_cons slots i n ns op hop, hrest, Except.map]⟩

/-- Otherwise the first name without a slot, in node order, is the unknown variable. -/
theorem lowerNodes_error {slots : List String} {ns : List Node} {x : String}
    (h : (ns.filterMap Node.name?).find? (fun y => y ∉ slots) = some x) (i : Nat) :
    lowerNodes slots i ns = .error (.unknownVariable x) := by
  induction ns generalizing i with
  | nil => simp at h
  | cons n ns ih =>
      cases n with
      | var y =>
          have hcons : (Node.var y :: ns).filterMap Node.name? = y :: ns.filterMap Node.name? :=
            rfl
          rw [hcons, List.find?_cons] at h
          by_cases hy : y ∈ slots
          · simp only [hy, not_true_eq_false, decide_false] at h
            simp [lowerNodes, lowerNode, slotOf?_of_mem hy, ih h, Except.map]
          · simp only [hy, not_false_eq_true, decide_true, Option.some.injEq] at h
            subst h
            simp [lowerNodes, lowerNode, slotOf?_eq_none hy]
      | num v => simp [lowerNodes, lowerNode, ih h, Except.map]
      | neg a => simp [lowerNodes, lowerNode, ih h, Except.map]
      | bin op l r => simp [lowerNodes, lowerNode, ih h, Except.map]

/-! ## Running a lowered program -/

def Code.arity : Code → Nat
  | .add | .sub | .mul | .div | .pow => 2
  | .neg | .const | .load => 1

/-- Every place a run reads exists: step `i` writes value `i`, reads as many operands as its code
takes, and reads only values already computed and inputs the program has; its result is one of
its values. -/
structure InBounds (p : Program) : Prop where
  result_eq : ∀ i (op : Op), p.ops[i]? = some op → op.result = i
  arity_eq : ∀ op ∈ p.ops, op.operands.length = op.code.arity
  ref_lt : ∀ i (op : Op), p.ops[i]? = some op → ∀ k, Operand.ref k ∈ op.operands → k < i
  input_lt : ∀ op ∈ p.ops, ∀ s, Operand.input s ∈ op.operands → s < p.inputs
  output_lt : p.output < p.ops.length

/-- What the step for one node reads: earlier places that the node reads, and slots that exist. -/
theorem lowerNode_spec {slots : List String} {i : Nat} {n : Node} {op : Op}
    (h : lowerNode slots i n = .ok op) :
    op.result = i ∧ op.operands.length = op.code.arity ∧
      (∀ k, Operand.ref k ∈ op.operands → k ∈ n.operands) ∧
      (∀ s, Operand.input s ∈ op.operands → s < slots.length) := by
  cases n with
  | num v =>
      simp only [lowerNode, Except.ok.injEq] at h
      subst h
      simp [Code.arity]
  | var x =>
      simp only [lowerNode] at h
      split at h
      · rename_i s hs
        simp only [Except.ok.injEq] at h
        subst h
        obtain ⟨rfl, hx⟩ := slotOf?_eq_some hs
        simp [Code.arity, List.idxOf_lt_length_of_mem hx]
      · cases h
  | neg a =>
      simp only [lowerNode, Except.ok.injEq] at h
      subst h
      simp [Code.arity, Node.operands]
  | bin o l r =>
      simp only [lowerNode, Except.ok.injEq] at h
      subst h
      refine ⟨rfl, ?_, ?_, ?_⟩
      · cases o <;> rfl
      · simp [Node.operands]
      · simp

theorem inBounds_lower {slots : List String} {f : Formula} {p : Program}
    (h : lower slots f = .ok p) : p.InBounds := by
  cases hops : lowerNodes slots 0 f.nodes with
  | error e => simp [lower, hops, Except.map] at h
  | ok ops =>
      simp only [lower, hops, Except.map, Except.ok.injEq] at h
      subst h
      obtain ⟨hlen, hget⟩ := lowerNodes_getElem? hops
      -- every step inherits its bounds from its node, which is post-order
      have hspec : ∀ i (op : Op), ops[i]? = some op →
          op.result = i ∧ op.operands.length = op.code.arity ∧
            (∀ k, Operand.ref k ∈ op.operands → k < i) ∧
            (∀ s, Operand.input s ∈ op.operands → s < slots.length) := by
        intro i op hop
        obtain ⟨node, hnode, hlow⟩ := hget i op hop
        obtain ⟨hres, harity, href, hin⟩ := lowerNode_spec hlow
        refine ⟨by simpa using hres, harity, ?_, hin⟩
        intro k hk
        have := operands_layout f 0 i node hnode k (href k hk)
        omega
      refine ⟨fun i op hop => (hspec i op hop).1, ?_, fun i op hop => (hspec i op hop).2.2.1,
        ?_, ?_⟩
      · intro op hop
        obtain ⟨i, hi⟩ := List.mem_iff_getElem?.1 hop
        exact (hspec i op hi).2.1
      · intro op hop
        obtain ⟨i, hi⟩ := List.mem_iff_getElem?.1 hop
        exact (hspec i op hi).2.2.2
      · simp only [hlen, nodes_eq_layout, length_layout, root]
        have := f.size_pos
        omega

/-- Runs steps one after another after the values `done`. -/
def runFrom (ins : Array Float) (done : Array Float) (ops : List Op) : Array Float :=
  ops.foldl (fun done op => done.push (op.apply done ins)) done

theorem values_eq_runFrom (p : Program) (xs : List Float) :
    p.values xs = runFrom xs.toArray #[] p.ops := rfl

theorem runFrom_append (ins done : Array Float) (ops ops' : List Op) :
    runFrom ins done (ops ++ ops') = runFrom ins (runFrom ins done ops) ops' := by
  simp [runFrom, List.foldl_append]

@[simp] theorem runFrom_singleton (ins done : Array Float) (op : Op) :
    runFrom ins done [op] = done.push (op.apply done ins) := rfl

theorem getD_push_self {xs : Array Float} {v : Float} {k : Nat} (hk : k = xs.size) :
    (xs.push v).getD k 0 = v := by
  subst hk
  simp

theorem getD_push_lt {xs : Array Float} {v : Float} {k : Nat} (hk : k < xs.size) :
    (xs.push v).getD k 0 = xs.getD k 0 := by
  simp [Array.getElem?_push, Nat.ne_of_lt hk]

theorem getD_append_lt {xs ys : Array Float} {k : Nat} (hk : k < xs.size) :
    (xs ++ ys).getD k 0 = xs.getD k 0 := by
  simp [Array.getElem?_append_left hk]

section Run

variable {slots : List String} {ins : Array Float} {env : String → Float}

/-- Running the steps of a formula laid out after the values `done` appends the values of its
nodes, the last of which is the formula's value. -/
theorem runFrom_layout (henv : ∀ x ∈ slots, ins.getD (slots.idxOf x) 0 = env x)
    (f : Formula) (n : Nat) (done : Array Float) (hn : done.size = n) (ops : List Op)
    (h : lowerNodes slots n (f.layout n) = .ok ops) :
    ∃ ws, runFrom ins done ops = (done ++ ws).push (f.eval env) ∧ ws.size + 1 = f.size := by
  induction f generalizing n done ops with
  | num v =>
      obtain ⟨op, hop, rfl⟩ := lowerNodes_singleton h
      simp only [lowerNode, Except.ok.injEq] at hop
      subst hop
      refine ⟨#[], ?_, rfl⟩
      simp [Op.apply, Operand.value, Formula.eval]
  | var x =>
      obtain ⟨op, hop, rfl⟩ := lowerNodes_singleton h
      simp only [lowerNode] at hop
      split at hop
      · rename_i s hs
        obtain ⟨rfl, hx⟩ := slotOf?_eq_some hs
        simp only [Except.ok.injEq] at hop
        subst hop
        refine ⟨#[], ?_, rfl⟩
        simp [Op.apply, Operand.value, Formula.eval, ← henv x hx]
      · cases hop
  | neg a ih =>
      rw [layout_neg] at h
      obtain ⟨opsA, opsN, hA, hN, rfl⟩ := lowerNodes_append h
      obtain ⟨wa, hwa, hsize⟩ := ih n done hn opsA hA
      obtain ⟨op, hop, rfl⟩ := lowerNodes_singleton hN
      simp only [lowerNode, Except.ok.injEq] at hop
      subst hop
      have harg : ((done ++ wa).push (a.eval env)).getD (n + a.size - 1) 0 = a.eval env :=
        getD_push_self (by simp; omega)
      refine ⟨wa.push (a.eval env), ?_, by simp [size]; omega⟩
      rw [runFrom_append, hwa, runFrom_singleton]
      simp only [Op.apply, List.getD_cons_zero, Operand.value, harg]
      simp [Formula.eval]
  | bin op l r ihl ihr =>
      rw [layout_bin] at h
      obtain ⟨opsLR, opsB, hLR, hB, rfl⟩ := lowerNodes_append h
      obtain ⟨opsL, opsR, hL, hR, rfl⟩ := lowerNodes_append hLR
      obtain ⟨wl, hwl, hsizeL⟩ := ihl n done hn opsL hL
      rw [length_layout] at hR
      obtain ⟨wr, hwr, hsizeR⟩ := ihr (n + l.size) ((done ++ wl).push (l.eval env))
        (by simp; omega) opsR hR
      obtain ⟨o, ho, rfl⟩ := lowerNodes_singleton hB
      simp only [lowerNode, Except.ok.injEq] at ho
      subst ho
      -- the left operand's value stays where its run left it while the right one runs
      have hargL : ((((done ++ wl).push (l.eval env)) ++ wr).push (r.eval env)).getD
          (n + l.size - 1) 0 = l.eval env := by
        rw [getD_push_lt (by simp; omega), getD_append_lt (by simp; omega)]
        exact getD_push_self (by simp; omega)
      have hargR : ((((done ++ wl).push (l.eval env)) ++ wr).push (r.eval env)).getD
          (n + l.size + r.size - 1) 0 = r.eval env :=
        getD_push_self (by simp; omega)
      refine ⟨(wl.push (l.eval env) ++ wr).push (r.eval env), ?_, by simp [size]; omega⟩
      rw [runFrom_append, runFrom_append, hwl, hwr, runFrom_singleton]
      simp only [Op.apply, List.getD_cons_zero, List.getD_cons_succ, Operand.value, hargL,
        hargR]
      cases op <;> simp [Formula.eval, Code.ofBinOp, BinOp.apply, Array.append_assoc]

end Run

/-- A lowered program computes the value of its formula, each name read from its slot. -/
theorem run_lower {slots : List String} {f : Formula} {p : Program} (h : lower slots f = .ok p)
    (xs : List Float) : p.run xs = f.eval (fun x => xs.getD (slots.idxOf x) 0) := by
  cases hops : lowerNodes slots 0 f.nodes with
  | error e => simp [lower, hops, Except.map] at h
  | ok ops =>
      simp only [lower, hops, Except.ok.injEq, Except.map] at h
      subst h
      have henv : ∀ x ∈ slots,
          xs.toArray.getD (slots.idxOf x) 0 = xs.getD (slots.idxOf x) 0 := by
        intro x _
        simp
      obtain ⟨ws, hrun, hsize⟩ := runFrom_layout henv f 0 #[] rfl ops hops
      rw [run, values_eq_runFrom, hrun]
      exact getD_push_self (by simp [root]; omega)

/-! ## Lowering and compiling -/

theorem lower_ok {slots : List String} {f : Formula} (hf : ∀ x ∈ f.names, x ∈ slots) :
    ∃ p, lower slots f = .ok p ∧ p.inputs = slots.length := by
  have hnodes : ∀ n ∈ f.nodes, ∀ x, n.name? = some x → x ∈ slots := by
    intro n hn x hx
    apply hf x
    rw [← filterMap_layout f 0, List.mem_filterMap]
    exact ⟨n, hn, hx⟩
  obtain ⟨ops, hops⟩ := lowerNodes_ok hnodes 0
  exact ⟨⟨ops, f.root, slots.length⟩, by simp [lower, hops, Except.map], rfl⟩

theorem lower_error {slots : List String} {f : Formula} {x : String}
    (hx : f.names.find? (fun y => y ∉ slots) = some x) :
    lower slots f = .error (.unknownVariable x) := by
  rw [← filterMap_layout f 0] at hx
  simp [lower, nodes_eq_layout, lowerNodes_error hx, Except.map]

end Recalc.Program

namespace Recalc

theorem mem_foldl_firstOccurrences {α : Type} [BEq α] [LawfulBEq α] (x : α)
    (xs seen : List α) :
    x ∈ xs.foldl (fun seen x => if seen.contains x then seen else seen ++ [x]) seen ↔
      x ∈ seen ∨ x ∈ xs := by
  induction xs generalizing seen with
  | nil => simp
  | cons y ys ih =>
      rw [List.foldl_cons, ih]
      by_cases hy : y ∈ seen
      · simp only [List.contains_iff_mem, hy, if_true, List.mem_cons]
        constructor
        · rintro (h | h) <;> simp [h]
        · rintro (h | rfl | h) <;> simp [*]
      · simp [hy, or_assoc]

theorem mem_firstOccurrences {α : Type} [BEq α] [LawfulBEq α] {x : α} {xs : List α} :
    x ∈ firstOccurrences xs ↔ x ∈ xs := by
  rw [firstOccurrences, mem_foldl_firstOccurrences]
  simp

namespace Registry

theorem compile_eq_ok {r : Registry} {limits : Limits} {src : String} {bf : BoundFormula}
    (h : r.compile limits src = .ok bf) :
    ∃ f refs program, Formula.parse limits src = .ok f ∧ r.bindNames f.identifiers = .ok refs ∧
      Program.lower f.identifiers f = .ok program ∧
      bf = { home := r.ident, source := src, names := f.identifiers, refs, program } := by
  cases hp : Formula.parse limits src with
  | error e => simp [compile, hp, bind, Except.bind] at h
  | ok f =>
      cases hb : r.bindNames f.identifiers with
      | error e => simp [compile, hp, hb, bind, Except.bind] at h
      | ok refs =>
          cases hl : Program.lower f.identifiers f with
          | error e => simp [compile, hp, hb, hl, bind, Except.bind] at h
          | ok program =>
              simp [compile, hp, hb, hl, bind, Except.bind, pure, Except.pure] at h
              exact ⟨f, refs, program, rfl, hb, hl, h.symm⟩

/-- The program of a compiled formula computes the formula it read, each name taking the input
at its place among the formula's names. -/
theorem compile_run_eq_eval {r : Registry} {limits : Limits} {src : String} {bf : BoundFormula}
    (h : r.compile limits src = .ok bf) :
    ∃ f, Formula.parse limits src = .ok f ∧ bf.names = f.identifiers ∧
      bf.program.inputs = bf.names.length ∧ bf.program.InBounds ∧
      ∀ xs : List Float, bf.program.run xs = f.eval (fun x => xs.getD (bf.names.idxOf x) 0) := by
  obtain ⟨f, refs, program, hp, -, hl, rfl⟩ := compile_eq_ok h
  have hbound : ∀ x ∈ f.names, x ∈ f.identifiers := fun x hx => mem_firstOccurrences.2 hx
  obtain ⟨p, hp', hinputs⟩ := Program.lower_ok hbound
  rw [hl, Except.ok.injEq] at hp'
  subst hp'
  exact ⟨f, hp, rfl, hinputs, Program.inBounds_lower hl, Program.run_lower hl⟩

end Registry

/-- Lowering preserves meaning. A formula whose names all have slots lowers to a program with one
input per slot, whose every read is in bounds, and which computes the formula with each name
read from its slot; otherwise lowering names the first name, left to right, without a slot. So
the program of a compiled formula, given the values of its names in order, computes the formula
that was read. -/
theorem lower_preserves_meaning :
    (∀ (f : Formula) (slots : List String), (∀ x ∈ f.names, x ∈ slots) →
      ∃ p, Program.lower slots f = .ok p ∧ p.inputs = slots.length ∧ p.InBounds ∧
        ∀ xs : List Float, p.run xs = f.eval (fun x => xs.getD (slots.idxOf x) 0)) ∧
    (∀ (f : Formula) (slots : List String) (x : String),
      f.names.find? (fun y => y ∉ slots) = some x →
        Program.lower slots f = .error (.unknownVariable x)) ∧
    (∀ (r : Registry) (limits : Limits) (src : String) (bf : BoundFormula),
      r.compile limits src = .ok bf →
      ∃ f, Formula.parse limits src = .ok f ∧ bf.names = f.identifiers ∧
        bf.program.inputs = bf.names.length ∧ bf.program.InBounds ∧
        ∀ xs : List Float, bf.program.run xs = f.eval (fun x => xs.getD (bf.names.idxOf x) 0)) := by
  refine ⟨?_, fun f slots x hx => Program.lower_error hx,
    fun r limits src bf h => Registry.compile_run_eq_eval h⟩
  intro f slots hf
  obtain ⟨p, hp, hinputs⟩ := Program.lower_ok hf
  exact ⟨p, hp, hinputs, Program.inBounds_lower hp, Program.run_lower hp⟩

/-- `x * -x` reads `x` twice through one slot, and `a + b` without a slot for `b` names `b`. -/
theorem lower_preserves_meaning_square :
    (∀ x ∈ (Formula.bin .mul (.var "x") (.neg (.var "x"))).names, x ∈ ["x"]) ∧
      (∃ p, Program.lower ["x"] (.bin .mul (.var "x") (.neg (.var "x"))) = .ok p ∧
        p.inputs = 1 ∧ p.InBounds ∧
        ∀ xs : List Float, p.run xs =
          (Formula.bin .mul (.var "x") (.neg (.var "x"))).eval
            (fun x => xs.getD (["x"].idxOf x) 0)) ∧
      Program.lower ["a"] (.bin .add (.var "a") (.var "b")) = .error (.unknownVariable "b") :=
  ⟨by decide, lower_preserves_meaning.1 _ ["x"] (by decide),
    lower_preserves_meaning.2.1 _ ["a"] "b" (by decide)⟩

end Recalc
