import Mathlib.Logic.Relation
import Gateware.Proofs.Reading.Files

/- Expressions are never malformed.

   Reading an expression goes through two loops with a stack each, and both could run into a stack
   that lacks what is looked for. They never do. This file

   1. counts what items look for and leave: `arity`, the operands that some items leave on the
      stack (`height`), and the groups and operators that wait (`groups`, `operators`);
   2. cuts both loops into rounds (`Scanning.round`, `push`) and proves that the loops are made of
      them (`run_eq_round`, `build_eq_foldlM`);
   3. states the invariant of the first loop (`Scanning.Balanced`): there is an opening parenthesis
      on the operator stack for each group that is open, and the items put out leave one operand
      more than there are operators waiting, or as many where an operand has to come next;
   4. proves that every round keeps the balance (`Balanced.round`), so that at the end there are no
      operators left and exactly one operand (`Complete`), from which the second loop makes a tree
      unless it is too high (`Complete.toExpr`);
   5. concludes that no tokens lead to a malformed expression (`expression_never_malformed`). -/
namespace Gateware

namespace Rpn

/-- How many operands an item looks for. -/
def arity : Rpn → Nat
  | .ident _ | .literal _ => 0
  | .group _ => 1
  | .operator _ _ => 2

/-- An item is what the token says that it was made from. -/
def Fits : Rpn → Prop
  | .ident t => t.kind = .identifier
  | .literal t => t.kind = .literal
  | .group t => t.kind = .leftParen
  | .operator op t => t.kind.isOperator = true ∧ Operator.ofSymbol? t.text = some op

/-- How many operands items leave on the stack, if each of them finds those it looks for. The
latest item comes first. -/
def height : List Rpn → Option Nat
  | [] => some 0
  | .ident _ :: out | .literal _ :: out => (height out).map (· + 1)
  | .group _ :: out => (height out).filter (1 ≤ ·)
  | .operator _ _ :: out => ((height out).filter (2 ≤ ·)).map (· - 1)

/-- How many groups are open on a stack of operators. -/
def groups (ops : List Rpn) : Nat := ops.countP isGroup

/-- How many operators wait on a stack of operators. -/
def operators (ops : List Rpn) : Nat := ops.countP (!·.isGroup)

section
variable (op : Operator) (t : Token) (ops : List Rpn)

@[simp] theorem groups_group : groups (.group t :: ops) = groups ops + 1 := List.countP_cons_of_pos rfl

@[simp] theorem groups_operator : groups (.operator op t :: ops) = groups ops :=
  List.countP_cons_of_neg Bool.false_ne_true

@[simp] theorem operators_group : operators (.group t :: ops) = operators ops :=
  List.countP_cons_of_neg Bool.false_ne_true

@[simp] theorem operators_operator : operators (.operator op t :: ops) = operators ops + 1 :=
  List.countP_cons_of_pos rfl

end

/-- Items that form exactly one tree, the latest first. -/
structure Complete (out : List Rpn) : Prop where
  fits : ∀ item ∈ out, item.Fits
  height_eq : height out = some 1

/-! ## The two loops, round by round -/

/-- The state of a scan between two rounds. -/
structure Scanning where
  wanted : Bool
  depth : Nat
  ops : List Rpn
  out : List Rpn
  rest : List Token

/-- What a round of a scan comes to: the result of the scan, or another round. -/
inductive Scanning.Round where
  | ended (result : Except SyntaxError (List Rpn × List Token))
  | next (s : Scanning)

namespace Scanning

def start (ts : List Token) : Scanning := ⟨true, 0, [], [], ts⟩

def run (s : Scanning) (stop : Position) : Except SyntaxError (List Rpn × List Token) :=
  scan stop s.wanted s.depth s.ops s.out s.rest

def round (s : Scanning) (stop : Position) : Round :=
  match s.rest with
  | [] => .ended (.error (.endOfInput ⟨stop⟩))
  | token :: rest =>
    if s.wanted then
      match token.kind with
      | .identifier => .next ⟨false, s.depth, s.ops, .ident token :: s.out, rest⟩
      | .literal => .next ⟨false, s.depth, s.ops, .literal token :: s.out, rest⟩
      | .leftParen => .next ⟨true, s.depth + 1, .group token :: s.ops, s.out, rest⟩
      | _ => .ended (.error (.unexpected .expression token [.identifier, .literal, .leftParen]))
    else if token.kind.isOperator then
      match Operator.ofSymbol? token.text with
      | none => .ended (.error (.malformedExpression token.pos))
      | some op =>
        let moved := yield op.precedence s.ops s.out
        .next ⟨true, s.depth, .operator op token :: moved.1, moved.2, rest⟩
    else if token.kind = .rightParen ∧ 0 < s.depth then
      match close token.pos s.ops s.out with
      | .error e => .ended (.error e)
      | .ok (ops, out) => .next ⟨false, s.depth - 1, ops, out, rest⟩
    else .ended ((finish token s.ops s.out).map fun items => (items, token :: rest))

/-- A scan is one round, and then the scan from the state that it leaves. -/
theorem run_eq_round (s : Scanning) (stop : Position) :
    s.run stop = match s.round stop with
      | .ended result => result
      | .next s' => s'.run stop := by
  obtain ⟨wanted, depth, ops, out, rest⟩ := s
  cases rest with
  | nil => rfl
  | cons token rest =>
    simp only [run, round, scan]
    cases wanted with
    | true => cases token.kind <;> rfl
    | false =>
      simp only [Bool.false_eq_true, if_false]
      split
      · cases Operator.ofSymbol? token.text <;> rfl
      · split
        · cases close token.pos ops out <;> rfl
        · cases finish token ops out <;> rfl

/-- The states that a scan comes to. -/
def Reaches (stop : Position) : Scanning → Scanning → Prop :=
  Relation.ReflTransGen fun s s' => s.round stop = .next s'

end Scanning

/-- One round of building a tree: an item takes the operands it looks for from the stack, and
puts one back. -/
def push (stack : List Operand) : Rpn → Except SyntaxError (List Operand)
  | .ident t => .ok (⟨.ident ⟨t.text, t.pos⟩, t.pos, 0⟩ :: stack)
  | .literal t => .ok (⟨.literal ⟨t.text, t.pos⟩, t.pos, 0⟩ :: stack)
  | .group t =>
    match stack with
    | inner :: stack => .ok ({ inner with lead := t.pos } :: stack)
    | [] => .error (.malformedExpression t.pos)
  | .operator op t =>
    match stack with
    | rhs :: lhs :: stack =>
      let height := max lhs.height rhs.height + 1
      if maxHeight < height then .error (.tooDeep t.pos)
      else .ok (⟨.binary op lhs.expr rhs.expr lhs.lead, lhs.lead, height⟩ :: stack)
    | _ => .error (.malformedExpression t.pos)

/-- The tree, when all items are used up. -/
def root (pos : Position) : List Operand → Except SyntaxError Expr
  | [root] => .ok root.expr
  | _ => .error (.malformedExpression pos)

/-- Building a tree is one round for each item. -/
theorem build_eq_foldlM (pos : Position) (stack : List Operand) (items : List Rpn) :
    build pos stack items = items.foldlM push stack >>= root pos := by
  induction items generalizing stack with
  | nil =>
    cases stack with
    | nil => rfl
    | cons operand stack => cases stack <;> rfl
  | cons item items ih =>
    rw [List.foldlM_cons, bind_assoc]
    cases item with
    | ident t => rw [build]; exact ih _
    | literal t => rw [build]; exact ih _
    | group t =>
      cases stack with
      | nil => rfl
      | cons inner stack => rw [build]; exact ih _
    | operator op t =>
      cases stack with
      | nil => rfl
      | cons rhs stack =>
        cases stack with
        | nil => rfl
        | cons lhs stack =>
          simp only [build, push]
          split
          · rfl
          · exact ih _

/-! ## Operators that are moved -/

theorem height_moved {moved out : List Rpn} {n : Nat} (hmoved : ∀ item ∈ moved, item.arity = 2)
    (h : height out = some (moved.length + n + 1)) : height (moved.reverse ++ out) = some (n + 1) := by
  induction moved generalizing out with
  | nil => simpa using h
  | cons item moved ih =>
    obtain ⟨hitem, hmoved⟩ := List.forall_mem_cons.mp hmoved
    rw [List.reverse_cons, List.append_assoc]
    apply ih hmoved
    cases item with
    | operator op t =>
      have hlength : (Rpn.operator op t :: moved).length + n + 1 = moved.length + n + 1 + 1 := by
        rw [List.length_cons]; omega
      rw [hlength] at h
      simp [height, h]
    | ident | literal | group => cases hitem

theorem groups_append_moved {moved : List Rpn} (hmoved : ∀ item ∈ moved, item.arity = 2) (kept : List Rpn) :
    groups (moved ++ kept) = groups kept ∧ operators (moved ++ kept) = moved.length + operators kept := by
  have hgroup : ∀ item ∈ moved, item.isGroup = false := by
    intro item hitem
    cases item with
    | group => cases hmoved _ hitem
    | ident | literal | operator => rfl
  have hnone : moved.countP isGroup = 0 := List.countP_eq_zero.mpr (by simpa using hgroup)
  have hall : moved.countP (!·.isGroup) = moved.length := List.countP_eq_length.mpr (by simpa using hgroup)
  simp [groups, operators, List.countP_append, hnone, hall]

theorem yield_eq (incoming : Nat) (ops out : List Rpn) : ∃ moved kept, ops = moved ++ kept ∧
    (∀ item ∈ moved, item.arity = 2) ∧ yield incoming ops out = (kept, moved.reverse ++ out) := by
  fun_induction yield incoming ops out with
  | case1 op t ops out hlt => exact ⟨[], .operator op t :: ops, rfl, by simp, rfl⟩
  | case2 op t ops out hlt ih =>
    obtain ⟨moved, kept, rfl, hmoved, h⟩ := ih
    exact ⟨.operator op t :: moved, kept, rfl, by simpa [arity] using hmoved, by simp [h]⟩
  | case3 ops out hops => exact ⟨[], ops, rfl, by simp, rfl⟩

/-- A group that is open is found and closed. -/
theorem close_eq (pos : Position) {ops : List Rpn} (hops : ∀ item ∈ ops, 0 < item.arity) (hopen : 0 < groups ops)
    (out : List Rpn) : ∃ moved opening kept, ops = moved ++ .group opening :: kept ∧
      (∀ item ∈ moved, item.arity = 2) ∧
      close pos ops out = .ok (kept, .group opening :: (moved.reverse ++ out)) := by
  induction ops generalizing out with
  | nil => cases hopen
  | cons item ops ih =>
    obtain ⟨hitem, hrest⟩ := List.forall_mem_cons.mp hops
    cases item with
    | group opening => exact ⟨[], opening, ops, rfl, by simp, rfl⟩
    | operator op t =>
      have hopen' : 0 < groups ops := by rwa [groups_operator] at hopen
      obtain ⟨moved, opening, kept, rfl, hmoved, h⟩ := ih hrest hopen' (.operator op t :: out)
      exact ⟨.operator op t :: moved, opening, kept, rfl, by simpa [arity] using hmoved, by simpa [close] using h⟩
    | ident | literal => cases hitem

/-- All operators are moved, unless a group is open. -/
theorem finish_eq (received : Token) {ops : List Rpn} (hops : ∀ item ∈ ops, 0 < item.arity) (out : List Rpn) :
    finish received ops out = if groups ops = 0 then .ok (ops.reverse ++ out).reverse
      else .error (.unexpected .group received [.rightParen]) := by
  induction ops generalizing out with
  | nil => simp [finish, groups]
  | cons item ops ih =>
    obtain ⟨hitem, hrest⟩ := List.forall_mem_cons.mp hops
    cases item with
    | group opening => simp [finish]
    | operator op t => simp [finish, ih hrest]
    | ident | literal => cases hitem

/-! ## Balance -/

namespace Scanning

/-- The stacks of a scan are in balance. -/
structure Balanced (s : Scanning) : Prop where
  ops_fit : ∀ item ∈ s.ops, item.Fits
  out_fit : ∀ item ∈ s.out, item.Fits
  waiting : ∀ item ∈ s.ops, 0 < item.arity
  depth_eq : s.depth = groups s.ops
  height_eq : height s.out = some (operators s.ops + if s.wanted then 0 else 1)

theorem balanced_start (ts : List Token) : (start ts).Balanced := by
  constructor <;> simp [start, groups, operators, height]

section
variable {depth : Nat} {ops out : List Rpn} {rest rest' : List Token} {token : Token}

theorem Balanced.operand (h : Balanced ⟨true, depth, ops, out, rest⟩) {item : Rpn} (hitem : item.Fits)
    (harity : item.arity = 0) : Balanced ⟨false, depth, ops, item :: out, rest'⟩ := by
  refine ⟨h.ops_fit, List.forall_mem_cons.mpr ⟨hitem, h.out_fit⟩, h.waiting, h.depth_eq, ?_⟩
  have hheight : height out = some (operators ops) := h.height_eq
  cases item with
  | ident | literal => simp [height, hheight]
  | group | operator => cases harity

theorem Balanced.opened (h : Balanced ⟨true, depth, ops, out, rest⟩) (hk : token.kind = .leftParen) :
    Balanced ⟨true, depth + 1, .group token :: ops, out, rest'⟩ := by
  refine ⟨List.forall_mem_cons.mpr ⟨hk, h.ops_fit⟩, h.out_fit,
    List.forall_mem_cons.mpr ⟨Nat.zero_lt_one, h.waiting⟩, ?_, ?_⟩
  · rw [groups_group]
    exact congrArg (· + 1) h.depth_eq
  · rw [operators_group]
    exact h.height_eq

/-- The operators that an incoming one moves find their operands, and it waits above the rest. -/
theorem Balanced.joined (h : Balanced ⟨false, depth, ops, out, rest⟩) {op : Operator}
    (hk : token.kind.isOperator = true) (hop : Operator.ofSymbol? token.text = some op) :
    Balanced ⟨true, depth, .operator op token :: (yield op.precedence ops out).1,
      (yield op.precedence ops out).2, rest'⟩ := by
  obtain ⟨moved, kept, rfl, hmoved, hyield⟩ := yield_eq op.precedence ops out
  obtain ⟨hgroups, hoperators⟩ := groups_append_moved hmoved kept
  obtain ⟨hmovedFit, hkeptFit⟩ := List.forall_mem_append.mp h.ops_fit
  obtain ⟨-, hkeptWaiting⟩ := List.forall_mem_append.mp h.waiting
  have hheight : height out = some (operators (moved ++ kept) + 1) := h.height_eq
  rw [hoperators] at hheight
  rw [hyield]
  refine ⟨List.forall_mem_cons.mpr ⟨⟨hk, hop⟩, hkeptFit⟩, ?_, ?_, ?_, ?_⟩
  · exact List.forall_mem_append.mpr ⟨fun item hitem => hmovedFit item (List.mem_reverse.mp hitem), h.out_fit⟩
  · exact List.forall_mem_cons.mpr ⟨Nat.zero_lt_two, hkeptWaiting⟩
  · rw [groups_operator, ← hgroups]
    exact h.depth_eq
  · rw [operators_operator]
    exact height_moved hmoved hheight

/-- A closing parenthesis finds its opening one, the operators of the group find their operands,
and the group is an operand. -/
theorem Balanced.closed (h : Balanced ⟨false, depth, ops, out, rest⟩) (hopen : 0 < depth) (pos : Position)
    (rest' : List Token) :
    ∃ ops' out', close pos ops out = .ok (ops', out') ∧ Balanced ⟨false, depth - 1, ops', out', rest'⟩ := by
  have hdepth : depth = groups ops := h.depth_eq
  obtain ⟨moved, opening, kept, rfl, hmoved, hclose⟩ := close_eq pos h.waiting (hdepth ▸ hopen) out
  obtain ⟨hgroups, hoperators⟩ := groups_append_moved hmoved (.group opening :: kept)
  obtain ⟨hmovedFit, hkeptFit⟩ := List.forall_mem_append.mp h.ops_fit
  obtain ⟨-, hkeptWaiting⟩ := List.forall_mem_append.mp h.waiting
  obtain ⟨hopening, hkeptFit⟩ := List.forall_mem_cons.mp hkeptFit
  obtain ⟨-, hkeptWaiting⟩ := List.forall_mem_cons.mp hkeptWaiting
  have hheight : height out = some (operators (moved ++ .group opening :: kept) + 1) := h.height_eq
  rw [hoperators, operators_group] at hheight
  refine ⟨_, _, hclose, hkeptFit, List.forall_mem_cons.mpr ⟨hopening, ?_⟩, hkeptWaiting, ?_, ?_⟩
  · exact List.forall_mem_append.mpr ⟨fun item hitem => hmovedFit item (List.mem_reverse.mp hitem), h.out_fit⟩
  · rw [hdepth, hgroups, groups_group]
    exact Nat.add_sub_cancel _ 1
  · simp [height, height_moved hmoved hheight]

/-- Where no group is open, all operators find their operands and one operand is left. -/
theorem Balanced.complete (h : Balanced ⟨false, depth, ops, out, rest⟩) (hgroups : groups ops = 0) :
    Complete (ops.reverse ++ out) := by
  have hmoved : ∀ item ∈ ops, item.arity = 2 := by
    intro item hitem
    have hwaiting := h.waiting item hitem
    have hgroup := List.countP_eq_zero.mp hgroups item hitem
    cases item with
    | operator => rfl
    | group => exact absurd rfl hgroup
    | ident | literal => cases hwaiting
  have hoperators := (groups_append_moved hmoved []).2
  have hheight : height out = some (operators ops + 1) := h.height_eq
  rw [← List.append_nil ops, hoperators] at hheight
  constructor
  · exact List.forall_mem_append.mpr ⟨fun item hitem => h.ops_fit item (List.mem_reverse.mp hitem), h.out_fit⟩
  · exact height_moved hmoved hheight

end

/-- What a round from a balanced state comes to: another balanced state with a token less, items
that form one tree, or an error that is not about malformed expressions. -/
inductive Sound (s : Scanning) : Round → Prop
  | next {s' : Scanning} (token : Token) (hrest : s.rest = token :: s'.rest) (h : s'.Balanced) : Sound s (.next s')
  | ended {out : List Rpn} {rest : List Token} (h : Complete out) : Sound s (.ended (.ok (out.reverse, rest)))
  | failed {e : SyntaxError} (h : ∀ pos, e ≠ .malformedExpression pos) : Sound s (.ended (.error e))

theorem Balanced.round {s : Scanning} (h : s.Balanced) (stop : Position) : s.Sound (s.round stop) := by
  obtain ⟨wanted, depth, ops, out, rest⟩ := s
  cases rest with
  | nil => exact .failed (by simp)
  | cons token rest =>
    cases wanted with
    | true =>
      simp only [Scanning.round, if_true]
      cases hk : token.kind with
      | identifier => exact .next token rfl (h.operand hk rfl)
      | literal => exact .next token rfl (h.operand hk rfl)
      | leftParen => exact .next token rfl (h.opened hk)
      | _ => exact .failed (by simp)
    | false =>
      simp only [Scanning.round, Bool.false_eq_true, if_false]
      split
      · rename_i hk
        obtain ⟨sign, rfl⟩ := Grammar.Sign.exists_token_eq hk
        rw [sign.symbol_eq]
        exact .next sign.token rfl (h.joined hk sign.symbol_eq)
      · split
        · rename_i hclose
          obtain ⟨ops', out', heq, hbalanced⟩ := h.closed hclose.2 token.pos rest
          rw [heq]
          exact .next token rfl hbalanced
        · rw [finish_eq token h.waiting]
          split
          · rename_i hgroups
            exact .ended (h.complete hgroups)
          · exact .failed (by simp)

theorem Reaches.balanced {stop : Position} {s s' : Scanning} (h : Reaches stop s s') (hs : s.Balanced) :
    s'.Balanced := by
  induction h with
  | refl => exact hs
  | tail _ hround ih =>
    have hsound := ih.round stop
    rw [hround] at hsound
    cases hsound with
    | next _ _ h => exact h

/-- A scan from a balanced state ends with items that form one tree, or fails for another reason
than a malformed expression. -/
theorem Balanced.run {s : Scanning} (h : s.Balanced) (stop : Position) :
    (∃ out rest, s.run stop = .ok (out.reverse, rest) ∧ Complete out) ∨
      ∃ e, s.run stop = .error e ∧ ∀ pos, e ≠ .malformedExpression pos := by
  induction hts : s.rest generalizing s with
  | nil =>
    right
    refine ⟨.endOfInput ⟨stop⟩, ?_, by simp⟩
    rw [Scanning.run, hts]
    rfl
  | cons token ts ih =>
    have hsound := h.round stop
    rw [run_eq_round]
    cases hround : s.round stop with
    | next s' =>
      rw [hround] at hsound
      cases hsound with
      | next token' hrest h' =>
        rw [hts] at hrest
        exact ih h' (List.cons.inj hrest).2.symm
    | ended result =>
      rw [hround] at hsound
      cases hsound with
      | ended h => exact .inl ⟨_, _, rfl, h⟩
      | failed h => exact .inr ⟨_, rfl, h⟩

end Scanning

/-! ## Operands on the stack -/

/-- An item takes as many operands as it looks for, and leaves one. -/
theorem height_cons {item : Rpn} {out : List Rpn} {n : Nat} (h : height (item :: out) = some n) :
    ∃ m, height out = some m ∧ item.arity ≤ m ∧ n + item.arity = m + 1 := by
  cases item with
  | ident | literal =>
    obtain ⟨m, hm, rfl⟩ := Option.map_eq_some_iff.mp h
    exact ⟨m, hm, Nat.zero_le m, rfl⟩
  | group =>
    obtain ⟨hm, hle⟩ := Option.filter_eq_some_iff.mp h
    exact ⟨n, hm, by simpa [arity] using hle, rfl⟩
  | operator =>
    obtain ⟨m, hm, rfl⟩ := Option.map_eq_some_iff.mp h
    obtain ⟨hm, hle⟩ := Option.filter_eq_some_iff.mp hm
    have hle : 2 ≤ m := by simpa using hle
    exact ⟨m, hm, hle, by simp only [arity]; omega⟩

theorem exists_height_of_append {later out : List Rpn} {n : Nat} (h : height (later ++ out) = some n) :
    ∃ m, height out = some m := by
  induction later generalizing n with
  | nil => exact ⟨n, h⟩
  | cons item later ih =>
    obtain ⟨m, hm, -⟩ := height_cons h
    exact ih hm

/-- With enough operands on the stack only the limit on heights can be in the way. -/
theorem push_of_arity_le {stack : List Operand} {item : Rpn} (h : item.arity ≤ stack.length) :
    (∃ stack', push stack item = .ok stack' ∧ stack'.length + item.arity = stack.length + 1) ∨
      ∃ pos, push stack item = .error (.tooDeep pos) := by
  cases item with
  | ident | literal => exact .inl ⟨_, rfl, rfl⟩
  | group t =>
    cases stack with
    | nil => cases h
    | cons inner stack => exact .inl ⟨_, rfl, rfl⟩
  | operator op t =>
    match stack, h with
    | rhs :: lhs :: stack, _ =>
      simp only [push]
      split
      · exact .inr ⟨_, rfl⟩
      · exact .inl ⟨_, rfl, rfl⟩

theorem foldlM_push {out : List Rpn} {n : Nat} (h : height out = some n) :
    (∃ stack, out.reverse.foldlM push [] = .ok stack ∧ stack.length = n) ∨
      ∃ pos, out.reverse.foldlM push [] = .error (.tooDeep pos) := by
  induction out generalizing n with
  | nil => exact .inl ⟨[], rfl, Option.some.inj h⟩
  | cons item out ih =>
    obtain ⟨m, hm, hle, hn⟩ := height_cons h
    rw [List.reverse_cons, List.foldlM_append]
    rcases ih hm with ⟨stack, hstack, rfl⟩ | ⟨pos, hpos⟩
    · rw [hstack]
      simp only [List.foldlM_cons, List.foldlM_nil, bind_pure]
      rcases push_of_arity_le hle with ⟨stack', hstack', hlength⟩ | htooDeep
      · exact .inl ⟨stack', hstack', by omega⟩
      · exact .inr htooDeep
    · rw [hpos]
      exact .inr ⟨pos, rfl⟩

/-- In a sequence of items each is what its token says, each finds on the stack what it looks for,
and the last one leaves a single operand. -/
structure FindsOperands (items : List Rpn) : Prop where
  fits : ∀ item ∈ items, item.Fits
  operands : ∀ before item after, items = before ++ item :: after →
    ∀ stack, before.foldlM push [] = .ok stack → item.arity ≤ stack.length
  single : ∀ stack, items.foldlM push [] = .ok stack → ∃ root, stack = [root]

theorem Complete.findsOperands {out : List Rpn} (h : Complete out) : FindsOperands out.reverse := by
  refine ⟨fun item hitem => h.fits item (List.mem_reverse.mp hitem), ?_, ?_⟩
  · intro before item after hout stack hstack
    have hsplit : out = after.reverse ++ item :: before.reverse := by
      rw [← out.reverse_reverse, hout]
      simp
    obtain ⟨n, hn⟩ := exists_height_of_append (hsplit ▸ h.height_eq)
    obtain ⟨m, hm, hle, -⟩ := height_cons hn
    rcases foldlM_push hm with ⟨stack', hstack', rfl⟩ | ⟨pos, hpos⟩
    · rw [List.reverse_reverse, hstack] at hstack'
      rwa [Except.ok.inj hstack']
    · rw [List.reverse_reverse, hstack] at hpos
      cases hpos
  · intro stack hstack
    rcases foldlM_push h.height_eq with ⟨stack', hstack', hlength⟩ | ⟨pos, hpos⟩
    · rw [hstack] at hstack'
      obtain rfl := Except.ok.inj hstack'
      exact List.length_eq_one_iff.mp hlength
    · rw [hstack] at hpos
      cases hpos

/-- Items that form one tree are built into it, up to the limit on heights. -/
theorem Complete.toExpr {out : List Rpn} (h : Complete out) (pos : Position) :
    Rpn.toExpr out.reverse ≠ .error (.malformedExpression pos) := by
  rw [Rpn.toExpr, build_eq_foldlM]
  rcases foldlM_push h.height_eq with ⟨stack, hstack, hlength⟩ | ⟨pos', hpos'⟩
  · obtain ⟨operand, rfl⟩ := List.length_eq_one_iff.mp hlength
    rw [hstack]
    simp [bind, Except.bind, root]
  · rw [hpos']
    simp [bind, Except.bind]

/-- A scan finds what it looks for in its next round: an operator for a token that joins, a
parenthesis or an operator in each place of the stack, and the innermost open parenthesis for one
that closes. -/
structure Scanning.FindsAll (s : Scanning) : Prop where
  symbol : ∀ token rest, s.wanted = false → s.rest = token :: rest → token.kind.isOperator = true →
    ∃ op, Operator.ofSymbol? token.text = some op
  waiting : ∀ item ∈ s.ops, item.Fits ∧ 0 < item.arity
  opening : ∀ token rest, s.wanted = false → s.rest = token :: rest → token.kind = .rightParen → 0 < s.depth →
    ∃ moved opening kept, s.ops = moved ++ .group opening :: kept ∧ (∀ item ∈ moved, item.arity = 2) ∧
      close token.pos s.ops s.out = .ok (kept, .group opening :: (moved.reverse ++ s.out))

theorem Scanning.Balanced.findsAll {s : Scanning} (h : s.Balanced) : s.FindsAll := by
  refine ⟨?_, fun item hitem => ⟨h.ops_fit item hitem, h.waiting item hitem⟩, ?_⟩
  · intro token rest _ _ hk
    obtain ⟨sign, rfl⟩ := Grammar.Sign.exists_token_eq hk
    exact ⟨sign.op, sign.symbol_eq⟩
  · intro token rest _ _ _ hopen
    exact close_eq token.pos h.waiting (h.depth_eq ▸ hopen) s.out

end Rpn

/-- Reading an expression from any tokens never ends in a malformed expression, and so neither
does reading a source text. In each round a scan finds what it looks for on its stack of
operators, and the items that it puts out find what they look for on the stack of operands, of
which one is left at the end. -/
theorem expression_never_malformed (source : String) :
    (∀ q pos, Reader.expression q ≠ .error (.malformedExpression pos)) ∧
    (∀ pos, parse source ≠ .error (.malformedExpression pos)) ∧
    (∀ stop ts s, Rpn.Scanning.Reaches stop (.start ts) s → s.FindsAll) ∧
    (∀ stop ts items rest, Rpn.scan stop true 0 [] [] ts = .ok (items, rest) → Rpn.FindsOperands items) := by
  refine ⟨?_, ?_, ?_, ?_⟩
  · intro q pos h
    obtain ⟨ts, stop⟩ := q
    rw [Grammar.expression_apply] at h
    rcases (Rpn.Scanning.balanced_start ts).run stop with ⟨out, rest, hrun, hout⟩ | ⟨e, hrun, he⟩
    · rw [show Rpn.scan stop true 0 [] [] ts = .ok (out.reverse, rest) from hrun] at h
      cases hexpr : Rpn.toExpr out.reverse with
      | ok e => simp [hexpr, Except.map] at h
      | error e =>
        simp only [hexpr, Except.map, Except.error.injEq] at h
        exact hout.toExpr pos (h ▸ hexpr)
    · rw [show Rpn.scan stop true 0 [] [] ts = .error e from hrun] at h
      exact he pos (Except.error.inj h)
  · intro pos h
    rw [parse_eq_modules] at h
    rcases TokenQueue.modules_eq_error h with heof | ⟨seen, rest, -, he, -⟩
    · cases heof
    · exact he
  · intro stop ts s hs
    exact (hs.balanced (Rpn.Scanning.balanced_start ts)).findsAll
  · intro stop ts items rest h
    rcases (Rpn.Scanning.balanced_start ts).run stop with ⟨out, rest', hrun, hout⟩ | ⟨e, hrun, -⟩
    · rw [show Rpn.Scanning.run (.start ts) stop = .ok (items, rest) from h] at hrun
      simp only [Except.ok.injEq, Prod.mk.injEq] at hrun
      rw [hrun.1]
      exact hout.findsOperands
    · rw [show Rpn.Scanning.run (.start ts) stop = .ok (items, rest) from h] at hrun
      cases hrun

/-- A letter or a symbol in a given column. -/
def Token.inColumn (text : String) (column : Nat) : Token := ⟨text, ⟨1, column⟩⟩

/-- The state of a scan of `(a + b)` before the parenthesis that closes. -/
def Rpn.Scanning.insideGroup : Scanning :=
  ⟨false, 1, [.operator .add (.inColumn "+" 3), .group (.inColumn "(" 1)],
    [.ident (.inColumn "b" 4), .ident (.inColumn "a" 2)], [.inColumn ")" 5, .inColumn ";" 6]⟩

/-- The parenthesis that closes finds the one that opens, below the operator of the group. -/
theorem expression_group_closed :
    let ts := [Token.inColumn "(" 1, .inColumn "a" 2, .inColumn "+" 3, .inColumn "b" 4,
      .inColumn ")" 5, .inColumn ";" 6]
    Rpn.Scanning.Reaches ⟨1, 7⟩ (.start ts) .insideGroup ∧
    ∃ moved opening kept, Rpn.Scanning.insideGroup.ops = moved ++ .group opening :: kept ∧
      (∀ item ∈ moved, item.arity = 2) ∧
      Rpn.close ⟨1, 5⟩ Rpn.Scanning.insideGroup.ops Rpn.Scanning.insideGroup.out =
        .ok (kept, .group opening :: (moved.reverse ++ Rpn.Scanning.insideGroup.out)) := by
  intro ts
  have hreaches : Rpn.Scanning.Reaches ⟨1, 7⟩ (.start ts) .insideGroup := by
    unfold Rpn.Scanning.Reaches
    exact .head rfl (.head rfl (.head rfl (.head rfl .refl)))
  refine ⟨hreaches, ?_⟩
  exact ((expression_never_malformed "").2.2.1 _ _ _ hreaches).opening _ _ rfl rfl (by decide) (by decide)

end Gateware
