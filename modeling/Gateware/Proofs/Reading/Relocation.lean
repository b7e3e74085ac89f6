import Gateware.Proofs.Reading.Files

/- Positions play no part in reading.

   A change of positions moves tokens, trees and errors to other places and leaves everything else
   as it is. This file

   1. defines the change on everything that has positions (`Token.relocate` to `Decl.relocate`,
      `SyntaxError.relocate`);
   2. says of a reader that from moved tokens it gives the moved result (`Moves`): no decision
      depends on where a token stands, and every position in a tree or an error is that of a token
      or the end of the text;
   3. proves that steps in a row follow a move if each of them does (`Moves.bind`), and from it the
      same of all readers, statements by induction on the levels (`moves_stmt`);
   4. concludes that a file whose tokens are moved is read as the moved file
      (`TokenQueue.modules_relocate`).

   A change of positions is any function. It need not keep their order, and it may move all of them
   to one place. -/
namespace Gateware

/-! ## Syntax at other places -/

section
variable (σ : Position → Position)

def Token.relocate (t : Token) : Token := ⟨t.text, σ t.pos⟩

@[simp] theorem Token.kind_relocate (t : Token) : (t.relocate σ).kind = t.kind := rfl

@[simp] theorem Token.text_relocate (t : Token) : (t.relocate σ).text = t.text := rfl

def Ident.relocate (id : Ident) : Ident := ⟨id.name, σ id.pos⟩

def Literal.relocate (lit : Literal) : Literal := ⟨lit.value, σ lit.pos⟩

mutual

def Expr.relocate : Expr → Expr
  | .malformed pos => .malformed (σ pos)
  | .ident id => .ident (id.relocate σ)
  | .literal lit => .literal (lit.relocate σ)
  | .paren inner start stop => .paren inner.relocate (σ start) (σ stop)
  | .call func args pos => .call (func.relocate σ) (Expr.relocateAll args) (σ pos)
  | .binary op lhs rhs pos => .binary op lhs.relocate rhs.relocate (σ pos)

def Expr.relocateAll : List Expr → List Expr
  | [] => []
  | e :: es => e.relocate :: Expr.relocateAll es

end

def Clock.relocate (c : Clock) : Clock := ⟨c.name.relocate σ, c.negated⟩

def Signal.relocate (s : Signal) : Signal := ⟨s.name.relocate σ, s.width, s.storage, s.clock.map (Clock.relocate σ)⟩

def Port.relocate (p : Port) : Port := ⟨p.signal.relocate σ, p.direction⟩

def NamedValue.relocate (v : NamedValue) : NamedValue := ⟨v.name.relocate σ, v.type, v.value.relocate σ⟩

mutual

def Stmt.relocate : Stmt → Stmt
  | .malformed pos => .malformed (σ pos)
  | .decl d pos => .decl (Decl.relocate d) (σ pos)
  | .expr e pos => .expr (e.relocate σ) (σ pos)
  | .assign kind lhs rhs pos => .assign kind (lhs.relocate σ) (rhs.relocate σ) (σ pos)
  | .sequence clock inner pos => .sequence (clock.relocate σ) inner.relocate (σ pos)
  | .result value pos => .result (value.relocate σ) (σ pos)
  | .block b => .block (Block.relocate b)
  | .conditional cond body alternative pos =>
    .conditional (cond.relocate σ) body.relocate (Stmt.relocateOption alternative) (σ pos)
  | .loop cond body pos => .loop (cond.relocate σ) body.relocate (σ pos)

def Stmt.relocateOption : Option Stmt → Option Stmt
  | none => none
  | some s => some s.relocate

def Stmt.relocateAll : List Stmt → List Stmt
  | [] => []
  | s :: ss => s.relocate :: Stmt.relocateAll ss

def Block.relocate : Block → Block
  | ⟨stmts, start, stop⟩ => ⟨Stmt.relocateAll stmts, σ start, σ stop⟩

def Module.relocate : Module → Module
  | ⟨name, ports, body⟩ => ⟨name.relocate σ, ports.map (Port.relocate σ), Block.relocate body⟩

def Decl.relocate : Decl → Decl
  | .value v => .value (v.relocate σ)
  | .signal s => .signal (s.relocate σ)
  | .port p => .port (p.relocate σ)
  | .submodule m => .submodule (Module.relocate m)

end

def SyntaxError.relocate : SyntaxError → SyntaxError
  | .endOfInput e => .endOfInput ⟨σ e.pos⟩
  | .unexpected construct received expected => .unexpected construct (received.relocate σ) expected
  | .malformedWidth token => .malformedWidth (token.relocate σ)
  | .malformedExpression pos => .malformedExpression (σ pos)
  | .tooDeep pos => .tooDeep (σ pos)

def TokenQueue.relocate (q : TokenQueue) : TokenQueue := ⟨q.pending.map (Token.relocate σ), σ q.stop⟩

/-- A result whose value is moved in its own way, and whose error is moved. -/
def moved {α β : Type} (m : α → β) : Except SyntaxError α → Except SyntaxError β
  | .ok a => .ok (m a)
  | .error e => .error (e.relocate σ)

end

section
variable {σ : Position → Position}

theorem Stmt.relocateAll_eq_map (ss : List Stmt) : Stmt.relocateAll σ ss = ss.map (Stmt.relocate σ) := by
  induction ss with
  | nil => rfl
  | cons s ss ih => rw [Stmt.relocateAll, ih, List.map_cons]

theorem Stmt.relocateOption_eq_map (s : Option Stmt) : Stmt.relocateOption σ s = s.map (Stmt.relocate σ) := by
  cases s <;> rfl

end

/-! ## Expressions -/

namespace Rpn

def relocate (σ : Position → Position) : Rpn → Rpn
  | .ident t => .ident (t.relocate σ)
  | .literal t => .literal (t.relocate σ)
  | .group t => .group (t.relocate σ)
  | .operator op t => .operator op (t.relocate σ)

def Operand.relocate (σ : Position → Position) (o : Operand) : Operand := ⟨o.expr.relocate σ, σ o.lead, o.height⟩

variable {σ : Position → Position}

theorem yield_relocate (incoming : Nat) (ops out : List Rpn) :
    yield incoming (ops.map (relocate σ)) (out.map (relocate σ)) =
      (yield incoming ops out).map (List.map (relocate σ)) (List.map (relocate σ)) := by
  induction ops generalizing out with
  | nil => rfl
  | cons item ops ih =>
    cases item with
    | ident t => rfl
    | literal t => rfl
    | group t => rfl
    | operator op t =>
      simp only [List.map_cons, relocate, yield]
      split
      · rfl
      · exact ih (.operator op t :: out)

theorem close_relocate (pos : Position) (ops out : List Rpn) :
    close (σ pos) (ops.map (relocate σ)) (out.map (relocate σ)) =
      moved σ (Prod.map (List.map (relocate σ)) (List.map (relocate σ))) (close pos ops out) := by
  induction ops generalizing out with
  | nil => rfl
  | cons item ops ih =>
    cases item with
    | ident t => exact ih (.ident t :: out)
    | literal t => exact ih (.literal t :: out)
    | group t => rfl
    | operator op t => exact ih (.operator op t :: out)

theorem finish_relocate (received : Token) (ops out : List Rpn) :
    finish (received.relocate σ) (ops.map (relocate σ)) (out.map (relocate σ)) =
      moved σ (List.map (relocate σ)) (finish received ops out) := by
  induction ops generalizing out with
  | nil => simp [finish, moved]
  | cons item ops ih =>
    cases item with
    | ident t => exact ih (.ident t :: out)
    | literal t => exact ih (.literal t :: out)
    | group t => rfl
    | operator op t => exact ih (.operator op t :: out)

theorem scan_relocate (σ : Position → Position) (stop : Position) (wanted : Bool) (depth : Nat) (ops out : List Rpn)
    (ts : List Token) :
    scan (σ stop) wanted depth (ops.map (relocate σ)) (out.map (relocate σ)) (ts.map (Token.relocate σ)) =
      moved σ (Prod.map (List.map (relocate σ)) (List.map (Token.relocate σ))) (scan stop wanted depth ops out ts) := by
  induction ts generalizing wanted depth ops out with
  | nil => rfl
  | cons t ts ih =>
    rw [List.map_cons, scan, scan]
    cases wanted with
    | true =>
      simp only [if_true, Token.kind_relocate]
      split
      · exact ih false depth ops (.ident t :: out)
      · exact ih false depth ops (.literal t :: out)
      · exact ih true (depth + 1) (.group t :: ops) out
      · rfl
    | false =>
      have hkind : (t.relocate σ).kind = t.kind := rfl
      rw [if_neg Bool.false_ne_true, if_neg Bool.false_ne_true, Token.text_relocate, hkind]
      by_cases hoperator : t.kind.isOperator = true
      · rw [if_pos hoperator, if_pos hoperator]
        cases Operator.ofSymbol? t.text with
        | none => rfl
        | some op =>
          simp only [yield_relocate]
          exact ih true depth (.operator op t :: (yield op.precedence ops out).1) (yield op.precedence ops out).2
      · rw [if_neg hoperator, if_neg hoperator]
        by_cases hclosing : t.kind = .rightParen ∧ 0 < depth
        · rw [if_pos hclosing, if_pos hclosing, Token.relocate, close_relocate]
          cases close t.pos ops out with
          | error e => rfl
          | ok result => exact ih false (depth - 1) result.1 result.2
        · rw [if_neg hclosing, if_neg hclosing, finish_relocate]
          cases finish t ops out <;> rfl

theorem build_relocate (pos : Position) (stack : List Operand) (items : List Rpn) :
    build (σ pos) (stack.map (Operand.relocate σ)) (items.map (relocate σ)) =
      moved σ (Expr.relocate σ) (build pos stack items) := by
  induction items generalizing stack with
  | nil =>
    cases stack with
    | nil => rfl
    | cons root stack =>
      cases stack with
      | nil => rfl
      | cons other stack => rfl
  | cons item items ih =>
    cases item with
    | ident t =>
      simp only [List.map_cons, relocate, build]
      exact ih (⟨.ident ⟨t.text, t.pos⟩, t.pos, 0⟩ :: stack)
    | literal t =>
      simp only [List.map_cons, relocate, build]
      exact ih (⟨.literal ⟨t.text, t.pos⟩, t.pos, 0⟩ :: stack)
    | group t =>
      cases stack with
      | nil => rfl
      | cons inner stack =>
        simp only [List.map_cons, relocate, build]
        exact ih ({ inner with lead := t.pos } :: stack)
    | operator op t =>
      cases stack with
      | nil => rfl
      | cons rhs stack =>
        cases stack with
        | nil => rfl
        | cons lhs stack =>
          simp only [List.map_cons, relocate, build, Operand.relocate]
          split
          · rfl
          · exact ih (⟨.binary op lhs.expr rhs.expr lhs.lead, lhs.lead, max lhs.height rhs.height + 1⟩ :: stack)

theorem toExpr_relocate {items : List Rpn} (h : items ≠ []) :
    toExpr (items.map (relocate σ)) = moved σ (Expr.relocate σ) (toExpr items) := by
  cases items with
  | nil => exact absurd rfl h
  | cons item items =>
    have hpos : (item.relocate σ).token.pos = σ item.token.pos := by cases item <;> rfl
    rw [toExpr, toExpr, ← build_relocate]
    simp [hpos]

end Rpn

/-! ## Readers -/

namespace Reader
open Grammar
variable {α α' β β' : Type} {σ : Position → Position} {m : α → α'} {n : β → β'}

/-- From moved tokens the second reader gives what the first one gives, moved. -/
def Moves (σ : Position → Position) (m : α → α') (r : Reader α) (r' : Reader α') : Prop :=
  ∀ q, r' (q.relocate σ) = moved σ (Prod.map m (TokenQueue.relocate σ)) (r q)

theorem Moves.bind {x : Reader α} {x' : Reader α'} {f : α → Reader β} {f' : α' → Reader β'} (hx : Moves σ m x x')
    (hf : ∀ a, Moves σ n (f a) (f' (m a))) : Moves σ n (x >>= f) (x' >>= f') := by
  intro q
  have hmoved := hx q
  cases h : x q with
  | error e =>
    rw [h] at hmoved
    rw [bind_of_error h, bind_of_error hmoved]
    rfl
  | ok result =>
    obtain ⟨a, q₁⟩ := result
    rw [h] at hmoved
    rw [bind_of_ok h, bind_of_ok hmoved]
    exact hf a q₁

theorem moves_pure (a : α) : Moves σ m (pure a) (pure (m a)) := fun _ => rfl

theorem moves_pure_of_eq {a : α} {b : α'} (h : b = m a) : Moves σ m (pure a) (pure b) := by
  subst h
  exact moves_pure a

theorem moves_fail (e : SyntaxError) : Moves σ m (fail e) (fail (e.relocate σ)) := fun _ => rfl

theorem Moves.map {x : Reader α} {x' : Reader α'} {f : α → β} {f' : α' → β'} (hx : Moves σ m x x')
    (hf : ∀ a, f' (m a) = n (f a)) : Moves σ n (f <$> x) (f' <$> x') := by
  have hreturn (a : α) : Moves σ n (pure (f a)) (pure (f' (m a))) := moves_pure_of_eq (hf a)
  show Moves σ n (x >>= fun a => pure (f a)) (x' >>= fun a => pure (f' a))
  exact hx.bind hreturn

theorem moves_peek : Moves σ (Token.relocate σ) peek peek := by
  intro q
  obtain ⟨ts, stop⟩ := q
  cases ts <;> rfl

theorem moves_next : Moves σ (Token.relocate σ) next next := by
  intro q
  obtain ⟨ts, stop⟩ := q
  cases ts <;> rfl

theorem moves_pending : Moves σ (List.map (Token.relocate σ)) pending pending := fun _ => rfl

theorem moves_nextIs (kind : Token.Kind) : Moves σ id (nextIs kind) (nextIs kind) :=
  moves_peek.bind fun _ => moves_pure _

theorem moves_accept (kind : Token.Kind) : Moves σ (Option.map (Token.relocate σ)) (accept kind) (accept kind) := by
  apply (moves_nextIs kind).bind
  intro found
  cases found with
  | false => exact moves_pure none
  | true => exact moves_next.bind fun t => moves_pure (some t)

theorem moves_refuse (construct : Construct) (expected : List Token.Kind) :
    Moves σ m (refuse construct expected) (refuse construct expected) :=
  moves_next.bind fun t => moves_fail (.unexpected construct t expected)

theorem moves_expect (kind : Token.Kind) (construct : Construct) :
    Moves σ (Token.relocate σ) (expect kind construct) (expect kind construct) := by
  apply moves_next.bind
  intro t
  rw [Token.kind_relocate]
  split
  · exact moves_pure t
  · exact moves_fail (.unexpected construct t [kind])

theorem moves_expression : Moves σ (Expr.relocate σ) expression expression := by
  intro q
  obtain ⟨ts, stop⟩ := q
  have hscan := Rpn.scan_relocate σ stop true 0 [] [] ts
  show expression ⟨ts.map (Token.relocate σ), σ stop⟩ = _
  rw [expression_apply, expression_apply]
  simp only [List.map_nil] at hscan
  rw [hscan]
  cases h : Rpn.scan stop true 0 [] [] ts with
  | error e => rfl
  | ok result =>
    obtain ⟨items, rest⟩ := result
    -- an expression has items, and the first of them says where it begins
    obtain ⟨t, -, -, -, rfl⟩ := scan_eq_ok_iff.mp h
    have hitems : t.rpn ≠ [] := by cases t <;> simp [Term.rpn]
    show (Rpn.toExpr (t.rpn.map (Rpn.relocate σ))).map _ = moved σ _ ((Rpn.toExpr t.rpn).map _)
    rw [Rpn.toExpr_relocate hitems]
    cases Rpn.toExpr t.rpn <;> rfl

/-! ## Signals -/

theorem moves_ident (construct : Construct) : Moves σ (Ident.relocate σ) (ident construct) (ident construct) :=
  (moves_expect .identifier construct).bind fun t => moves_pure (⟨t.text, t.pos⟩ : Ident)

theorem moves_width : Moves σ id width width := by
  apply (moves_accept .leftBracket).bind
  intro opening
  cases opening with
  | none => exact moves_pure 1
  | some t =>
    apply (moves_expect .literal .bitWidth).bind
    intro literal
    rw [Token.text_relocate]
    cases bitWidth? literal.text with
    | none => exact moves_fail (.malformedWidth literal)
    | some w => exact (moves_expect .rightBracket .bitWidth).bind fun _ => moves_pure w

theorem moves_clock : Moves σ (Clock.relocate σ) clock clock := by
  apply (moves_expect .atMark .clock).bind
  intro _
  apply moves_next.bind
  intro t
  rw [Token.kind_relocate]
  split
  · exact (moves_ident .clock).bind fun name => moves_pure (⟨name, true⟩ : Clock)
  · exact moves_pure (⟨⟨t.text, t.pos⟩, false⟩ : Clock)
  · exact moves_fail (.unexpected .clock t [.bang, .identifier])

/-- The storage is told by the text of a token. -/
theorem storage_relocate (σ : Position → Position) (word : Option Token) :
    (match word.map (Token.relocate σ) with
      | some ⟨"reg", _⟩ => Storage.reg
      | _ => Storage.wire) =
    match word with
      | some ⟨"reg", _⟩ => Storage.reg
      | _ => Storage.wire := by
  cases word with
  | none => rfl
  | some t =>
    obtain ⟨text, pos⟩ := t
    by_cases htext : text = "reg"
    · subst htext
      rfl
    · simp [Token.relocate, htext]

theorem moves_signal (construct : Construct) : Moves σ (Signal.relocate σ) (signal construct) (signal construct) := by
  apply (moves_accept .storage).bind
  intro storage
  apply moves_width.bind
  intro width
  apply (moves_ident construct).bind
  intro name
  have hsignal (c : Option Clock) := congrArg
    (fun s => Signal.mk (name.relocate σ) width s (c.map (Clock.relocate σ))) (storage_relocate σ storage)
  apply (moves_nextIs .atMark).bind
  intro clocked
  cases clocked with
  | false => exact (moves_pure (m := Option.map (Clock.relocate σ)) none).bind fun c => moves_pure_of_eq (hsignal c)
  | true =>
    exact (moves_clock.map (n := Option.map (Clock.relocate σ)) fun _ => rfl).bind fun c =>
      moves_pure_of_eq (hsignal c)

theorem moves_port : Moves σ (Port.relocate σ) port port := by
  rw [port_eq]
  apply moves_next.bind
  intro t
  rw [Token.kind_relocate]
  split
  · exact (moves_signal .port).bind fun s => moves_pure (⟨s, PortTree.directionOf t.text⟩ : Port)
  · exact moves_fail (.unexpected .port t [.direction])

/-! ## Statements and modules -/

/-- What was read latest first is given in order. -/
theorem moves_reverse (read : List α) : Moves σ (List.map m) (pure read.reverse) (pure (read.map m).reverse) :=
  moves_pure_of_eq List.map_reverse.symm

theorem moves_stmtsUntilBrace {r : Reader Stmt} (hr : Moves σ (Stmt.relocate σ) r r) (budget : List Token)
    (read : List Stmt) :
    Moves σ (List.map (Stmt.relocate σ)) (stmtsUntilBrace r budget read)
      (stmtsUntilBrace r (budget.map (Token.relocate σ)) (read.map (Stmt.relocate σ))) := by
  induction budget generalizing read with
  | nil =>
    unfold stmtsUntilBrace
    apply (moves_nextIs .rightBrace).bind
    intro closed
    cases closed with
    | false => exact moves_refuse .block [.rightBrace]
    | true => exact moves_reverse read
  | cons t budget ih =>
    unfold stmtsUntilBrace
    apply (moves_nextIs .rightBrace).bind
    intro closed
    cases closed with
    | false => exact hr.bind fun s => ih (s :: read)
    | true => exact moves_reverse read

theorem moves_block {r : Reader Stmt} (hr : Moves σ (Stmt.relocate σ) r r) :
    Moves σ (Block.relocate σ) (block r) (block r) := by
  apply (moves_expect .leftBrace .block).bind
  intro opening
  apply moves_pending.bind
  intro budget
  apply (moves_stmtsUntilBrace hr budget []).bind
  intro stmts
  apply (moves_expect .rightBrace .block).bind
  intro closing
  rw [← Stmt.relocateAll_eq_map]
  exact moves_pure (⟨stmts, opening.pos, closing.pos⟩ : Block)

theorem moves_assignment : Moves σ (Stmt.relocate σ) assignment assignment := by
  apply (moves_ident .assignment).bind
  intro lhs
  apply (moves_expect .assign .assignment).bind
  intro symbol
  apply moves_expression.bind
  intro rhs
  apply (moves_expect .endOfStatement .assignment).bind
  intro _
  exact moves_pure (Stmt.assign (if symbol.text = "<-" then .registered else .plain) lhs rhs lhs.pos)

theorem moves_alternative {r : Reader Stmt} (hr : Moves σ (Stmt.relocate σ) r r) :
    Moves σ (Option.map (Stmt.relocate σ)) (alternative r) (alternative r) := by
  have hread : Moves σ (Option.map (Stmt.relocate σ)) (some <$> r) (some <$> r) := hr.map fun _ => rfl
  apply (moves_accept .elseWord).bind
  intro other
  cases other with
  | none => exact moves_pure none
  | some t =>
    apply moves_peek.bind
    intro first
    rw [Token.kind_relocate]
    split
    · exact hread
    · exact hread
    · exact moves_refuse .alternative [.ifWord, .leftBrace]

theorem moves_conditional {r : Reader Stmt} (hr : Moves σ (Stmt.relocate σ) r r) :
    Moves σ (Stmt.relocate σ) (conditional r) (conditional r) := by
  apply (moves_expect .ifWord .conditional).bind
  intro word
  apply moves_expression.bind
  intro cond
  apply hr.bind
  intro body
  apply (moves_alternative hr).bind
  intro alternative
  rw [← Stmt.relocateOption_eq_map]
  exact moves_pure (Stmt.conditional cond body alternative word.pos)

theorem moves_declaration : Moves σ (Stmt.relocate σ) declaration declaration := by
  apply moves_peek.bind
  intro first
  apply (moves_signal .declaration).bind
  intro signal
  apply (moves_expect .endOfStatement .declaration).bind
  intro _
  exact moves_pure (Stmt.decl (.signal signal) first.pos)

theorem moves_sequence {r : Reader Stmt} (hr : Moves σ (Stmt.relocate σ) r r) :
    Moves σ (Stmt.relocate σ) (sequence r) (sequence r) := by
  apply moves_peek.bind
  intro first
  apply moves_clock.bind
  intro clock
  exact hr.bind fun inner => moves_pure (Stmt.sequence clock inner first.pos)

theorem moves_stmt (levels : Nat) : Moves σ (Stmt.relocate σ) (stmt levels) (stmt levels) := by
  induction levels with
  | zero => exact moves_peek.bind fun t => moves_fail (.tooDeep t.pos)
  | succ levels ih =>
    apply moves_peek.bind
    intro t
    rw [Token.kind_relocate]
    cases t.kind with
    | identifier => exact moves_assignment
    | ifWord => exact moves_conditional ih
    | leftBrace => exact (moves_block ih).map fun _ => rfl
    | storage => exact moves_declaration
    | atMark => exact moves_sequence ih
    | _ => exact moves_refuse .statement [.identifier, .ifWord, .leftBrace, .storage, .atMark]

theorem moves_portsUntilParen (budget : List Token) (read : List Port) :
    Moves σ (List.map (Port.relocate σ)) (portsUntilParen budget read)
      (portsUntilParen (budget.map (Token.relocate σ)) (read.map (Port.relocate σ))) := by
  induction budget generalizing read with
  | nil =>
    unfold portsUntilParen
    apply moves_port.bind
    intro p
    apply moves_next.bind
    intro t
    rw [Token.kind_relocate]
    split
    · exact moves_reverse (p :: read)
    · exact moves_refuse .port [.direction]
    · exact moves_fail (.unexpected .portList t [.comma, .rightParen])
  | cons _ budget ih =>
    unfold portsUntilParen
    apply moves_port.bind
    intro p
    apply moves_next.bind
    intro t
    rw [Token.kind_relocate]
    split
    · exact moves_reverse (p :: read)
    · exact ih (p :: read)
    · exact moves_fail (.unexpected .portList t [.comma, .rightParen])

theorem moves_ports : Moves σ (List.map (Port.relocate σ)) ports ports := by
  apply (moves_expect .leftParen .portList).bind
  intro opening
  apply (moves_accept .rightParen).bind
  intro closing
  cases closing with
  | some t => exact moves_pure []
  | none => exact moves_pending.bind fun budget => moves_portsUntilParen budget []

theorem moves_module : Moves σ (Module.relocate σ) module module := by
  apply (moves_ident .moduleName).bind
  intro name
  apply moves_ports.bind
  intro ports
  exact (moves_block (moves_stmt maxNesting)).bind fun body => moves_pure (⟨name, ports, body⟩ : Module)

end Reader

/-- A file whose tokens are moved is read as the moved file. -/
theorem TokenQueue.modules_relocate (σ : Position → Position) (q : TokenQueue) :
    (q.relocate σ).modules = moved σ (List.map (Module.relocate σ)) q.modules := by
  -- each module takes tokens, so the induction is on how many there are
  induction hlength : q.pending.length using Nat.strong_induction_on generalizing q with
  | _ n ih =>
    subst hlength
    have hmoves : Reader.module (q.relocate σ) = _ := Reader.moves_module q
    by_cases hq : q.pending = []
    · obtain ⟨ts, stop⟩ := q
      obtain rfl : ts = [] := hq
      rfl
    · have hq' : (q.relocate σ).pending ≠ [] := by simpa [relocate] using hq
      cases hm : Reader.module q with
      | error e =>
        rw [hm] at hmoves
        rw [modules_of_error hq hm, modules_of_error hq' hmoves]
        rfl
      | ok result =>
        obtain ⟨m, q₁⟩ := result
        rw [hm] at hmoves
        rw [modules_of_ok hm, modules_of_ok hmoves, ih _ (Reader.consumes_module hm) q₁ rfl]
        cases q₁.modules <;> rfl

end Gateware
