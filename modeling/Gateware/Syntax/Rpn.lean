import Gateware.Expr
import Gateware.Syntax.Reader

/- Expressions, read by way of reverse Polish order. `Rpn.read` takes the tokens
   of one expression from the queue and puts each operator after its operands:
   operators wait on a stack until one arrives that does not bind tighter. A
   group leaves its opening parenthesis behind as a mark after its last item.
   `Rpn.build` makes the tree with a stack of finished operands. -/
namespace Gateware

inductive Rpn where
  /-- An identifier. -/
  | ident (token : Token)
  /-- A literal. -/
  | literal (token : Token)
  /-- The operand before this mark was in parentheses and begins at the mark. -/
  | group (token : Token)
  /-- An operator that joins the two operands before it. -/
  | operator (op : Operator) (token : Token)
  deriving DecidableEq, Repr

namespace Rpn

/-- The token of an item. -/
def token : Rpn → Token
  | .ident t | .literal t | .group t | .operator _ t => t

def isGroup : Rpn → Bool
  | .group _ => true
  | _ => false

/-- Moves the operators that bind at least as tightly as `incoming` from the
stack `ops` to the output, which has its latest item first. A group stops it. -/
def yield (incoming : Nat) : (ops out : List Rpn) → List Rpn × List Rpn
  | .operator op t :: ops, out =>
    if op.precedence < incoming then (.operator op t :: ops, out)
    else yield incoming ops (.operator op t :: out)
  | ops, out => (ops, out)

/-- Moves the operators of the innermost group to the output, then its mark. -/
def close (pos : Position) : (ops out : List Rpn) → Except SyntaxError (List Rpn × List Rpn)
  | [], _ => .error (.malformedExpression pos)
  | .group t :: ops, out => .ok (ops, .group t :: out)
  | item :: ops, out => close pos ops (item :: out)

/-- Moves all operators to the output. A group that is still open lacks its
closing parenthesis, and `received` stands in its place. -/
def finish (received : Token) : (ops out : List Rpn) → Except SyntaxError (List Rpn)
  | [], out => .ok out.reverse
  | .group _ :: _, _ => .error (.unexpected .group received [.rightParen])
  | item :: ops, out => finish received ops (item :: out)

/-- Reads one expression. `wanted` says that an operand has to come next, `depth`
counts the open groups, `ops` is the stack of waiting operators and `out` the
output, its latest item first. After an operand the expression goes on with an
operator or with the end of an open group, and ends before any other token. -/
def scan (stop : Position) (wanted : Bool) (depth : Nat) (ops out : List Rpn) :
    List Token → Except SyntaxError (List Rpn × List Token)
  | [] => .error (.endOfInput ⟨stop⟩)
  | token :: rest =>
    if wanted then
      match token.kind with
      | .identifier => scan stop false depth ops (.ident token :: out) rest
      | .literal => scan stop false depth ops (.literal token :: out) rest
      | .leftParen => scan stop true (depth + 1) (.group token :: ops) out rest
      | _ => .error (.unexpected .expression token [.identifier, .literal, .leftParen])
    else if token.kind.isOperator then
      match Operator.ofSymbol? token.text with
      | none => .error (.malformedExpression token.pos)
      | some op =>
        let (ops, out) := yield op.precedence ops out
        scan stop true depth (.operator op token :: ops) out rest
    else if token.kind = .rightParen ∧ 0 < depth then
      match close token.pos ops out with
      | .error e => .error e
      | .ok (ops, out) => scan stop false (depth - 1) ops out rest
    else
      match finish token ops out with
      | .error e => .error e
      | .ok items => .ok (items, token :: rest)

/-- Takes one expression from the queue, in reverse Polish order. -/
def read : Reader (List Rpn) := fun q =>
  match scan q.stop true 0 [] [] q.pending with
  | .error e => .error e
  | .ok (items, rest) => .ok (items, ⟨rest, q.stop⟩)

/-- The most operators on a path from the root of an expression to a leaf. -/
def maxHeight : Nat := 256

/-- A finished part of a tree: where it begins, parentheses included, and the
most operators on a path to a leaf. -/
structure Operand where
  expr : Expr
  lead : Position
  height : Nat
  deriving Repr

/-- Makes the tree, on a stack of finished operands. `pos` is where the
expression begins. -/
def build (pos : Position) : List Operand → List Rpn → Except SyntaxError Expr
  | [root], [] => .ok root.expr
  | _, [] => .error (.malformedExpression pos)
  | stack, .ident t :: items => build pos (⟨.ident ⟨t.text, t.pos⟩, t.pos, 0⟩ :: stack) items
  | stack, .literal t :: items => build pos (⟨.literal ⟨t.text, t.pos⟩, t.pos, 0⟩ :: stack) items
  | inner :: stack, .group t :: items => build pos ({ inner with lead := t.pos } :: stack) items
  | [], .group t :: _ => .error (.malformedExpression t.pos)
  | rhs :: lhs :: stack, .operator op t :: items =>
    let height := max lhs.height rhs.height + 1
    if maxHeight < height then .error (.tooDeep t.pos)
    else
      let joined := Expr.binary op lhs.expr rhs.expr lhs.lead
      build pos (⟨joined, lhs.lead, height⟩ :: stack) items
  | _, .operator _ t :: _ => .error (.malformedExpression t.pos)

def toExpr (items : List Rpn) : Except SyntaxError Expr :=
  build ((items.head?.map fun item => item.token.pos).getD Position.start) [] items

end Rpn

namespace Reader

def expression : Reader Expr := do
  let items ← Rpn.read
  Rpn.toExpr items

end Reader

end Gateware
