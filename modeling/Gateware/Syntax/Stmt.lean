import Gateware.Stmt
import Gateware.Syntax.Rpn
import Gateware.Syntax.Signal

/- Reading statements. A statement reader for one level of nesting is built from
   the reader for the level below it, so `Reader.stmt` goes down by one with
   every level and the limit on nesting is the length of that descent. -/
namespace Gateware.Reader

/-- Statements may be nested this deep. -/
def maxNesting : Nat := 256

/-- Reads statements up to a closing brace. Each of them takes a token, so there
are no more rounds than tokens in `budget`; the statements `read` so far come
latest first. -/
def stmtsUntilBrace (stmt : Reader Stmt) : (budget : List Token) → (read : List Stmt) →
    Reader (List Stmt)
  | budget, read => do
    if ← nextIs .rightBrace then return read.reverse
    else match budget with
      | [] => refuse .block [.rightBrace]
      | _ :: budget => stmtsUntilBrace stmt budget ((← stmt) :: read)

def block (stmt : Reader Stmt) : Reader Block := do
  let opening ← expect .leftBrace .block
  let stmts ← stmtsUntilBrace stmt (← pending) []
  let closing ← expect .rightBrace .block
  return ⟨stmts, opening.pos, closing.pos⟩

def assignment : Reader Stmt := do
  let lhs ← ident .assignment
  let token ← expect .assign .assignment
  let kind := if token.text = "<-" then AssignKind.registered else AssignKind.plain
  let rhs ← expression
  let _ ← expect .endOfStatement .assignment
  return .assign kind lhs rhs lhs.pos

/-- Reads what follows `else`: another condition or a block. -/
def alternative (stmt : Reader Stmt) : Reader (Option Stmt) := do
  match ← accept .elseWord with
  | none => return none
  | some _ =>
    match (← peek).kind with
    | .ifWord | .leftBrace => some <$> stmt
    | _ => refuse .alternative [.ifWord, .leftBrace]

/-- Reads a condition, the statement it guards and the alternative. -/
def conditional (stmt : Reader Stmt) : Reader Stmt := do
  let word ← expect .ifWord .conditional
  let cond ← expression
  let body ← stmt
  let alternative ← alternative stmt
  return .conditional cond body alternative word.pos

def declaration : Reader Stmt := do
  let first ← peek
  let signal ← signal .declaration
  let _ ← expect .endOfStatement .declaration
  return .decl (.signal signal) first.pos

/-- Reads a statement that runs on the edge of a clock. -/
def sequence (stmt : Reader Stmt) : Reader Stmt := do
  let first ← peek
  let clock ← clock
  let inner ← stmt
  return .sequence clock inner first.pos

/-- Reads a statement with at most the given number of levels. -/
def stmt : (levels : Nat) → Reader Stmt
  | 0 => do fail (.tooDeep (← peek).pos)
  | levels + 1 => do
    match (← peek).kind with
    | .identifier => assignment
    | .ifWord => conditional (stmt levels)
    | .leftBrace => Stmt.block <$> block (stmt levels)
    | .storage => declaration
    | .atMark => sequence (stmt levels)
    | _ => refuse .statement [.identifier, .ifWord, .leftBrace, .storage, .atMark]

end Gateware.Reader
