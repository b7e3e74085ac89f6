import Gateware.Lowering.Module
import Gateware.Syntax.Journal

/- From source text to Verilog text. -/
namespace Gateware

inductive CompileError where
  | reading (e : SyntaxError)
  | lowering (e : LoweringError)
  deriving DecidableEq, Repr

/-- The wording of an error, with the failure behind it where there is one. -/
def CompileError.chain : CompileError → List String
  | .reading e => e.message :: e.cause.toList
  | .lowering e => [e.message]

/-- The Verilog text of a source text. -/
def compile (source : String) : Except CompileError String :=
  match parse source with
  | .error e => .error (.reading e)
  | .ok modules => (emit modules).result.mapError .lowering

/-- The events of reading a file, and its modules. -/
def parseReport (file source : String) : Report SyntaxError (List Module) :=
  ⟨Reading.journal file source, parse source⟩

/-- The Verilog text of a file, with a record of how it came about. -/
def compileReport (file source : String) : Report CompileError String := do
  let modules ← (parseReport file source).mapError .reading
  (emit modules).mapError .lowering

end Gateware
