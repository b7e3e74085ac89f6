import Gateware.Command.Build
import Gateware.Command.Invocation
import Gateware.Command.Log
import Gateware.Json.Syntax

/- The command: what it prints, writes and returns for a command line. -/
namespace Gateware

/-- What a run of the command leaves: the exit status and the texts on standard
output and standard error. -/
structure Outcome where
  status : Nat
  stdout : String
  stderr : String
  deriving DecidableEq, Repr

namespace Command

def helpLines : List String :=
  ["Chrono: compile hardware descriptions to Verilog",
   "",
   "Usage: chrono [OPTIONS] [FILE]",
   "",
   "Arguments:",
   "  [FILE]  Path to Chrono source file",
   "",
   "Options:",
   "  -o, --output <OUTPUT>  Output path (`-` for stdout); defaults to FILE with a .v extension",
   "      --emit <EMIT>      What to produce [default: verilog] [possible values: verilog, ast, tokens]",
   "  -v, --verbose...       Increase log verbosity (-v, -vv, -vvv)",
   "  -h, --help             Print help",
   ""]

/-- The text for those who ask for help. -/
def helpText : String :=
  helpLines.foldl (fun out line => out ++ line ++ "\n") ""

def usageText : String :=
  "usage: chrono-cli <FILE> [-o OUTPUT]   (see --help)\n"

def tokenLine (t : Token) : String :=
  s!"{t.pos.render}\t{t.kind.label}\t{t.text}\n"

/-- The tokens of a source file, one in a line. -/
def listTokens (path : String) (content : Except FileError ByteArray) :
    Report BuildError String := do
  let text ← sourceText path content
  let (tokens, _) := (Lexer.ofSource text).tokens
  ⟨tokens.map .lexed, .ok (tokens.foldl (fun out t => out ++ tokenLine t) "")⟩

def listTree (path : String) (content : Except FileError ByteArray) :
    Report BuildError String := do
  let modules ← loadModules path content
  return (Module.listToJson modules).pretty ++ "\n"

def listVerilog (path : String) (content : Except FileError ByteArray) :
    Report BuildError String := do
  let modules ← loadModules path content
  (emit modules).mapError (.lowering none)

/-- The outcome of a report: the log, then the error if there is one. -/
def outcome (verbosity : Verbosity) (report : Report BuildError String) : Outcome :=
  let log := Log.render verbosity report.events
  match report.result with
  | .ok stdout => ⟨0, stdout, log⟩
  | .error e => ⟨1, "", log ++ "error: " ++ String.intercalate ": " e.chain ++ "\n"⟩

/-- Makes the product that is asked for from a file. -/
def produce {m : Type → Type} [Monad m] [Files m] (i : Invocation) (file : String) :
    m (Report BuildError String) := do
  match i.product.getD .verilog with
  | .tokens => return listTokens file (← Files.read file)
  | .tree => return listTree file (← Files.read file)
  | .verilog =>
    let output := i.output.getD (outputPath file)
    if output = "-" then return listVerilog file (← Files.read file)
    else
      let report ← compileFile file output
      return ⟨report.events, report.result.map fun _ => ""⟩

/-- Runs a command line. -/
def run {m : Type → Type} [Monad m] [Files m] (args : List String) : m Outcome := do
  match Invocation.ofArguments? args with
  | none => return ⟨2, "", usageText⟩
  | some i =>
    if i.help then return ⟨1, "", helpText⟩
    else
      match i.file with
      | none => return ⟨1, "", usageText⟩
      | some file => return outcome i.verbosity (← produce i file)

end Command

end Gateware
