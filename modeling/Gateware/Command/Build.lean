import Gateware.Compile
import Gateware.Files.Tree

/- From files to files. A source file is read as text, up to a limit on its size,
   then its modules are read and lowered, and only then the output is written. An
   error says at which of these steps it arose. -/
namespace Gateware

/-- Source files may have this many bytes. -/
def maxSourceSize : Nat := 1000000

inductive BuildError where
  /-- The source file cannot be read. -/
  | unreadable (path : String) (e : FileError)
  /-- The source file has more bytes than the limit. -/
  | tooLarge (bytes : Nat)
  /-- The source text is not a list of modules. -/
  | reading (path : String) (e : SyntaxError)
  /-- A module has no Verilog form; without a path the output is not a file. -/
  | lowering (path : Option String) (e : LoweringError)
  /-- The output file cannot be written. -/
  | unwritable (path : String) (e : FileError)
  deriving DecidableEq, Repr

namespace BuildError

/-- The wording of an error, from the step that failed to the failure behind it. -/
def chain : BuildError → List String
  | .unreadable path e => [s!"failed to read '{path}'", e.message]
  | .tooLarge bytes =>
    [s!"source file exceeds {maxSourceSize / 1000000}MB limit ({bytes} bytes)"]
  | .reading path e => s!"failed to parse '{path}'" :: (CompileError.reading e).chain
  | .lowering (some path) e => [s!"failed to generate Verilog for '{path}'", e.message]
  | .lowering none e => [e.message]
  | .unwritable path e => [s!"failed to write '{path}'", e.message]

/-- The wording of the step that failed. -/
def message (e : BuildError) : String :=
  e.chain.headD ""

end BuildError

def sourceText (path : String) (content : Except FileError ByteArray) :
    Except BuildError String :=
  match content with
  | .error e => .error (.unreadable path e)
  | .ok bytes =>
    match String.fromUTF8? bytes with
    | none => .error (.unreadable path .notText)
    | some text => if bytes.size > maxSourceSize then .error (.tooLarge bytes.size) else .ok text

def loadModules (path : String) (content : Except FileError ByteArray) :
    Report BuildError (List Module) := do
  let text ← sourceText path content
  (parseReport path text).mapError (.reading path)

/-- The number of modules of a source file, and their Verilog text. -/
def compileContent (path : String) (content : Except FileError ByteArray) :
    Report BuildError (Nat × String) := do
  let modules ← loadModules path content
  let text ← (emit modules).mapError (.lowering (some path))
  return (modules.length, text)

/-- Compiles one file into another. -/
def compileFile {m : Type → Type} [Monad m] [Files m] (input output : String) :
    m (Report BuildError Unit) := do
  let compiled := compileContent input (← Files.read input)
  match compiled.result with
  | .error e => return ⟨compiled.events, .error e⟩
  | .ok (count, text) =>
    match ← Files.write output text.toUTF8 with
    | .error e => return ⟨compiled.events, .error (.unwritable output e)⟩
    | .ok () => return ⟨compiled.events ++ [.wrote count output], .ok ()⟩

/-- Where the Verilog text of a file goes: the same path with the extension of
Verilog files. -/
def outputPath (input : String) : String :=
  Path.withExtension input "v"

end Gateware
