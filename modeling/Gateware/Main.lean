import Gateware.Command.Run

/- The command line program: the command over the real files. -/
namespace Gateware

/-- The cause of a failure of the operating system. Of the two kinds of file that
can stand in the wrong place, a directory has the code 21, and of the arguments
that can be wrong, a name that is too long has the code 36. Some calls report a
code as a negative number. -/
def FileError.ofSystem : IO.Error → FileError
  | .noFileOrDirectory .. => .notFound
  | .inappropriateType _ code _ =>
    if code = 21 ∨ code = 0 - 21 then .isDirectory else .notDirectory
  | .invalidArgument file code details =>
    if code = 36 ∨ code = 0 - 36 then .nameTooLong
    else .other (toString (IO.Error.invalidArgument file code details))
  | e => .other (toString e)

instance : Files IO where
  read path := do
    match ← (IO.FS.readBinFile path).toBaseIO with
    | .ok content => return .ok content
    | .error e => return .error (.ofSystem e)
  write path content := do
    match ← (IO.FS.writeBinFile path content).toBaseIO with
    | .ok () => return .ok ()
    | .error e => return .error (.ofSystem e)

end Gateware

def main (args : List String) : IO UInt32 := do
  let outcome ← Gateware.Command.run (m := IO) args
  IO.print outcome.stdout
  IO.eprint outcome.stderr
  return outcome.status.toUInt32
