import Gateware.Event

/- The command line as a value, and how it is read. Options can come before and
   after the file; short ones can share a dash; a lone dash is a value; after two
   dashes all that follows is positional. A command line that breaks a rule has no
   value. -/
namespace Gateware

inductive Product where
  | verilog
  | tree
  | tokens
  deriving DecidableEq, Repr

/-- The product that a word on the command line stands for. -/
def Product.ofWord? (word : String) : Option Product :=
  match word with
  | "verilog" => some .verilog
  | "ast" => some .tree
  | "tokens" => some .tokens
  | _ => none

/-- What a command line asks for. -/
structure Invocation where
  file : Option String
  output : Option String
  product : Option Product
  verbose : Nat
  help : Bool
  deriving DecidableEq, Repr

namespace Invocation

def empty : Invocation := ⟨none, none, none, 0, false⟩

/-- Sets the file. There can be only one, and it has to have a name. -/
def setFile (i : Invocation) (path : String) : Option Invocation :=
  if i.file.isSome ∨ path = "" then none else some { i with file := some path }

/-- Sets the output. There can be only one, and it has to have a name. -/
def setOutput (i : Invocation) (path : String) : Option Invocation :=
  if i.output.isSome ∨ path = "" then none else some { i with output := some path }

def setProduct (i : Invocation) (word : String) : Option Invocation :=
  match i.product, Product.ofWord? word with
  | none, some product => some { i with product := some product }
  | _, _ => none

def setHelp (i : Invocation) : Option Invocation :=
  if i.help then none else some { i with help := true }

def addVerbose (i : Invocation) : Invocation :=
  { i with verbose := i.verbose + 1 }

inductive Setting where
  | output
  | product
  deriving DecidableEq, Repr

def assign (i : Invocation) : Setting → String → Option Invocation
  | .output, value => i.setOutput value
  | .product, value => i.setProduct value

/-- Whether an argument can be the value of the option before it: it does not
look like an option itself. -/
def isValue (arg : String) : Bool :=
  match arg.toList with
  | '-' :: _ :: _ => false
  | _ => true

/-- The outcome of an argument: it is dealt with, or the next argument is the
value of an option. -/
inductive Progress where
  | done (i : Invocation)
  | wants (i : Invocation) (setting : Setting)

/-- Reads the letters of short options. -/
def short (i : Invocation) : List Char → Option Progress
  | [] => some (.done i)
  | 'v' :: rest => i.addVerbose.short rest
  | 'h' :: rest => i.setHelp.bind (·.short rest)
  -- What follows `o` is its value, with an equals sign before it left out.
  | ['o'] => some (.wants i .output)
  | 'o' :: '=' :: value => (i.setOutput (String.ofList value)).map .done
  | 'o' :: value => (i.setOutput (String.ofList value)).map .done
  | _ :: _ => none

/-- Reads a long option: its name, and its value if an equals sign is there. -/
def long (i : Invocation) (name : String) (value : Option String) : Option Progress :=
  match name, value with
  | "output", none => some (.wants i .output)
  | "output", some value => (i.setOutput value).map .done
  | "emit", none => some (.wants i .product)
  | "emit", some value => (i.setProduct value).map .done
  | "verbose", none => some (.done i.addVerbose)
  | "help", none => i.setHelp.map .done
  | _, _ => none

/-- Reads one argument before any double dash. -/
def argument (i : Invocation) (arg : String) : Option Progress :=
  match arg.toList with
  | '-' :: '-' :: rest =>
    let name := String.ofList (rest.takeWhile (· ≠ '='))
    match rest.dropWhile (· ≠ '=') with
    | [] => i.long name none
    | _ :: value => i.long name (some (String.ofList value))
  | '-' :: c :: rest => i.short (c :: rest)
  | _ => (i.setFile arg).map .done

/-- Reads arguments; `wanted` is an option that waits for its value. -/
def read (i : Invocation) (wanted : Option Setting) : List String → Option Invocation
  | [] => if wanted.isSome then none else some i
  | arg :: args =>
    match wanted with
    | some setting =>
      if isValue arg then (i.assign setting arg).bind (·.read none args) else none
    | none =>
      -- All that follows is positional, also what looks like an option.
      if arg = "--" then args.foldlM setFile i
      else
        match i.argument arg with
        | none => none
        | some (.done i) => i.read none args
        | some (.wants i setting) => i.read (some setting) args

def ofArguments? (args : List String) : Option Invocation :=
  empty.read none args

/-- How much of the log is shown: warnings at first, more with each request. -/
def verbosity (i : Invocation) : Verbosity :=
  match i.verbose with
  | 0 => .warn
  | 1 => .info
  | 2 => .debug
  | _ => .trace

end Invocation

end Gateware
