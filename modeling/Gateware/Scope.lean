import Gateware.Lowering.Error
import Gateware.Signal

/- Scopes: a stack of frames, one for each open module or block, that bind names
   to signals. A frame binds a name at most once; inner frames hide outer ones.
   The outermost frame is never left, so there is always one to declare into. -/
namespace Gateware

/-- A declared signal and the name it is emitted under. -/
structure Binding where
  signal : Signal
  emitted : String
  deriving DecidableEq, Repr

/-- The bindings of one frame, the latest first. -/
abbrev Frame := List Binding

def Frame.find? (frame : Frame) (name : String) : Option Binding :=
  List.find? (fun b => b.signal.name.name == name) frame

/-- A stack of frames that is never empty. -/
structure Scope where
  innermost : Frame
  enclosing : List Frame
  deriving DecidableEq, Repr

namespace Scope

/-- A scope without bindings, in its outermost frame. -/
def root : Scope := ⟨[], []⟩

def frames (s : Scope) : List Frame :=
  s.innermost :: s.enclosing

/-- How many frames have been entered and not left. -/
def depth (s : Scope) : Nat :=
  s.enclosing.length

def enter (s : Scope) : Scope :=
  ⟨[], s.frames⟩

/-- Leaves the innermost frame, unless it is the outermost one. -/
def exit (s : Scope) : Scope :=
  match s.enclosing with
  | [] => s
  | frame :: frames => ⟨frame, frames⟩

/-- Declares a signal in the innermost frame, to be emitted under a name of its
own. -/
def declareAs (s : Scope) (signal : Signal) (emitted : String) : Except LoweringError Scope :=
  match s.innermost.find? signal.name.name with
  | some first => .error (.duplicate signal.name first.signal.name.pos)
  | none => .ok { s with innermost := ⟨signal, emitted⟩ :: s.innermost }

/-- Declares a signal in the innermost frame, to be emitted under its source
name. -/
def declare (s : Scope) (signal : Signal) : Except LoweringError Scope :=
  s.declareAs signal signal.name.name

/-- The binding of a name in the innermost frame that has one. -/
def lookup (s : Scope) (name : String) : Option Binding :=
  s.frames.findSome? (·.find? name)

def resolve (s : Scope) (name : String) : Option Signal :=
  (s.lookup name).map (·.signal)

/-- The binding of a name that has to be declared. -/
def require (s : Scope) (id : Ident) : Except LoweringError Binding :=
  match s.lookup id.name with
  | some binding => .ok binding
  | none => .error (.undeclared id)

inductive Request where
  | enter
  | exit
  | declare (signal : Signal)
  | declareAs (signal : Signal) (emitted : String)
  | lookup (name : String)
  | resolve (name : String)
  deriving DecidableEq, Repr

inductive Answer where
  | done
  | declared (failure : Option LoweringError)
  | binding (found : Option Binding)
  | signal (found : Option Signal)
  deriving DecidableEq, Repr

/-- The outcome of a declaration; one that fails changes nothing. -/
def afterDeclaration (s : Scope) : Except LoweringError Scope → Answer × Scope
  | .ok s' => (.declared none, s')
  | .error e => (.declared (some e), s)

def serve (s : Scope) : Request → Answer × Scope
  | .enter => (.done, s.enter)
  | .exit => (.done, s.exit)
  | .declare signal => s.afterDeclaration (s.declare signal)
  | .declareAs signal emitted => s.afterDeclaration (s.declareAs signal emitted)
  | .lookup name => (.binding (s.lookup name), s)
  | .resolve name => (.signal (s.resolve name), s)

/-- Serves requests in order; each answer comes with the depth after it. -/
def serveAll (s : Scope) : List Request → List (Answer × Nat)
  | [] => []
  | r :: rs => let (answer, s) := s.serve r; (answer, s.depth) :: serveAll s rs

end Scope

end Gateware
