import Gateware.Signal
import Gateware.Syntax.Reader

/- Reading names, widths, clocks, signals and ports. -/
namespace Gateware

/-- The number that a text of decimal digits stands for. -/
def decimal? : List Char → Nat → Option Nat
  | [], value => some value
  | c :: cs, value => if c.isDigit then decimal? cs (value * 10 + (c.toNat - '0'.toNat)) else none

/-- Bit widths are below this number, which is 2^32. -/
def widthBound : Nat := 4294967296

/-- The bit width that a literal stands for: decimal digits only, and below the
bound. -/
def bitWidth? (text : String) : Option Nat :=
  match text.toList with
  | [] => none
  | digits => (decimal? digits 0).filter (· < widthBound)

namespace Reader

def ident (construct : Construct) : Reader Ident := do
  let token ← expect .identifier construct
  return ⟨token.text, token.pos⟩

/-- Reads a width in brackets; without one a signal has a single bit. -/
def width : Reader Nat := do
  match ← accept .leftBracket with
  | none => return 1
  | some _ =>
    let token ← expect .literal .bitWidth
    match bitWidth? token.text with
    | none => fail (.malformedWidth token)
    | some width =>
      let _ ← expect .rightBracket .bitWidth
      return width

/-- Reads a clock: an at mark, then a name, with a bang before it for the
falling edge. -/
def clock : Reader Clock := do
  let _ ← expect .atMark .clock
  let token ← next
  match token.kind with
  | .bang => return ⟨← ident .clock, true⟩
  | .identifier => return ⟨⟨token.text, token.pos⟩, false⟩
  | _ => fail (.unexpected .clock token [.bang, .identifier])

/-- Reads a signal: storage, width, name and clock, of which only the name is
required. -/
def signal (construct : Construct) : Reader Signal := do
  let storage ← accept .storage
  let width ← width
  let name ← ident construct
  let clock ← if ← nextIs .atMark then some <$> clock else pure none
  let storage := match storage with
    | some ⟨"reg", _⟩ => Storage.reg
    | _ => Storage.wire
  return ⟨name, width, storage, clock⟩

/-- Reads a port: a direction and a signal. -/
def port : Reader Port := do
  let token ← next
  let direction ← match token.text with
    | "in" => pure Direction.input
    | "out" => pure Direction.output
    | "inout" => pure Direction.inout
    | _ => fail (.unexpected .port token [.direction])
  return ⟨← signal .port, direction⟩

end Reader

end Gateware
