/- Places in a source text. Lines and columns count from one. A line feed
   starts the next line, a carriage return takes no column, and every other
   character takes one. -/
namespace Gateware

/-- A line and a column, both counted from one. -/
structure Position where
  line : Nat
  column : Nat
  deriving DecidableEq, Repr

namespace Position

/-- The first character of a text. -/
def start : Position := ⟨1, 1⟩

instance : Inhabited Position := ⟨start⟩

/-- Positions are ordered by line, then by column. -/
instance : LT Position :=
  ⟨fun p q => p.line < q.line ∨ (p.line = q.line ∧ p.column < q.column)⟩

instance (p q : Position) : Decidable (p < q) :=
  inferInstanceAs (Decidable (p.line < q.line ∨ (p.line = q.line ∧ p.column < q.column)))

def advance (p : Position) (c : Char) : Position :=
  if c = '\n' then ⟨p.line + 1, 1⟩
  else if c = '\r' then p
  else ⟨p.line, p.column + 1⟩

/-- The form used in messages, `line:column`. -/
def render (p : Position) : String :=
  s!"{p.line}:{p.column}"

end Position

end Gateware
