/- Fresh names. A Verilog module has a single namespace, so a declaration whose
   name is taken gets the first free one of `name_1`, `name_2`, and so on. -/
namespace Gateware.Lowering

def numbered (name : String) (n : Nat) : String :=
  s!"{name}_{n}"

/-- The first free name among `name_n`, `name_{n+1}` and so on, after at most
`limit` names that are taken. -/
def firstFree (used : List String) (name : String) : (limit n : Nat) → String
  | 0, n => numbered name n
  | limit + 1, n =>
    if numbered name n ∈ used then firstFree used name limit (n + 1) else numbered name n

/-- A name that is not used: the given one if it is free, else the first free
numbered one. At most as many are taken as names are used. -/
def freshName (used : List String) (name : String) : String :=
  if name ∈ used then firstFree used name used.length 1 else name

end Gateware.Lowering
