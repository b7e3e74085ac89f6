/- JSON values with natural numbers, and their text over several lines. The
   fields of an object keep their order. -/
namespace Gateware

inductive Json where
  | null
  | bool (b : Bool)
  | number (n : Nat)
  | string (s : String)
  | array (items : List Json)
  | object (fields : List (String × Json))
  deriving Repr, Inhabited

namespace Json

/-- The hexadecimal digit of a number below sixteen. -/
def hexDigit (n : Nat) : Char :=
  if n < 10 then Char.ofNat ('0'.toNat + n) else Char.ofNat ('a'.toNat + (n - 10))

/-- How a character is written inside a string: the quote, the backslash and the
control characters are escaped. -/
def escape (c : Char) : List Char :=
  match c with
  | '"' => ['\\', '"']
  | '\\' => ['\\', '\\']
  | '\x08' => ['\\', 'b']
  | '\x0c' => ['\\', 'f']
  | '\n' => ['\\', 'n']
  | '\r' => ['\\', 'r']
  | '\t' => ['\\', 't']
  | c =>
    if c.toNat < 0x20 then ['\\', 'u', '0', '0', hexDigit (c.toNat / 16), hexDigit (c.toNat % 16)]
    else [c]

def quote (s : String) : String :=
  "\"" ++ String.ofList (s.toList.flatMap escape) ++ "\""

/-- The start of a new line with the given number of indentation steps of two
blanks. -/
def newline (depth : Nat) : String :=
  "\n" ++ String.ofList (List.replicate (2 * depth) ' ')

mutual

/-- Writes a value after the text `out`. Items and fields stand on lines of their
own, one step deeper than the value that holds them. -/
def write (depth : Nat) (out : String) : Json → String
  | .null => out ++ "null"
  | .bool b => out ++ (if b then "true" else "false")
  | .number n => out ++ toString n
  | .string s => out ++ quote s
  | .array [] => out ++ "[]"
  | .array (item :: items) =>
    writeItems depth (write (depth + 1) (out ++ "[" ++ newline (depth + 1)) item) items
  | .object [] => out ++ "\x7b\x7d"
  | .object ((key, value) :: fields) =>
    let out := out ++ "\x7b" ++ newline (depth + 1) ++ quote key ++ ": "
    writeFields depth (write (depth + 1) out value) fields

/-- Writes the items after the first one, and the closing bracket. -/
def writeItems (depth : Nat) (out : String) : List Json → String
  | [] => out ++ newline depth ++ "]"
  | item :: items =>
    writeItems depth (write (depth + 1) (out ++ "," ++ newline (depth + 1)) item) items

/-- Writes the fields after the first one, and the closing brace. -/
def writeFields (depth : Nat) (out : String) : List (String × Json) → String
  | [] => out ++ newline depth ++ "\x7d"
  | (key, value) :: fields =>
    let out := out ++ "," ++ newline (depth + 1) ++ quote key ++ ": "
    writeFields depth (write (depth + 1) out value) fields

end

def pretty (j : Json) : String :=
  write 0 "" j

end Json

end Gateware
