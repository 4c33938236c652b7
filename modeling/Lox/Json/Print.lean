import Lox.Json.Basic
import Lox.Number.Text

/-!
Writing JSON text. Strings escape the quote, the backslash and the control characters and keep
every other character as it is; doubles are written in `NumberStyle.json`. A document is written
either on one line, with `", "` and `": "` between items, or indented, one item a line.
-/

namespace Lox

namespace Json

/-- The four hexadecimal digits of a number below `2 ^ 16`. -/
def hex4 (n : Nat) : List Char :=
  let digit := fun (d : Nat) => if d < 10 then Char.ofNat (48 + d) else Char.ofNat (87 + d)
  [digit (n / 4096 % 16), digit (n / 256 % 16), digit (n / 16 % 16), digit (n % 16)]

/-- The escaped form of one character inside a string. -/
def escapeChar (c : Char) : List Char :=
  if c = '"' then ['\\', '"']
  else if c = '\\' then ['\\', '\\']
  else if c = '\n' then ['\\', 'n']
  else if c = '\r' then ['\\', 'r']
  else if c = '\t' then ['\\', 't']
  else if c = '\x08' then ['\\', 'b']
  else if c = '\x0c' then ['\\', 'f']
  else if c.toNat < 0x20 then ['\\', 'u'] ++ hex4 c.toNat
  else [c]

def quote (s : String) : String :=
  String.ofList ('"' :: (s.toList.flatMap escapeChar ++ ['"']))

mutual

/-- The document on one line. -/
def render : Json → String
  | .arr items => "[" ++ renderItems items ++ "]"
  | .obj fields => "\x7b" ++ renderFields fields ++ "\x7d"
  | .null => "null"
  | .bool b => if b then "true" else "false"
  | .int n => if n < 0 then "-" ++ Nat.repr n.natAbs else Nat.repr n.natAbs
  | .float x => NumberStyle.json.render x
  | .str s => quote s

def renderItems : List Json → String
  | [] => ""
  | [j] => render j
  | j :: rest => render j ++ ", " ++ renderItems rest

def renderFields : List (String × Json) → String
  | [] => ""
  | [(k, j)] => quote k ++ ": " ++ render j
  | (k, j) :: rest => quote k ++ ": " ++ render j ++ ", " ++ renderFields rest

end

def indentText (step depth : Nat) : String := String.ofList (List.replicate (step * depth) ' ')

mutual

/-- The document indented by `step` spaces a level, its inner lines starting at `depth`. -/
def renderIndented (step depth : Nat) : Json → String
  | .arr [] => "[]"
  | .obj [] => "\x7b\x7d"
  | .arr items =>
    "[\n" ++ indentedItems step (depth + 1) items ++ "\n" ++ indentText step depth ++ "]"
  | .obj fields =>
    "\x7b\n" ++ indentedFields step (depth + 1) fields ++ "\n" ++ indentText step depth ++ "\x7d"
  | j => render j

def indentedItems (step depth : Nat) : List Json → String
  | [] => ""
  | [j] => indentText step depth ++ renderIndented step depth j
  | j :: rest =>
    indentText step depth ++ renderIndented step depth j ++ ",\n" ++ indentedItems step depth rest

def indentedFields (step depth : Nat) : List (String × Json) → String
  | [] => ""
  | [(k, j)] => indentText step depth ++ quote k ++ ": " ++ renderIndented step depth j
  | (k, j) :: rest =>
    indentText step depth ++ quote k ++ ": " ++ renderIndented step depth j ++ ",\n" ++
      indentedFields step depth rest

end

end Json

end Lox
