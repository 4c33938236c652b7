import Lox.Json.Basic
import Lox.Number.Text
import Lox.Text.Quoted

/-!
The text of a document's value as the interpreter shows it. A tree read from a document may carry
values that are no Lox value, such as a list in a literal or a number where a name belongs; the
interpreter shows such a value the way its host language writes the value the reader made of the
document: `None`, `True` and `False`, integers in decimal, doubles in their shortest form with
`nan` and `inf`, strings quoted, lists in brackets and objects in braces with `key: value` items.
Where text is expected a string stands for itself and every other value is shown.
-/

namespace Lox

namespace Json

mutual

/-- The shown text of a value. -/
def reprText : Json → String
  | .null => "None"
  | .bool b => if b then "True" else "False"
  | .int n => if n < 0 then "-" ++ Nat.repr n.natAbs else Nat.repr n.natAbs
  | .float x => NumberStyle.shown.render x
  | .str s => Quoted.quote s
  | .arr items => "[" ++ reprItems items ++ "]"
  | .obj fields => "\x7b" ++ reprFields fields ++ "\x7d"

def reprItems : List Json → String
  | [] => ""
  | [j] => reprText j
  | j :: rest => reprText j ++ ", " ++ reprItems rest

def reprFields : List (String × Json) → String
  | [] => ""
  | [(k, j)] => Quoted.quote k ++ ": " ++ reprText j
  | (k, j) :: rest => Quoted.quote k ++ ": " ++ reprText j ++ ", " ++ reprFields rest

end

/-- The text of a value used where text is expected: a string as it is, every other value
shown. -/
def plainText : Json → String
  | .str s => s
  | j => reprText j

end Json

end Lox
