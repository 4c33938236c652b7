import Lox.Json.Basic
import Lox.Number.Read

/-!
Reading JSON text. Numbers without fraction or exponent are integers of any size, the others are
rounded to doubles; `NaN`, `Infinity` and `-Infinity` are read as doubles too. Strings take the
standard escapes, a surrogate pair standing for one character. A key given twice keeps its first
place and its last value. Blanks are space, tab, line feed and carriage return.
-/

namespace Lox

namespace Json

/-- The place, counted in characters from the start, where a text stops being JSON. -/
structure ParseError where
  -- The offset of the first character that cannot continue a document.
  offset : Nat
  deriving Repr

namespace Reader

/-- A failure, remembered by how many characters were left. -/
abbrev Result (α : Type) := Except Nat (α × List Char)

def skipBlank : List Char → List Char
  | c :: cs => if c = ' ' || c = '\t' || c = '\n' || c = '\r' then skipBlank cs else c :: cs
  | [] => []

def hexValue (c : Char) : Option Nat :=
  if '0' ≤ c ∧ c ≤ '9' then some (c.toNat - '0'.toNat)
  else if 'a' ≤ c ∧ c ≤ 'f' then some (c.toNat - 'a'.toNat + 10)
  else if 'A' ≤ c ∧ c ≤ 'F' then some (c.toNat - 'A'.toNat + 10)
  else none

/-- The number four hexadecimal digits spell. -/
def hex4 (a b c d : Char) : Option Nat := do
  let va ← hexValue a
  let vb ← hexValue b
  let vc ← hexValue c
  let vd ← hexValue d
  some (((va * 16 + vb) * 16 + vc) * 16 + vd)

/-- The character of a code point; a lone surrogate becomes the replacement character. -/
def codeChar (n : Nat) : Char :=
  if n ≥ 0xD800 ∧ n < 0xE000 then '\uFFFD' else Char.ofNat n

def simpleEscape : Char → Option Char
  | '"' => some '"' | '\\' => some '\\' | '/' => some '/' | 'b' => some '\x08'
  | 'f' => some '\x0c' | 'n' => some '\n' | 'r' => some '\r' | 't' => some '\t'
  | _ => none

/-- The characters of a string body up to its closing quote, and the rest after the quote. -/
def stringBody : List Char → Except Nat (List Char × List Char)
  | [] => .error 0
  | '"' :: rest => .ok ([], rest)
  | '\\' :: 'u' :: a :: b :: c :: d :: '\\' :: 'u' :: a' :: b' :: c' :: d' :: rest =>
    match hex4 a b c d, hex4 a' b' c' d' with
    | some n, some m =>
      if n ≥ 0xD800 ∧ n < 0xDC00 ∧ m ≥ 0xDC00 ∧ m < 0xE000 then
        let ch := Char.ofNat (0x10000 + (n - 0xD800) * 0x400 + (m - 0xDC00))
        (stringBody rest).map fun (s, r) => (ch :: s, r)
      else
        (stringBody ('\\' :: 'u' :: a' :: b' :: c' :: d' :: rest)).map
          fun (s, r) => (codeChar n :: s, r)
    | some n, none =>
      (stringBody ('\\' :: 'u' :: a' :: b' :: c' :: d' :: rest)).map
        fun (s, r) => (codeChar n :: s, r)
    | none, _ => .error (rest.length + 12)
  | '\\' :: 'u' :: a :: b :: c :: d :: rest =>
    match hex4 a b c d with
    | some n => (stringBody rest).map fun (s, r) => (codeChar n :: s, r)
    | none => .error (rest.length + 6)
  | '\\' :: e :: rest =>
    match simpleEscape e with
    | some ch => (stringBody rest).map fun (s, r) => (ch :: s, r)
    | none => .error (rest.length + 2)
  | c :: rest =>
    if c.toNat < 0x20 || c = '\\' then .error (rest.length + 1)
    else (stringBody rest).map fun (s, r) => (c :: s, r)
termination_by cs => cs.length

def digits (cs : List Char) : List Char × List Char := (cs.takeWhile Char.isDigit, cs.dropWhile Char.isDigit)

/-- A number: `-`, then `0` or digits not starting with `0`, then a fraction and an exponent
where they are complete. Without fraction and exponent it is an integer. What does not fit is
left for the caller. -/
def number (cs : List Char) : Result Json :=
  let (negative, body) := match cs with | '-' :: b => (true, b) | b => (false, b)
  let (whole, afterWhole) : List Char × List Char :=
    match body with
    | '0' :: rest => (['0'], rest)
    | _ => digits body
  if whole.isEmpty then .error body.length
  else
    let (fraction, afterFraction) : List Char × List Char :=
      match afterWhole with
      | '.' :: rest =>
        let (f, r) := digits rest
        if f.isEmpty then ([], afterWhole) else (f, r)
      | _ => ([], afterWhole)
    let (exponent, rest) : Option Int × List Char :=
      match afterFraction with
      | e :: more =>
        if e = 'e' || e = 'E' then
          let (eneg, ebody) : Bool × List Char :=
            match more with | '-' :: b => (true, b) | '+' :: b => (false, b) | b => (false, b)
          let (eds, after) := digits ebody
          if eds.isEmpty then (none, afterFraction)
          else
            let v : Int := Decimal.digitsValue eds
            (some (if eneg then -v else v), after)
        else (none, afterFraction)
      | [] => (none, [])
    if fraction.isEmpty && exponent.isNone then
      let v : Int := Decimal.digitsValue whole
      .ok (.int (if negative then -v else v), rest)
    else
      .ok (.float ((Decimal.ofNumeral whole fraction (exponent.getD 0)).toFloat negative), rest)

mutual

/-- A value after optional blanks; `fuel` bounds the nesting. -/
def value : Nat → List Char → Result Json
  | 0, cs => .error cs.length
  | fuel + 1, cs =>
    match skipBlank cs with
    | '{' :: rest => members fuel [] true rest
    | '[' :: rest => elements fuel [] true rest
    | '"' :: rest => (stringBody rest).map fun (s, r) => (.str (String.ofList s), r)
    | 't' :: 'r' :: 'u' :: 'e' :: rest => .ok (.bool true, rest)
    | 'f' :: 'a' :: 'l' :: 's' :: 'e' :: rest => .ok (.bool false, rest)
    | 'n' :: 'u' :: 'l' :: 'l' :: rest => .ok (.null, rest)
    | 'N' :: 'a' :: 'N' :: rest => .ok (.float (0.0 / 0.0), rest)
    | 'I' :: 'n' :: 'f' :: 'i' :: 'n' :: 'i' :: 't' :: 'y' :: rest => .ok (.float (1.0 / 0.0), rest)
    | '-' :: 'I' :: 'n' :: 'f' :: 'i' :: 'n' :: 'i' :: 't' :: 'y' :: rest =>
      .ok (.float (-(1.0 / 0.0)), rest)
    | c :: rest =>
      if c.isDigit || c = '-' then number (c :: rest) else .error (rest.length + 1)
    | [] => .error 0

def elements : Nat → List Json → Bool → List Char → Result Json
  | 0, _, _, cs => .error cs.length
  | fuel + 1, acc, first, cs =>
    match skipBlank cs with
    | ']' :: rest => if first then .ok (.arr [], rest) else .error (rest.length + 1)
    | _ =>
      match value fuel cs with
      | .error e => .error e
      | .ok (v, rest) =>
        match skipBlank rest with
        | ',' :: more => elements fuel (v :: acc) false more
        | ']' :: more => .ok (.arr (v :: acc).reverse, more)
        | other => .error other.length

def members : Nat → List (String × Json) → Bool → List Char → Result Json
  | 0, _, _, cs => .error cs.length
  | fuel + 1, acc, first, cs =>
    match skipBlank cs with
    | '}' :: rest => if first then .ok (.obj [], rest) else .error (rest.length + 1)
    | '"' :: rest =>
      match stringBody rest with
      | .error e => .error e
      | .ok (key, afterKey) =>
        match skipBlank afterKey with
        | ':' :: afterColon =>
          match value fuel afterColon with
          | .error e => .error e
          | .ok (v, rest) =>
            let acc := setField acc (String.ofList key) v
            match skipBlank rest with
            | ',' :: more => members fuel acc false more
            | '}' :: more => .ok (.obj acc, more)
            | other => .error other.length
        | other => .error other.length
    | other => .error other.length

end

end Reader

/-- The document a text holds, blanks around it allowed. -/
def parse (text : String) : Except ParseError Json :=
  let cs := text.toList
  match Reader.value (cs.length + 1) cs with
  | .error left => .error ⟨cs.length - left⟩
  | .ok (j, rest) =>
    match Reader.skipBlank rest with
    | [] => .ok j
    | other => .error ⟨cs.length - other.length⟩

end Json

end Lox
