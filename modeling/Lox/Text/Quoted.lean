/-!
Quoted text as token listings show a lexeme: the text between single quotes, or between double
quotes when it holds a single quote and no double quote. The backslash, the chosen quote, tab,
line feed and carriage return are escaped by a backslash; other characters that do not print are
written by their code in hexadecimal, and all else is kept as it is.
-/

namespace Lox

namespace Quoted

/-- Characters that do not print: controls, format characters, separators other than the space,
and private-use characters. -/
def isHidden (c : Char) : Bool :=
  let n := c.toNat
  n < 0x20 || (0x7f ≤ n && n < 0xa0) || n == 0xa0 || n == 0xad ||
  (0x600 ≤ n && n ≤ 0x605) || n == 0x61c || n == 0x6dd || n == 0x70f || n == 0x1680 ||
  n == 0x180e || (0x2000 ≤ n && n ≤ 0x200f) || (0x2028 ≤ n && n ≤ 0x202f) ||
  (0x205f ≤ n && n ≤ 0x2064) || (0x2066 ≤ n && n ≤ 0x206f) || n == 0x3000 || n == 0xfeff ||
  (0xfff9 ≤ n && n ≤ 0xfffb) || (0xe000 ≤ n && n ≤ 0xf8ff) || n ≥ 0xf0000

/-- The hexadecimal digits of a number, at least `width` of them. -/
def hexDigits (width n : Nat) : List Char :=
  let ds := Nat.toDigits 16 n
  List.replicate (width - ds.length) '0' ++ ds

/-- The escaped form of a character between the given quotes. -/
def escapeChar (q c : Char) : List Char :=
  if c = '\\' then ['\\', '\\']
  else if c = q then ['\\', q]
  else if c = '\t' then ['\\', 't']
  else if c = '\n' then ['\\', 'n']
  else if c = '\r' then ['\\', 'r']
  else if isHidden c then
    let n := c.toNat
    if n < 0x100 then ['\\', 'x'] ++ hexDigits 2 n
    else if n < 0x10000 then ['\\', 'u'] ++ hexDigits 4 n
    else ['\\', 'U'] ++ hexDigits 8 n
  else [c]

/-- The quote a text is shown in. -/
def quoteFor (s : String) : Char :=
  if s.toList.contains '\'' && !s.toList.contains '"' then '"' else '\''

def quote (s : String) : String :=
  let q := quoteFor s
  String.ofList (q :: s.toList.flatMap (escapeChar q) ++ [q])

end Quoted

end Lox
