import Lox.Token.Basic
import Lox.Number.Read

/-!
Scanning Lox source into tokens by maximal munch. At each place blanks (space, tab, form feed,
carriage return, line feed) and `//` comments up to the end of the line are skipped; otherwise the
longest token that starts there is taken, and a word is a keyword exactly when it spells one.
Scanning stops at the first character that starts no token: an unclosed string, or a character
outside the language. Lines count line feeds, columns count code points, both from one.
-/

namespace Lox

/-- Why scanning stopped before the end of the source. -/
inductive LexError where
  -- A `"` whose string is never closed, on the given line.
  | unterminatedString (line : Nat)
  | unexpectedCharacter (line : Nat)
  deriving Repr, BEq, DecidableEq

namespace LexError

def line : LexError → Nat
  | .unterminatedString l => l
  | .unexpectedCharacter l => l

def message : LexError → String
  | .unterminatedString _ => "Unterminated string."
  | .unexpectedCharacter _ => "Unexpected character."

end LexError

/-- The tokens of the longest scannable prefix of a source, and why scanning stopped if it
stopped early. The end-of-input token is not among them. -/
structure Scan where
  tokens : List Token
  error : Option LexError

namespace Lexer

def isBlank (c : Char) : Bool :=
  c = ' ' || c = '\t' || c = '\x0c' || c = '\r' || c = '\n'

def isWordStart (c : Char) : Bool := c.isAlpha || c = '_'

def isWordPart (c : Char) : Bool := c.isAlphanum || c = '_'

/-- What a place of the source starts: something skipped, a token, or nothing. -/
inductive Piece where
  | skip
  -- A token of the given terminal; for numbers and strings, its value.
  | token (t : Terminal) (literal : Json)

def twoCharTerminal? : Char → Char → Option Terminal
  | '!', '=' => some .bangEqual
  | '=', '=' => some .equalEqual
  | '>', '=' => some .greaterEqual
  | '<', '=' => some .lessEqual
  | _, _ => none

def oneCharTerminal? : Char → Option Terminal
  | '(' => some .leftParen | ')' => some .rightParen | '\x7b' => some .leftBrace
  | '\x7d' => some .rightBrace | ',' => some .comma | '.' => some .dot | ';' => some .semicolon
  | '=' => some .equal | '>' => some .greater | '<' => some .less | '-' => some .minus
  | '+' => some .plus | '/' => some .slash | '*' => some .star | '!' => some .bang
  | _ => none

/-- The value of a number's text: digits, then optionally a point and more digits. -/
def numberValue (whole fraction : List Char) : Float :=
  (Decimal.ofNumeral whole fraction 0).toFloat false

/-- The longest piece at the start of a nonempty text: the piece, its text and the rest. -/
def piece? : List Char → Option (Piece × List Char × List Char)
  | [] => none
  | c :: cs =>
    if isBlank c then
      let run := cs.takeWhile isBlank
      some (.skip, c :: run, cs.drop run.length)
    else if c = '/' ∧ cs.head? = some '/' then
      let body := cs.takeWhile (· ≠ '\n')
      some (.skip, c :: body, cs.drop body.length)
    else if isWordStart c then
      let rest := cs.takeWhile isWordPart
      let word := String.ofList (c :: rest)
      let t := (Terminal.keyword? word).getD .identifier
      some (.token t .null, c :: rest, cs.drop rest.length)
    else if c.isDigit then
      let whole := cs.takeWhile Char.isDigit
      let after := cs.drop whole.length
      match after with
      | '.' :: d :: more =>
        if d.isDigit then
          let fraction := (d :: more).takeWhile Char.isDigit
          let text := c :: whole ++ '.' :: fraction
          some (.token .number (.float (numberValue (c :: whole) fraction)), text,
            (d :: more).drop fraction.length)
        else some (.token .number (.float (numberValue (c :: whole) [])), c :: whole, after)
      | _ => some (.token .number (.float (numberValue (c :: whole) [])), c :: whole, after)
    else if c = '"' then
      let body := cs.takeWhile (· ≠ '"')
      match cs.drop body.length with
      | '"' :: rest => some (.token .string (.str (String.ofList body)), c :: body ++ ['"'], rest)
      | _ => none
    else
      match cs with
      | d :: rest =>
        match twoCharTerminal? c d with
        | some t => some (.token t .null, [c, d], rest)
        | none => (oneCharTerminal? c).map fun t => (.token t .null, [c], cs)
      | [] => (oneCharTerminal? c).map fun t => (.token t .null, [c], cs)

/-- The place after a text that starts at a line and column. -/
def advance (line column : Nat) : List Char → Nat × Nat
  | [] => (line, column)
  | c :: cs => if c = '\n' then advance (line + 1) 1 cs else advance line (column + 1) cs

/-- Scans from a line and column; `fuel` bounds the number of pieces. -/
def scanFrom : Nat → List Char → Nat → Nat → List Token → Scan
  | 0, _, _, _, acc => ⟨acc.reverse, none⟩
  | _, [], _, _, acc => ⟨acc.reverse, none⟩
  | fuel + 1, c :: cs, line, column, acc =>
    match piece? (c :: cs) with
    | none =>
      let err := if c = '"' then LexError.unterminatedString line else .unexpectedCharacter line
      ⟨acc.reverse, some err⟩
    | some (p, text, rest) =>
      let (line', column') := advance line column text
      match p with
      | .skip => scanFrom fuel rest line' column' acc
      | .token t literal =>
        let tok : Token := ⟨.terminal t, String.ofList text, literal, line, column⟩
        scanFrom fuel rest line' column' (tok :: acc)

end Lexer

namespace Token

/-- The tokens of a source, up to the first place where no token starts. -/
def scan (source : String) : Scan :=
  let cs := source.toList
  Lexer.scanFrom (cs.length + 1) cs 1 1 []

/-- The end-of-input token after a list of tokens: it takes the line of the last token, or line
one when there is none. -/
def endOfInput (tokens : List Token) : Token :=
  ⟨.terminal .eof, "", .null, (tokens.getLast?.map (·.line)).getD 1, 0⟩

/-- The listing of a source: its tokens up to the first place where no token starts, then the
end-of-input token. -/
def tokenize (source : String) : List Token :=
  (scan source).tokens ++ [endOfInput (scan source).tokens]

end Token

end Lox
