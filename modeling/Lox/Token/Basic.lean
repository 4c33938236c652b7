import Lox.Json.Basic

/-!
Tokens of Lox source text. A `Terminal` is a class of tokens of the grammar; the end of input is
one of them. A token read from a syntax-tree document may carry a kind that names no terminal, so
a `TokenKind` is a terminal or such a name.
-/

namespace Lox

/-- The token classes of Lox, and the end of input. -/
inductive Terminal where
  | kwAnd | kwClass | kwElse | kwFalse | kwFor | kwFun | kwIf | kwNil
  | kwOr | kwPrint | kwReturn | kwSuper | kwThis | kwTrue | kwVar | kwWhile
  | leftParen | rightParen | leftBrace | rightBrace | comma | dot | semicolon
  | equal | equalEqual | bang | bangEqual | less | lessEqual | greater | greaterEqual
  | minus | plus | slash | star
  | number | string | identifier
  | eof
  deriving Repr, BEq, DecidableEq, Inhabited

namespace Terminal

def all : List Terminal :=
  [kwAnd, kwClass, kwElse, kwFalse, kwFor, kwFun, kwIf, kwNil,
   kwOr, kwPrint, kwReturn, kwSuper, kwThis, kwTrue, kwVar, kwWhile,
   leftParen, rightParen, leftBrace, rightBrace, comma, dot, semicolon,
   equal, equalEqual, bang, bangEqual, less, lessEqual, greater, greaterEqual,
   minus, plus, slash, star,
   number, string, identifier,
   eof]

/-- The position of a terminal in `all`, a small number used to index tables. -/
def index : Terminal → Nat
  | kwAnd => 0 | kwClass => 1 | kwElse => 2 | kwFalse => 3 | kwFor => 4 | kwFun => 5
  | kwIf => 6 | kwNil => 7 | kwOr => 8 | kwPrint => 9 | kwReturn => 10 | kwSuper => 11
  | kwThis => 12 | kwTrue => 13 | kwVar => 14 | kwWhile => 15
  | leftParen => 16 | rightParen => 17 | leftBrace => 18 | rightBrace => 19 | comma => 20
  | dot => 21 | semicolon => 22
  | equal => 23 | equalEqual => 24 | bang => 25 | bangEqual => 26 | less => 27
  | lessEqual => 28 | greater => 29 | greaterEqual => 30
  | minus => 31 | plus => 32 | slash => 33 | star => 34
  | number => 35 | string => 36 | identifier => 37
  | eof => 38

def count : Nat := 39

/-- The name of a token kind as token listings and syntax-tree documents spell it. -/
def name : Terminal → String
  | kwAnd => "AND" | kwClass => "CLASS" | kwElse => "ELSE" | kwFalse => "FALSE"
  | kwFor => "FOR" | kwFun => "FUN" | kwIf => "IF" | kwNil => "NIL" | kwOr => "OR"
  | kwPrint => "PRINT" | kwReturn => "RETURN" | kwSuper => "SUPER" | kwThis => "THIS"
  | kwTrue => "TRUE" | kwVar => "VAR" | kwWhile => "WHILE"
  | leftParen => "LPAR" | rightParen => "RIGHT_PAREN" | leftBrace => "LBRACE"
  | rightBrace => "RBRACE" | comma => "COMMA" | dot => "DOT" | semicolon => "SEMICOLON"
  | equal => "EQUAL" | equalEqual => "EQUAL_EQUAL" | bang => "BANG" | bangEqual => "BANG_EQUAL"
  | less => "LESS" | lessEqual => "LESS_EQUAL" | greater => "GREATER"
  | greaterEqual => "GREATER_EQUAL" | minus => "MINUS" | plus => "PLUS" | slash => "SLASH"
  | star => "STAR"
  | number => "NUMBER" | string => "STRING" | identifier => "IDENTIFIER"
  | eof => "EOF"

/-- The fixed text of a terminal that has one. -/
def text? : Terminal → Option String
  | kwAnd => some "and" | kwClass => some "class" | kwElse => some "else"
  | kwFalse => some "false" | kwFor => some "for" | kwFun => some "fun" | kwIf => some "if"
  | kwNil => some "nil" | kwOr => some "or" | kwPrint => some "print"
  | kwReturn => some "return" | kwSuper => some "super" | kwThis => some "this"
  | kwTrue => some "true" | kwVar => some "var" | kwWhile => some "while"
  | leftParen => some "(" | rightParen => some ")" | leftBrace => some "\x7b"
  | rightBrace => some "\x7d" | comma => some "," | dot => some "." | semicolon => some ";"
  | equal => some "=" | equalEqual => some "==" | bang => some "!" | bangEqual => some "!="
  | less => some "<" | lessEqual => some "<=" | greater => some ">" | greaterEqual => some ">="
  | minus => some "-" | plus => some "+" | slash => some "/" | star => some "*"
  | number => none | string => none | identifier => none | eof => none

/-- How a syntax error names a terminal it expected: fixed texts in single quotes, the classes
of numbers, strings and identifiers by a word, and the end of input as `$END`. -/
def display : Terminal → String
  | number => "number"
  | string => "string"
  | identifier => "identifier"
  | eof => "$END"
  | t => "'" ++ (t.text?.getD "") ++ "'"

/-- The keyword spelled by a word, if it is one. -/
def keyword? (word : String) : Option Terminal :=
  [kwAnd, kwClass, kwElse, kwFalse, kwFor, kwFun, kwIf, kwNil,
   kwOr, kwPrint, kwReturn, kwSuper, kwThis, kwTrue, kwVar, kwWhile].find? (·.text? == some word)

/-- The terminal a token-kind name spells, if any. -/
def ofName? (s : String) : Option Terminal := all.find? (·.name == s)

end Terminal

/-- The kind of a token: a terminal, or a name that spells none. -/
inductive TokenKind where
  | terminal (t : Terminal)
  | other (name : String)
  deriving Repr, BEq, DecidableEq, Inhabited

namespace TokenKind

def ofName (s : String) : TokenKind :=
  match Terminal.ofName? s with
  | some t => .terminal t
  | none => .other s

def name : TokenKind → String
  | .terminal t => t.name
  | .other s => s

end TokenKind

/-- A token: its kind, its text, the value of a number or string, and where it starts. Lines
and columns count from one; the end-of-input token has column zero. -/
structure Token where
  kind : TokenKind
  lexeme : String
  -- The value of a number or string token, `null` otherwise.
  literal : Json := .null
  line : Nat := 0
  -- The column of the first character, in code points.
  column : Nat := 0
  deriving Inhabited

namespace Token

def isOf (tok : Token) (t : Terminal) : Bool := tok.kind == .terminal t

end Token

end Lox
