import Lox.Token.Basic
import Lox.Grammar.Table

/-!
The grammar of Lox. Repetitions are written as left-recursive lists (`declarations`,
`methods`, the operator tails) and optional parts as alternatives with and without them. The
six binary levels share one shape: a level is an operand followed by an optional tail, and a tail
is one or more operator-operand pairs, so `a - b + c` groups to the left once the tail is folded.
The declarations of a program and of a block are one and the same list.
-/

namespace Lox

namespace Syntax

/-- The binary operator levels, loosest first. -/
inductive Level where
  | disjunction | conjunction | equality | comparison | term | factor
  deriving Repr, BEq, DecidableEq, Inhabited

namespace Level

def all : List Level := [disjunction, conjunction, equality, comparison, term, factor]

def index : Level → Nat
  | disjunction => 0 | conjunction => 1 | equality => 2 | comparison => 3 | term => 4
  | factor => 5

def operators : Level → List Terminal
  | disjunction => [.kwOr]
  | conjunction => [.kwAnd]
  | equality => [.bangEqual, .equalEqual]
  | comparison => [.greater, .greaterEqual, .less, .lessEqual]
  | term => [.minus, .plus]
  | factor => [.slash, .star]

/-- The next tighter level, if any. -/
def tighter? : Level → Option Level
  | disjunction => some conjunction
  | conjunction => some equality
  | equality => some comparison
  | comparison => some term
  | term => some factor
  | factor => none

/-- Whether the level's operators may skip their right operand. -/
def isLogical : Level → Bool
  | disjunction => true
  | conjunction => true
  | _ => false

end Level

inductive Nonterminal where
  | start | program | declarations | declaration | classDecl | methods | funDecl | function
  | parameters | moreParameters | varDecl | statement | exprStmt | forStmt | forInit | forCond
  | forIncr | ifStmt | printStmt | returnStmt | whileStmt | block | expression | assignment
  | unary | call | arguments | moreArguments | primary
  | chain (level : Level)
  -- One or more operator-operand pairs of a level.
  | tail (level : Level)
  deriving Repr, BEq, DecidableEq, Inhabited

namespace Nonterminal

def index : Nonterminal → Nat
  | start => 0 | program => 1 | declarations => 2 | declaration => 3 | classDecl => 4
  | methods => 5 | funDecl => 6 | function => 7 | parameters => 8 | moreParameters => 9
  | varDecl => 10 | statement => 11 | exprStmt => 12 | forStmt => 13 | forInit => 14
  | forCond => 15 | forIncr => 16 | ifStmt => 17 | printStmt => 18 | returnStmt => 19
  | whileStmt => 20 | block => 21 | expression => 22 | assignment => 23 | unary => 24
  | call => 25 | arguments => 26 | moreArguments => 27 | primary => 28
  | chain l => 29 + l.index
  | tail l => 35 + l.index

def count : Nat := 41

/-- The operand nonterminal of a level: the next level's chain, or `unary` after the last. -/
def operand (l : Level) : Nonterminal :=
  match l.tighter? with
  | some l' => chain l'
  | none => unary

end Nonterminal

/-- The productions of the Lox grammar. -/
inductive Production where
  | start
  | programItems | programEmpty
  | declarationsFirst | declarationsNext
  | declarationClass | declarationFun | declarationVar | declarationStatement
  | classSuperMethods | classSuper | classMethods | classPlain
  | methodsFirst | methodsNext
  | funDecl
  | functionParams | functionPlain
  | parametersOne | parametersMany
  | moreParametersFirst | moreParametersNext
  | varInit | varPlain
  | statementExpr | statementFor | statementIf | statementPrint | statementReturn
  | statementWhile | statementBlock
  | exprStmt
  | forStmt
  | forInitVar | forInitExpr | forInitEmpty
  | forCondSome | forCondNone
  | forIncrSome | forIncrNone
  | ifElse | ifThen
  | printStmt
  | returnValue | returnBare
  | whileStmt
  | blockItems | blockEmpty
  | expression
  | assignmentTarget | assignmentPlain
  -- `chain → operand tail`.
  | chainLong (level : Level)
  -- `chain → operand`.
  | chainShort (level : Level)
  -- `tail → op operand`.
  | tailFirst (level : Level) (op : Terminal)
  -- `tail → tail op operand`.
  | tailNext (level : Level) (op : Terminal)
  | unaryBang | unaryMinus | unaryCall
  | callPrimary | callArgs | callEmpty | callGet
  | argumentsOne | argumentsMany
  | moreArgumentsFirst | moreArgumentsNext
  | primaryTrue | primaryFalse | primaryNil | primaryNumber | primaryString | primaryThis
  | primarySuper | primaryIdentifier | primaryGroup
  deriving Repr, BEq, DecidableEq, Inhabited

namespace Production

open Nonterminal in
/-- The productions that do not belong to a level. -/
def plain : List Production :=
  [start, programItems, programEmpty, declarationsFirst, declarationsNext,
   declarationClass, declarationFun, declarationVar, declarationStatement,
   classSuperMethods, classSuper, classMethods, classPlain, methodsFirst, methodsNext,
   .funDecl, functionParams, functionPlain, parametersOne, parametersMany,
   moreParametersFirst, moreParametersNext, varInit, varPlain,
   statementExpr, statementFor, statementIf, statementPrint, statementReturn, statementWhile,
   statementBlock, .exprStmt, .forStmt, forInitVar, forInitExpr, forInitEmpty,
   forCondSome, forCondNone, forIncrSome, forIncrNone, ifElse, ifThen, .printStmt,
   returnValue, returnBare, .whileStmt, blockItems, blockEmpty, .expression,
   assignmentTarget, assignmentPlain,
   unaryBang, unaryMinus, unaryCall, callPrimary, callArgs, callEmpty, callGet,
   argumentsOne, argumentsMany, moreArgumentsFirst, moreArgumentsNext,
   primaryTrue, primaryFalse, primaryNil, primaryNumber, primaryString, primaryThis,
   primarySuper, primaryIdentifier, primaryGroup]

/-- Every production, numbered by position. -/
def all : List Production :=
  plain ++ Level.all.flatMap fun l =>
    [chainLong l, chainShort l] ++ l.operators.flatMap fun op => [tailFirst l op, tailNext l op]

def lhs : Production → Nonterminal
  | start => .start
  | programItems | programEmpty => .program
  | declarationsFirst | declarationsNext => .declarations
  | declarationClass | declarationFun | declarationVar | declarationStatement => .declaration
  | classSuperMethods | classSuper | classMethods | classPlain => .classDecl
  | methodsFirst | methodsNext => .methods
  | funDecl => .funDecl
  | functionParams | functionPlain => .function
  | parametersOne | parametersMany => .parameters
  | moreParametersFirst | moreParametersNext => .moreParameters
  | varInit | varPlain => .varDecl
  | statementExpr | statementFor | statementIf | statementPrint | statementReturn
  | statementWhile | statementBlock => .statement
  | exprStmt => .exprStmt
  | forStmt => .forStmt
  | forInitVar | forInitExpr | forInitEmpty => .forInit
  | forCondSome | forCondNone => .forCond
  | forIncrSome | forIncrNone => .forIncr
  | ifElse | ifThen => .ifStmt
  | printStmt => .printStmt
  | returnValue | returnBare => .returnStmt
  | whileStmt => .whileStmt
  | blockItems | blockEmpty => .block
  | expression => .expression
  | assignmentTarget | assignmentPlain => .assignment
  | chainLong l | chainShort l => .chain l
  | tailFirst l _ | tailNext l _ => .tail l
  | unaryBang | unaryMinus | unaryCall => .unary
  | callPrimary | callArgs | callEmpty | callGet => .call
  | argumentsOne | argumentsMany => .arguments
  | moreArgumentsFirst | moreArgumentsNext => .moreArguments
  | primaryTrue | primaryFalse | primaryNil | primaryNumber | primaryString | primaryThis
  | primarySuper | primaryIdentifier | primaryGroup => .primary

abbrev Sym := Terminal ⊕ Nonterminal

def rhs : Production → List Sym
  | start => [.inr .program]
  | programItems => [.inr .declarations]
  | programEmpty => []
  | declarationsFirst => [.inr .declaration]
  | declarationsNext => [.inr .declarations, .inr .declaration]
  | declarationClass => [.inr .classDecl]
  | declarationFun => [.inr .funDecl]
  | declarationVar => [.inr .varDecl]
  | declarationStatement => [.inr .statement]
  | classSuperMethods =>
    [.inl .kwClass, .inl .identifier, .inl .less, .inl .identifier, .inl .leftBrace,
     .inr .methods, .inl .rightBrace]
  | classSuper =>
    [.inl .kwClass, .inl .identifier, .inl .less, .inl .identifier, .inl .leftBrace,
     .inl .rightBrace]
  | classMethods =>
    [.inl .kwClass, .inl .identifier, .inl .leftBrace, .inr .methods, .inl .rightBrace]
  | classPlain => [.inl .kwClass, .inl .identifier, .inl .leftBrace, .inl .rightBrace]
  | methodsFirst => [.inr .function]
  | methodsNext => [.inr .methods, .inr .function]
  | funDecl => [.inl .kwFun, .inr .function]
  | functionParams =>
    [.inl .identifier, .inl .leftParen, .inr .parameters, .inl .rightParen, .inr .block]
  | functionPlain => [.inl .identifier, .inl .leftParen, .inl .rightParen, .inr .block]
  | parametersOne => [.inl .identifier]
  | parametersMany => [.inl .identifier, .inr .moreParameters]
  | moreParametersFirst => [.inl .comma, .inl .identifier]
  | moreParametersNext => [.inr .moreParameters, .inl .comma, .inl .identifier]
  | varInit =>
    [.inl .kwVar, .inl .identifier, .inl .equal, .inr .expression, .inl .semicolon]
  | varPlain => [.inl .kwVar, .inl .identifier, .inl .semicolon]
  | statementExpr => [.inr .exprStmt]
  | statementFor => [.inr .forStmt]
  | statementIf => [.inr .ifStmt]
  | statementPrint => [.inr .printStmt]
  | statementReturn => [.inr .returnStmt]
  | statementWhile => [.inr .whileStmt]
  | statementBlock => [.inr .block]
  | exprStmt => [.inr .expression, .inl .semicolon]
  | forStmt =>
    [.inl .kwFor, .inl .leftParen, .inr .forInit, .inr .forCond, .inl .semicolon,
     .inr .forIncr, .inl .rightParen, .inr .statement]
  | forInitVar => [.inr .varDecl]
  | forInitExpr => [.inr .exprStmt]
  | forInitEmpty => [.inl .semicolon]
  | forCondSome => [.inr .expression]
  | forCondNone => []
  | forIncrSome => [.inr .expression]
  | forIncrNone => []
  | ifElse =>
    [.inl .kwIf, .inl .leftParen, .inr .expression, .inl .rightParen, .inr .statement,
     .inl .kwElse, .inr .statement]
  | ifThen =>
    [.inl .kwIf, .inl .leftParen, .inr .expression, .inl .rightParen, .inr .statement]
  | printStmt => [.inl .kwPrint, .inr .expression, .inl .semicolon]
  | returnValue => [.inl .kwReturn, .inr .expression, .inl .semicolon]
  | returnBare => [.inl .kwReturn, .inl .semicolon]
  | whileStmt =>
    [.inl .kwWhile, .inl .leftParen, .inr .expression, .inl .rightParen, .inr .statement]
  | blockItems => [.inl .leftBrace, .inr .declarations, .inl .rightBrace]
  | blockEmpty => [.inl .leftBrace, .inl .rightBrace]
  | expression => [.inr .assignment]
  | assignmentTarget => [.inr (.chain .disjunction), .inl .equal, .inr .assignment]
  | assignmentPlain => [.inr (.chain .disjunction)]
  | chainLong l => [.inr (Nonterminal.operand l), .inr (.tail l)]
  | chainShort l => [.inr (Nonterminal.operand l)]
  | tailFirst l op => [.inl op, .inr (Nonterminal.operand l)]
  | tailNext l op => [.inr (.tail l), .inl op, .inr (Nonterminal.operand l)]
  | unaryBang => [.inl .bang, .inr .unary]
  | unaryMinus => [.inl .minus, .inr .unary]
  | unaryCall => [.inr .call]
  | callPrimary => [.inr .primary]
  | callArgs => [.inr .call, .inl .leftParen, .inr .arguments, .inl .rightParen]
  | callEmpty => [.inr .call, .inl .leftParen, .inl .rightParen]
  | callGet => [.inr .call, .inl .dot, .inl .identifier]
  | argumentsOne => [.inr .expression]
  | argumentsMany => [.inr .expression, .inr .moreArguments]
  | moreArgumentsFirst => [.inl .comma, .inr .expression]
  | moreArgumentsNext => [.inr .moreArguments, .inl .comma, .inr .expression]
  | primaryTrue => [.inl .kwTrue]
  | primaryFalse => [.inl .kwFalse]
  | primaryNil => [.inl .kwNil]
  | primaryNumber => [.inl .number]
  | primaryString => [.inl .string]
  | primaryThis => [.inl .kwThis]
  | primarySuper => [.inl .kwSuper, .inl .dot, .inl .identifier]
  | primaryIdentifier => [.inl .identifier]
  | primaryGroup => [.inl .leftParen, .inr .expression, .inl .rightParen]

end Production

def Production.numbered : Production.Sym → Grammar.Symbol
  | .inl t => .terminal t.index
  | .inr n => .nonterminal n.index

/-- The Lox grammar with numbered symbols; production `i` is `Production.all[i]`. -/
def grammar : Grammar where
  terminalCount := Terminal.count
  nonterminalCount := Nonterminal.count
  productions := (Production.all.map fun p =>
    (⟨p.lhs.index, p.rhs.map Production.numbered⟩ : Grammar.Production)).toArray
  start := Nonterminal.start.index
  endMarker := Terminal.eof.index

/-- The productions as an array, for looking up a reduction by number. -/
def productionArray : Array Production := Production.all.toArray

/-- The LALR(1) parse table of Lox. -/
def table : Table := Table.ofGrammar grammar

end Syntax

end Lox
