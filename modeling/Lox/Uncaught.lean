import Lox.Session
import Lox.Tree.Sexpr
import Lox.Text.Quoted

/-!
How a failure that no Lox rule reports ends a run. Loose trees and broken frames can drive the
interpreter past the checks the language itself makes; such a run stops with a kind and a
message instead of a diagnostic. This module names both for every escape of the session, of the
tree decoder and of the printer. The texts are those the interpreter prints as the last line of
its crash report, so they quote the interpreter's own class names.
-/

namespace Lox

/-- A run that stopped outside the language: the kind of failure and its message. -/
structure Uncaught where
  kind : String
  message : String
  deriving Repr, BEq, Inhabited

namespace Uncaught

/-- The last line of the crash report: `kind: message`. -/
def text (u : Uncaught) : String := u.kind ++ ": " ++ u.message

/-- The type name of a JSON value as the decoder sees it. -/
def jsonType : Json → String
  | .null => "NoneType"
  | .bool _ => "bool"
  | .int _ => "int"
  | .float _ => "float"
  | .str _ => "str"
  | .arr _ => "list"
  | .obj _ => "dict"

def shapeName : Shape → String
  | .nothing => "NoneType"
  | .list => "list"
  | .node k => k.name

/-- The class of a tree shape as written in a message. -/
def shapeClass : Shape → String
  | .node k => "<class 'pylox.ast." ++ k.name ++ "'>"
  | s => "<class '" ++ shapeName s ++ "'>"

def valueType : Value → String
  | .nil => "NoneType"
  | .bool _ => "bool"
  | .num _ => "float"
  | .str _ => "str"
  | .native _ => "BuiltinFunction"
  | .function _ => "LoxFunction"
  | .klass _ => "LoxClass"
  | .object _ _ => "LoxInstance"
  | .data (.arr _) => "list"
  | .data _ => "dict"

def keyError (k : String) : Uncaught := ⟨"KeyError", Quoted.quote k⟩

/-- A missing attribute of a value of the given type. -/
def noAttribute (type part : String) : Uncaught :=
  ⟨"AttributeError", "'" ++ type ++ "' object has no attribute '" ++ part ++ "'"⟩

/-- Iteration over a value of the given type that is not a list. -/
def notIterable (type : String) : Uncaught := ⟨"TypeError", "'" ++ type ++ "' object is not iterable"⟩

def ofDecode : DecodeError → Uncaught
  | .notNode => ⟨"TypeError", "Invalid AST object"⟩
  | .unknownKind given =>
    ⟨"ValueError", "Unknown AST node type: " ++ ((given.map Json.plainText).getD "None")⟩
  | .missingKey k => keyError k
  | .tokenNotObject (.arr _) => ⟨"TypeError", "list indices must be integers or slices, not str"⟩
  | .tokenNotObject (.str _) => ⟨"TypeError", "string indices must be integers, not 'str'"⟩
  | .tokenNotObject other => ⟨"TypeError", "'" ++ jsonType other ++ "' object is not subscriptable"⟩
  | .paramsNotList j => notIterable (jsonType j)
  | .tooLarge => ⟨"OverflowError", "int too large to convert to float"⟩

def ofFault : Fault → Uncaught
  | .noFrame part => noAttribute "NoneType" part
  | .unbound name => keyError name

def ofEscape : Escape → Uncaught
  | .decode e => ofDecode e
  | .misplaced (.unexpected s) _ =>
    ⟨"NotImplementedError", "resolve: unexpected node type " ++ shapeClass s⟩
  | .misplaced (.notIterable s) _ => notIterable (shapeName s)
  | .misplaced (.noAttribute s part) _ => noAttribute (shapeName s) part
  | .fault f => ofFault f
  | .noMethods v => noAttribute (valueType v) "find_method"
  | .exhausted => ⟨"RecursionError", "maximum recursion depth exceeded"⟩

def ofPrint : PrintError → Uncaught
  | .unexpected s => ⟨"NotImplementedError", "print: unexpected node type " ++ shapeClass s⟩
  | .notIterable s => notIterable (shapeName s)
  | .notSpreadable s =>
    ⟨"TypeError",
      "AstPrinter.parenthesize() argument after * must be an iterable, not " ++ shapeName s⟩
  | .noName s => noAttribute (shapeName s) "name"

end Uncaught

end Lox
