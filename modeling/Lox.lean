import Lox.Json.Basic
import Lox.Json.Parse
import Lox.Json.Print
import Lox.Number.Shortest
import Lox.Number.Text
import Lox.Number.Read
import Lox.Text.Quoted
import Lox.Json.Repr
import Lox.Token.Basic
import Lox.Token.Lexer
import Lox.Grammar.Basic
import Lox.Grammar.Automaton
import Lox.Grammar.Lookahead
import Lox.Grammar.Table
import Lox.Grammar.Run
import Lox.Diagnostic
import Lox.Syntax.Basic
import Lox.Syntax.Grammar
import Lox.Syntax.Parse
import Lox.Tree.Basic
import Lox.Tree.Json
import Lox.Tree.Sexpr
import Lox.Tree.Program
import Lox.Scope.Resolve
import Lox.Value
import Lox.Store
import Lox.Eval
import Lox.Store.Cursor
import Lox.Session
import Lox.Cli.Arguments
import Lox.Cli
import Lox.Uncaught
import Lox.Main
import Lox.Proofs.MaximalMunch
import Lox.Proofs.ParserOutput
import Lox.Proofs.DocumentRoundTrip
import Lox.Proofs.Automaton
import Lox.Proofs.ViablePrefix
import Lox.Proofs.GrammarShape
import Lox.Proofs.ScopeResolution
import Lox.Proofs.Frames
import Lox.Proofs.FrameSafety
import Lox.Proofs.ReservedNames
import Lox.Proofs.SourceHygiene
import Lox.Proofs.Receivers
import Lox.Proofs.Returns
import Lox.Proofs.Initializers
import Lox.Proofs.Globals
import Lox.Proofs.Activations
import Lox.Proofs.FirstFault
import Lox.Proofs.Placement
import Lox.Proofs.ShortestDecimal
import Lox.Proofs.NumberText
import Lox.Proofs.ForLoops
import Lox.Proofs.BalancedScopes
import Lox.Proofs.NearestBinding
