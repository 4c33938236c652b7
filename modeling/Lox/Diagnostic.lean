import Lox.Token.Basic

/-!
Diagnostics as they are reported. A static error is reported at a token, or at a line when
scanning failed; a runtime error is reported with the line of the token where it arose.
-/

namespace Lox

inductive Diagnostic where
  | atToken (tok : Token) (message : String)
  | atLine (line : Nat) (message : String)
  | runtime (line : Nat) (message : String)
  deriving Inhabited

namespace Diagnostic

/-- The reported text: `[line L] Error at 'x': M`, `[line L] Error at end: M` for the
end-of-input token, `[line L] Error: M` without a token, and `M` then `[line L]` for an error at
run time. -/
def text : Diagnostic → String
  | .atToken tok m =>
    if tok.kind == .terminal .eof then s!"[line {tok.line}] Error at end: {m}"
    else s!"[line {tok.line}] Error at '{tok.lexeme}': {m}"
  | .atLine l m => s!"[line {l}] Error: {m}"
  | .runtime l m => s!"{m}\n[line {l}]"

/-- Whether the diagnostic is a static error. -/
def isStatic : Diagnostic → Bool
  | .runtime _ _ => false
  | _ => true

end Diagnostic

end Lox
