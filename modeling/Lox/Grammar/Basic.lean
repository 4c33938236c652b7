/-!
Context-free grammars with numbered symbols, the form the LR construction works on. Terminals
and nonterminals are numbered from zero; a production rewrites one nonterminal to a list of
symbols. `Grammar.augmented` adds a fresh root nonterminal with the single production
`root → start`, so that accepting a sentence is reaching a state after `start`.
-/

namespace Lox

namespace Grammar

inductive Symbol where
  | terminal (t : Nat)
  | nonterminal (n : Nat)
  deriving Repr, BEq, DecidableEq, Hashable, Inhabited

/-- A production `lhs → rhs`. -/
structure Production where
  lhs : Nat
  rhs : List Symbol
  deriving Repr, Inhabited

end Grammar

/-- A context-free grammar with numbered symbols. -/
structure Grammar where
  -- Terminals are `0, …, terminalCount - 1`.
  terminalCount : Nat
  -- Nonterminals are `0, …, nonterminalCount - 1`.
  nonterminalCount : Nat
  productions : Array Grammar.Production
  start : Nat
  endMarker : Nat

namespace Grammar

/-- The grammar with a fresh root nonterminal and the production `root → start` added last. -/
def augmented (g : Grammar) : Grammar :=
  { g with
    nonterminalCount := g.nonterminalCount + 1
    productions := g.productions.push ⟨g.nonterminalCount, [.nonterminal g.start]⟩ }

def root (g : Grammar) : Nat := g.nonterminalCount

/-- The number of the root production in the augmented grammar. -/
def rootProduction (g : Grammar) : Nat := g.productions.size

/-- The production with a number, or an empty one past the end. -/
def production (g : Grammar) (p : Nat) : Production := g.productions[p]?.getD ⟨0, []⟩

def rhs (g : Grammar) (p : Nat) : List Symbol := (g.production p).rhs

/-- The numbers of the productions of each nonterminal, in order. -/
def productionsOf (g : Grammar) : Array (List Nat) :=
  let empty : Array (List Nat) := Array.replicate g.nonterminalCount []
  let filled := (List.range g.productions.size).foldl
    (fun acc p => acc.modify (g.production p).lhs (· ++ [p])) empty
  filled

end Grammar

end Lox
