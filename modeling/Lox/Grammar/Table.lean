import Lox.Grammar.Lookahead

/-!
The LALR(1) parse table of a grammar. In each state a terminal with a transition is shifted;
otherwise a complete item whose lookahead holds the terminal is reduced. Where both apply the
shift wins, which settles the one conflict of the usual dangling-else kind. The terminals a state
accepts are those with an action, shifted or reduced, so a reduction hidden behind a shift still
counts. The end state, reached from the start state over the start nonterminal, accepts.
-/

namespace Lox

namespace Grammar

/-- What the parser does in a state on a terminal. -/
inductive Action where
  | shift (state : Nat)
  | reduce (production : Nat)
  deriving Repr, BEq, DecidableEq, Inhabited

end Grammar

structure Table where
  actions : Array (Array (Option Grammar.Action))
  gotos : Array (Array (Option Nat))
  -- The state after the start nonterminal, where the input is accepted.
  endState : Nat
  shapes : Array (Nat × Nat)
  terminalCount : Nat
  deriving Inhabited

namespace Table

open Grammar

/-- The actions of one state of an augmented grammar's automaton. -/
def stateActions (g : Grammar) (a : Automaton) (la : Lookaheads) (s : Nat) :
    Array (Option Action) :=
  let items := a.closures[s]?.getD #[]
  let reduceOn := fun (t : Nat) =>
    (List.range items.size).findSome? fun i =>
      match items[i]? with
      | some item =>
        if g.complete item && item.production != g.productions.size - 1 &&
            holds (la.get s i) t then some (Action.reduce item.production)
        else none
      | none => none
  (Array.range g.terminalCount).map fun t =>
    match a.target? s (.terminal t) with
    | some s' => some (Action.shift s')
    | none => reduceOn t

def ofGrammar (g0 : Grammar) : Table :=
  let g := g0.augmented
  let a := Automaton.ofAugmented g
  let la := Lookaheads.ofAutomaton g a
  { actions := (Array.range a.closures.size).map (stateActions g a la)
    gotos := (Array.range a.closures.size).map fun s =>
      (Array.range g0.nonterminalCount).map fun n => a.target? s (.nonterminal n)
    endState := (a.target? 0 (.nonterminal g0.start)).getD 0
    shapes := g0.productions.map fun p => (p.lhs, p.rhs.length)
    terminalCount := g0.terminalCount }

def action? (tbl : Table) (s t : Nat) : Option Action := (tbl.actions[s]?.bind (·[t]?)).join

def goto? (tbl : Table) (s n : Nat) : Option Nat := (tbl.gotos[s]?.bind (·[n]?)).join

/-- The terminals a state has an action for, in increasing order. -/
def expected (tbl : Table) (s : Nat) : List Nat :=
  (List.range tbl.terminalCount).filter fun t => (tbl.action? s t).isSome

def stateCount (tbl : Table) : Nat := tbl.actions.size

end Table

end Lox
