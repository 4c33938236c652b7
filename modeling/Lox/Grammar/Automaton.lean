import Lox.Grammar.Basic
import Std.Data.HashMap

/-!
The LR(0) automaton of a grammar. An item is a production with a dot in its right side; a state
is a kernel of items, its closure adds the items `B → · γ` for each nonterminal `B` that stands
after a dot, and the transition on a symbol `X` moves the dot over `X` in every item that allows
it. The states are all kernels reachable from `root → · start`, found breadth first, so state `0`
is the start state.
-/

namespace Lox

namespace Grammar

/-- An LR(0) item: a production and how many symbols of its right side have been read. -/
structure Item where
  production : Nat
  dot : Nat
  deriving Repr, BEq, DecidableEq, Hashable, Inhabited

/-- The order kernels are kept in: by production, then by dot. -/
def Item.before (a b : Item) : Bool :=
  a.production < b.production || (a.production == b.production && a.dot ≤ b.dot)

/-- The symbol after the dot, if the item is not complete. -/
def next? (g : Grammar) (i : Item) : Option Symbol := (g.rhs i.production)[i.dot]?

/-- The symbols after the one after the dot. -/
def afterNext (g : Grammar) (i : Item) : List Symbol := (g.rhs i.production).drop (i.dot + 1)

def complete (g : Grammar) (i : Item) : Bool := i.dot ≥ (g.rhs i.production).length

/-- The nonterminals reachable by expansion from a queue, each once, in discovery order;
`fuel` bounds the queue steps. -/
def expansions (g : Grammar) (byLhs : Array (List Nat)) :
    Nat → List Nat → Array Bool → List Nat → List Nat
  | 0, _, _, acc => acc.reverse
  | _, [], _, acc => acc.reverse
  | fuel + 1, n :: queue, seen, acc =>
    if seen[n]?.getD true then expansions g byLhs fuel queue seen acc
    else
      let found := (byLhs[n]?.getD []).filterMap fun p =>
        match (g.rhs p).head? with
        | some (.nonterminal m) => some m
        | _ => none
      expansions g byLhs fuel (queue ++ found) (seen.set! n true) (n :: acc)

/-- The closure of a kernel: the kernel, then the start items of the productions of every
nonterminal reachable after a dot. -/
def closure (g : Grammar) (byLhs : Array (List Nat)) (kernel : List Item) : Array Item :=
  let initial := kernel.filterMap fun i =>
    match g.next? i with
    | some (.nonterminal n) => some n
    | _ => none
  let reached := g.expansions byLhs (initial.length + g.productions.size + 1) initial
    (Array.replicate g.nonterminalCount false) []
  let added := reached.flatMap fun n => (byLhs[n]?.getD []).map fun p => (⟨p, 0⟩ : Item)
  (kernel ++ added.filter fun i => !kernel.contains i).toArray

/-- The kernel reached from a closure on a symbol, sorted. -/
def gotoKernel (g : Grammar) (items : Array Item) (x : Symbol) : List Item :=
  (items.toList.filterMap fun i =>
    if g.next? i == some x then some (⟨i.production, i.dot + 1⟩ : Item) else none).mergeSort
    Item.before

/-- The symbols after a dot in a closure, each once, in order of first appearance. -/
def symbolsAfterDot (g : Grammar) (items : Array Item) : List Symbol :=
  items.toList.foldl (fun acc i =>
    match g.next? i with
    | some x => if acc.contains x then acc else acc ++ [x]
    | none => acc) []

end Grammar

/-- The LR(0) automaton: for each state its kernel, its closure and its transitions. -/
structure Automaton where
  kernels : Array (List Grammar.Item)
  closures : Array (Array Grammar.Item)
  transitions : Array (List (Grammar.Symbol × Nat))
  deriving Inhabited

namespace Automaton

open Grammar

def target? (a : Automaton) (s : Nat) (x : Symbol) : Option Nat :=
  ((a.transitions[s]?.getD []).find? (·.1 == x)).map (·.2)

/-- A state with a kernel, added with no transitions yet. -/
def addState (g : Grammar) (byLhs : Array (List Nat)) (a : Automaton) (kernel : List Item) :
    Automaton :=
  { kernels := a.kernels.push kernel
    closures := a.closures.push (g.closure byLhs kernel)
    transitions := a.transitions.push [] }

/-- Explores the states from number `i` on, adding the targets of their transitions; `fuel`
bounds the number of states explored. -/
def explore (g : Grammar) (byLhs : Array (List Nat)) :
    Nat → Nat → Automaton → Std.HashMap (List Item) Nat → Automaton
  | 0, _, a, _ => a
  | fuel + 1, i, a, index =>
    match a.closures[i]? with
    | none => a
    | some items =>
      let step := fun (acc : Automaton × Std.HashMap (List Item) Nat × List (Symbol × Nat))
          (x : Symbol) =>
        let (a, index, edges) := acc
        let k := g.gotoKernel items x
        match index.get? k with
        | some j => (a, index, edges ++ [(x, j)])
        | none =>
          let j := a.kernels.size
          (addState g byLhs a k, index.insert k j, edges ++ [(x, j)])
      let (a, index, edges) := (g.symbolsAfterDot items).foldl step (a, index, [])
      explore g byLhs fuel (i + 1) { a with transitions := a.transitions.set! i edges } index

/-- The number of items of a grammar; a state is a set of them, so there are at most
`2 ^ itemCount` states. -/
def itemCount (g : Grammar) : Nat :=
  g.productions.foldl (fun n p => n + p.rhs.length + 1) 0

/-- The LR(0) automaton of an augmented grammar, from the root production's start item. -/
def ofAugmented (g : Grammar) : Automaton :=
  let byLhs := g.productionsOf
  let startKernel : List Item := [⟨g.productions.size - 1, 0⟩]
  let a0 := addState g byLhs ⟨#[], #[], #[]⟩ startKernel
  explore g byLhs (Nat.pow 2 (itemCount g)) 0 a0 ((∅ : Std.HashMap (List Item) Nat).insert startKernel 0)

end Automaton

end Lox
