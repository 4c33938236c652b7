import Lox.Grammar.Automaton

/-!
LALR(1) lookaheads. Sets of terminals are bit masks. A nonterminal is nullable when some
production of it derives the empty word, and its first set holds the terminals that begin a
word it derives. The lookahead of an item in a state of the LR(0) automaton is the least
solution of three rules: the root item of the start state has the end marker; an item
`A → α · X β` passes its lookahead to `A → α X · β` in the state reached on `X`; and an item
`A → α · B β` gives each start item `B → · γ` of its state the first set of `β`, and its own
lookahead too when `β` is nullable. This is the union of the LR(1) lookaheads of all LR(1)
states with the same core, which is what LALR(1) means.
-/

namespace Lox

namespace Grammar

def bit (t : Nat) : Nat := 1 <<< t

def holds (mask t : Nat) : Bool := mask.testBit t

/-- One round of the nullable rule over all productions. -/
def nullableRound (g : Grammar) (known : Array Bool) : Array Bool :=
  g.productions.foldl (fun acc p =>
    if p.rhs.all (fun x => match x with | .nonterminal n => acc[n]?.getD false | .terminal _ => false)
    then acc.set! p.lhs true else acc) known

/-- The nullable nonterminals, by rounds until nothing changes; `fuel` bounds the rounds. -/
def nullableFrom (g : Grammar) : Nat → Array Bool → Array Bool
  | 0, known => known
  | fuel + 1, known =>
    let next := g.nullableRound known
    if next == known then known else g.nullableFrom fuel next

/-- The nullable nonterminals. Each round that changes something adds one, so rounds past the
number of nonterminals change nothing. -/
def nullable (g : Grammar) : Array Bool :=
  g.nullableFrom (g.nonterminalCount + 1) (Array.replicate g.nonterminalCount false)

/-- The first set of a word and whether it is nullable, from first sets and nullable
nonterminals. -/
def firstOfWord (nulls : Array Bool) (firsts : Array Nat) : List Symbol → Nat × Bool
  | [] => (0, true)
  | .terminal t :: _ => (bit t, false)
  | .nonterminal n :: rest =>
    let here := firsts[n]?.getD 0
    if nulls[n]?.getD false then
      let (more, e) := firstOfWord nulls firsts rest
      (here ||| more, e)
    else (here, false)

/-- One round of the first-set rule over all productions. -/
def firstRound (g : Grammar) (nulls : Array Bool) (known : Array Nat) : Array Nat :=
  g.productions.foldl (fun acc p =>
    let (f, _) := firstOfWord nulls acc p.rhs
    acc.modify p.lhs (· ||| f)) known

/-- The first sets, by rounds until nothing changes; `fuel` bounds the rounds. -/
def firstFrom (g : Grammar) (nulls : Array Bool) : Nat → Array Nat → Array Nat
  | 0, known => known
  | fuel + 1, known =>
    let next := g.firstRound nulls known
    if next == known then known else g.firstFrom nulls fuel next

/-- The first sets. Each round that changes something adds a terminal to some set. -/
def firstSets (g : Grammar) (nulls : Array Bool) : Array Nat :=
  g.firstFrom nulls (g.nonterminalCount * g.terminalCount + 1)
    (Array.replicate g.nonterminalCount 0)

end Grammar

/-- The lookahead masks of all items of all states, in one array: the items of state `s` start
at `offsets[s]`, in closure order. -/
structure Lookaheads where
  offsets : Array Nat
  masks : Array Nat
  deriving Inhabited

namespace Lookaheads

open Grammar

def get (la : Lookaheads) (s i : Nat) : Nat := la.masks[(la.offsets[s]?.getD 0) + i]?.getD 0

/-- Masks that are given outright, and the pairs `(from, to)` along which masks flow. -/
structure Flow where
  given : Array Nat
  edges : Array (Nat × Nat)

def itemFlow (g : Grammar) (a : Automaton) (nulls : Array Bool) (firsts : Array Nat)
    (offsets : Array Nat) (s : Nat) (items : Array Item) (flow : Flow) (i : Nat) : Flow :=
  let here := (offsets[s]?.getD 0) + i
  match items[i]? with
  | none => flow
  | some item =>
    match g.next? item with
    | none => flow
    | some x =>
      let moved : Item := ⟨item.production, item.dot + 1⟩
      let flow :=
        match a.target? s x with
        | none => flow
        | some t =>
          match (a.closures[t]?.getD #[]).idxOf? moved with
          | none => flow
          | some j => { flow with edges := flow.edges.push (here, (offsets[t]?.getD 0) + j) }
      match x with
      | .terminal _ => flow
      | .nonterminal b =>
        let (f, e) := firstOfWord nulls firsts (g.afterNext item)
        (List.range items.size).foldl (fun flow k =>
          match items[k]? with
          | some start =>
            if start.dot == 0 && (g.production start.production).lhs == b then
              let there := (offsets[s]?.getD 0) + k
              let flow := { flow with given := flow.given.modify there (· ||| f) }
              if e then { flow with edges := flow.edges.push (here, there) } else flow
            else flow
          | none => flow) flow

def flowOf (g : Grammar) (a : Automaton) (nulls : Array Bool) (firsts : Array Nat)
    (offsets : Array Nat) (total : Nat) : Flow :=
  (List.range a.closures.size).foldl (fun flow s =>
    let items := a.closures[s]?.getD #[]
    (List.range items.size).foldl (itemFlow g a nulls firsts offsets s items) flow)
    ⟨(Array.replicate total 0).modify 0 (· ||| bit g.endMarker), #[]⟩

def flowRound (edges : Array (Nat × Nat)) (masks : Array Nat) : Array Nat :=
  edges.foldl (fun acc (src, dst) => acc.modify dst (· ||| (acc[src]?.getD 0))) masks

/-- Flows until nothing changes; `fuel` bounds the rounds. -/
def settle (edges : Array (Nat × Nat)) : Nat → Array Nat → Array Nat
  | 0, masks => masks
  | fuel + 1, masks =>
    let next := flowRound edges masks
    if next == masks then masks else settle edges fuel next

/-- The LALR(1) lookaheads of an augmented grammar's automaton. Item `0` of state `0` is the
root item. Each round that changes something adds a terminal to some mask. -/
def ofAutomaton (g : Grammar) (a : Automaton) : Lookaheads :=
  let nulls := g.nullable
  let firsts := g.firstSets nulls
  let (offsets, total) := a.closures.foldl
    (fun (acc : Array Nat × Nat) c => (acc.1.push acc.2, acc.2 + c.size)) (#[], 0)
  let flow := flowOf g a nulls firsts offsets total
  ⟨offsets, settle flow.edges (total * g.terminalCount + 1) flow.given⟩

end Lookaheads

end Lox
