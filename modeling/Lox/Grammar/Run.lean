import Lox.Grammar.Table

/-!
Running a parse table over a word. The stack holds states with the values built for what has
been read. A terminal is fed by reducing as long as the table says so and then shifting it; the
end marker is fed by reducing until the end state is on top. A reduction builds the value of its
left side from the values of its right side and may record issues, which are kept in the order
the reductions happen: children before parents, left before right.
-/

namespace Lox

namespace Table

/-- A parser configuration: the stack, innermost first, and the issues recorded so far. -/
structure Config (α ε : Type) where
  stack : List (Nat × α)
  issues : Array ε

inductive Fed (α ε : Type) where
  | shifted (c : Config α ε)
  | accepted (value : α) (issues : Array ε)
  | rejected (state : Nat)

/-- The state on top of the stack; the start state when the stack is empty. -/
def Config.top {α ε : Type} (c : Config α ε) : Nat := (c.stack.head?.map (·.1)).getD 0

/-- Feeds terminal `t` with value `v`: reduce while the table says reduce, then shift, or
accept at the end marker. `fuel` bounds the reductions. -/
def feedWith {α ε : Type} (tbl : Table) (build : Nat → List α → α × List ε) (t : Nat) (v : α)
    (atEnd : Bool) : Nat → Config α ε → Fed α ε
  | 0, c => .rejected c.top
  | fuel + 1, c =>
    let s := c.top
    match tbl.action? s t with
    | none => .rejected s
    | some (.shift s') => .shifted { c with stack := (s', v) :: c.stack }
    | some (.reduce p) =>
      let (lhs, n) := tbl.shapes[p]?.getD (0, 0)
      let (w, notes) := build p ((c.stack.take n).reverse.map (·.2))
      let rest := c.stack.drop n
      let below := (rest.head?.map (·.1)).getD 0
      match tbl.goto? below lhs with
      | none => .rejected s
      | some s' =>
        let issues := c.issues ++ notes.toArray
        if atEnd && s' == tbl.endState then .accepted w issues
        else feedWith tbl build t v atEnd fuel ⟨(s', w) :: rest, issues⟩

/-- Feeds one terminal, with room for any run of reductions a table can make. -/
def feed {α ε : Type} (tbl : Table) (build : Nat → List α → α × List ε) (t : Nat) (v : α)
    (atEnd : Bool) (c : Config α ε) : Fed α ε :=
  tbl.feedWith build t v atEnd ((c.stack.length + 2) * (tbl.stateCount + 1) * (tbl.shapes.size + 1)) c

inductive Reading (α ε : Type) where
  | consumed (c : Config α ε)
  | stopped (position : Nat) (state : Nat)

/-- Feeds the terminals of a word in order, from a position on. -/
def feedWord {α ε : Type} (tbl : Table) (build : Nat → List α → α × List ε) :
    Nat → List (Nat × α) → Config α ε → Reading α ε
  | _, [], c => .consumed c
  | i, (t, v) :: rest, c =>
    match tbl.feed build t v false c with
    | .shifted c' => tbl.feedWord build (i + 1) rest c'
    | .accepted _ _ => .stopped i c.top
    | .rejected s => .stopped i s

def Config.initial {α ε : Type} : Config α ε := ⟨[], #[]⟩

end Table

end Lox
