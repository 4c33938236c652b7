import Lox.Proofs.Activations
import Lox.Proofs.Receivers

/-!
# A `for` loop runs in one frame

The parser writes `for (init; cond; incr) body` as `Syntax.forLoop`: a block holding the
initializer and a `while` loop, whose body is a block holding the body and the increment when
there is one. Resolution keeps that shape (`Resolver.resolveStmt_forLoop`). So what a loop does
comes from blocks, `while` and statement lists, and the equations below spell it out for every
choice of clauses.

An initializer runs once, in a new frame `F` nested in the frame of the loop; the loop without
it then runs in `F` (`Run.exec_forLoop_some`). Each iteration tests the condition in `F`, `true`
when there is none. Without an increment the body runs in `F` itself
(`Run.exec_forLoop_none_none`). With one, each iteration makes a new frame nested in `F`, runs
the body there and then, unless the body returned, the increment
(`Run.exec_forLoop_none_some`). A return leaves the loop without the increment.

`F` is newer than every frame that existed before the loop, and a chain only steps to older
frames, so after the loop nothing reaches it (`Run.forLoop_frame_unreachable`). Every
iteration's frame is nested in the same `F`, so all iterations, and the closures made in them,
read and write the one variable the initializer declared.
-/

namespace Lox

open Syntax

/-- Resolving a `for` loop gives a `for` loop with the same clauses present. -/
theorem Resolver.resolveStmt_forLoop (init : Option Stmt) (cond incr : Option Expr) (body : Stmt)
    (r : Resolver) :
    ∃ init' cond' incr' body',
      ((Resolver.resolveStmt (forLoop init cond incr body)).run r).1 =
        forLoop init' (some cond') incr' body' ∧
      init'.isSome = init.isSome ∧ incr'.isSome = incr.isSome := by
  cases init with
  | none =>
    cases incr with
    | none => exact ⟨none, _, none, _, rfl, rfl, rfl⟩
    | some _ => exact ⟨none, _, some _, _, rfl, rfl, rfl⟩
  | some _ =>
    cases incr with
    | none => exact ⟨some _, _, none, _, rfl, rfl, rfl⟩
    | some _ => exact ⟨some _, _, some _, _, rfl, rfl, rfl⟩

namespace Run

/-- A list of one statement runs as the statement. -/
theorem execList_singleton (fuel depth env : Nat) (st : Stmt) (m : Machine) :
    execList (fuel + 2) depth env [st] m = exec (fuel + 1) (depth + 1) env st m := by
  rw [execList, run_bind]
  cases exec (fuel + 1) (depth + 1) env st m with
  | ok r m' =>
    cases r with
    | normal =>
      show execList (fuel + 1) depth env [] m' = _
      rw [execList]
      · rfl
      · omega
    | returned v => rfl
  | error e m' => rfl

theorem exec_whileLoop (fuel depth env : Nat) (cond : Expr) (body : Stmt) :
    exec (fuel + 1) depth env (.whileLoop cond body) = loop fuel depth env cond body := by
  rw [exec]

theorem exec_expr (fuel depth env : Nat) (e : Expr) :
    exec (fuel + 1) depth env (.expr e) =
      (do let _ ← eval fuel (depth + 1) env e; pure .normal) := by
  rw [exec]

/-- A block of two statements runs in a new frame: the first, then the second unless the first
returned. -/
theorem exec_block_pair (first second : Stmt) (fuel depth env : Nat) (m : Machine) :
    exec (fuel + 4) depth env (.block [first, second]) m =
      (do
        let G ← pushFrame env []
        match ← exec (fuel + 2) (depth + 2) G first with
        | .normal => exec (fuel + 1) (depth + 2) G second
        | r => pure r) m := by
  rw [exec_block, run_bind, run_pushFrame]
  dsimp only
  rw [execList, run_bind, run_bind]
  cases exec (fuel + 2) (depth + 2) m.store.frames.size first _ with
  | ok r m' =>
    cases r with
    | normal => exact execList_singleton _ _ _ _ _
    | returned v => rfl
  | error e m' => rfl

/-- A body followed by an increment runs in a new frame: the body, then the increment unless the
body returned. -/
theorem exec_block_step (body : Stmt) (incr : Expr) (fuel depth env : Nat) (m : Machine) :
    exec (fuel + 4) depth env (.block [body, .expr incr]) m =
      (do
        let G ← pushFrame env []
        match ← exec (fuel + 2) (depth + 2) G body with
        | .normal => do
          let _ ← eval fuel (depth + 3) G incr
          pure Completion.normal
        | r => pure r) m := by
  rw [exec_block_pair, run_bind, run_bind, run_pushFrame]
  dsimp only
  rw [run_bind, run_bind]
  cases exec (fuel + 2) (depth + 2) m.store.frames.size body _ with
  | ok r m' =>
    cases r with
    | normal => exact congrFun (exec_expr _ _ _ _) m'
    | returned v => rfl
  | error e m' => rfl

/-- An initializer runs once, in a new frame nested in the loop's frame, and the loop without it
then runs in that frame. -/
theorem exec_forLoop_some (init : Stmt) (cond incr : Option Expr) (body : Stmt)
    (fuel depth env : Nat) (m : Machine) :
    exec (fuel + 4) depth env (forLoop (some init) cond incr body) m =
      (do
        let F ← pushFrame env []
        match ← exec (fuel + 2) (depth + 2) F init with
        | .normal => exec (fuel + 1) (depth + 2) F (forLoop none cond incr body)
        | r => pure r) m := by
  exact exec_block_pair init (forLoop none cond incr body) fuel depth env m

/-- Without an increment, an iteration tests the condition, `true` when there is none, and runs
the body in the loop's frame itself. -/
theorem exec_forLoop_none_none (cond : Option Expr) (body : Stmt) (fuel depth F : Nat)
    (m : Machine) :
    exec (fuel + 2) depth F (forLoop none cond none body) m =
      (do
        let v ← eval fuel (depth + 1) F (cond.getD (.literal (.bool true)))
        if v.truthy then
          match ← exec fuel (depth + 1) F body with
          | .normal => exec (fuel + 1) depth F (forLoop none cond none body)
          | r => pure r
        else pure .normal) m := by
  have hloop : exec (fuel + 1) depth F (forLoop none cond none body) =
      loop fuel depth F (cond.getD (.literal (.bool true))) body :=
    exec_whileLoop _ _ _ _ _
  show exec (fuel + 2) depth F (.whileLoop (cond.getD (.literal (.bool true))) body) m = _
  rw [exec_whileLoop, loop]
  -- once `hloop` is used the two sides differ at most in which auxiliary `match` they name
  exact hloop ▸ rfl

/-- With an increment, an iteration tests the condition in the loop's frame, makes a new frame
nested in it, runs the body there and, unless the body returned, the increment. -/
theorem exec_forLoop_none_some (cond : Option Expr) (incr : Expr) (body : Stmt)
    (fuel depth F : Nat) (m : Machine) :
    exec (fuel + 6) depth F (forLoop none cond (some incr) body) m =
      (do
        let v ← eval (fuel + 4) (depth + 1) F (cond.getD (.literal (.bool true)))
        if v.truthy then
          let G ← pushFrame F []
          match ← exec (fuel + 2) (depth + 3) G body with
          | .normal => do
            let _ ← eval fuel (depth + 4) G incr
            exec (fuel + 5) depth F (forLoop none cond (some incr) body)
          | r => pure r
        else pure .normal) m := by
  have hloop : exec (fuel + 5) depth F (forLoop none cond (some incr) body) =
      loop (fuel + 4) depth F (cond.getD (.literal (.bool true))) (.block [body, .expr incr]) :=
    exec_whileLoop _ _ _ _ _
  show exec (fuel + 6) depth F
    (.whileLoop (cond.getD (.literal (.bool true))) (.block [body, .expr incr])) m = _
  rw [exec_whileLoop, loop, hloop, run_bind, run_bind]
  cases eval (fuel + 4) (depth + 1) F (cond.getD (.literal (.bool true))) m with
  | ok v m' =>
    dsimp only
    split
    · -- the iteration's frame, then the body and the increment in it
      rw [run_bind, exec_block_step, run_bind, run_bind, run_pushFrame]
      dsimp only
      rw [run_bind, run_bind]
      cases exec (fuel + 2) (depth + 1 + 2) m'.store.frames.size body _ with
      | ok r m₁ =>
        cases r with
        | normal =>
          dsimp only
          rw [run_bind, run_bind]
          cases eval fuel (depth + 1 + 3) m'.store.frames.size incr m₁ with
          | ok u m₂ => rfl
          | error e m₂ => rfl
        | returned u => rfl
      | error e m₁ => rfl
    · rfl
  | error e m' => rfl

/-- A frame pushed on a store is nested in its parent. -/
theorem ancestor_pushWith_self (s : Store) (parent : Nat) (slots : List (String × Value)) :
    (s.pushWith parent slots).2.ancestor s.frames.size 1 = .ok parent := by
  rw [Store.ancestor, Store.frame_pushWith_self]
  rfl

/-- However a loop with an initializer ends, no chain from a frame older than the loop's frame
reaches it: the store stays anchored, and a chain only steps to older frames. -/
theorem forLoop_frame_unreachable (init : Stmt) (cond incr : Option Expr) (body : Stmt)
    (fuel depth env : Nat) (m : Machine) (hm : m.store.Anchored)
    (henv : env < m.store.frames.size) {g : Nat} (hg : g < m.store.frames.size) (d : Nat) :
    (final ((exec fuel depth env (forLoop (some init) cond incr body)).run m)).store.ancestor g d ≠
      .ok m.store.frames.size := by
  have hend := ((anchorsAt fuel).exec depth env (forLoop (some init) cond incr body)).final_of_run
    hm henv
  intro ha
  have hle := hend.1.ancestor_le ha
  omega

end Run

/-- How a `for` loop runs, for every choice of clauses, once the parser has written it as blocks
and a `while` loop; resolution keeps that shape. An initializer runs once, in a new frame `F`
nested in the loop's frame, and the loop without it then runs in `F`. Each iteration tests the
condition there, `true` when there is none, and stops when it is falsy. Otherwise it runs the
body, in `F` itself without an increment, and with one in a new frame nested in `F`, followed
there by the increment unless the body returned; a return leaves the loop at once. However the
loop ends, no chain from a frame older than `F` reaches `F`, so nothing after the loop sees what
the initializer declared. Every iteration's frame is nested in `F`, and a write through a chain
that reaches `F` is read through every other such chain: the closures of all iterations read and
write one loop variable, and see its last value. -/
theorem for_loops_run_in_one_frame :
    (∀ init cond incr body (r : Resolver), ∃ init' cond' incr' body',
      ((Resolver.resolveStmt (forLoop init cond incr body)).run r).1 =
        forLoop init' (some cond') incr' body' ∧
      init'.isSome = init.isSome ∧ incr'.isSome = incr.isSome) ∧
    (∀ init cond incr body fuel depth env (m : Machine),
      Run.exec (fuel + 4) depth env (forLoop (some init) cond incr body) m =
        (do
          let F ← Run.pushFrame env []
          match ← Run.exec (fuel + 2) (depth + 2) F init with
          | .normal => Run.exec (fuel + 1) (depth + 2) F (forLoop none cond incr body)
          | r => pure r) m) ∧
    (∀ cond body fuel depth F (m : Machine),
      Run.exec (fuel + 2) depth F (forLoop none cond none body) m =
        (do
          let v ← Run.eval fuel (depth + 1) F (cond.getD (.literal (.bool true)))
          if v.truthy then
            match ← Run.exec fuel (depth + 1) F body with
            | .normal => Run.exec (fuel + 1) depth F (forLoop none cond none body)
            | r => pure r
          else pure .normal) m) ∧
    (∀ cond incr body fuel depth F (m : Machine),
      Run.exec (fuel + 6) depth F (forLoop none cond (some incr) body) m =
        (do
          let v ← Run.eval (fuel + 4) (depth + 1) F (cond.getD (.literal (.bool true)))
          if v.truthy then
            let G ← Run.pushFrame F []
            match ← Run.exec (fuel + 2) (depth + 3) G body with
            | .normal => do
              let _ ← Run.eval fuel (depth + 4) G incr
              Run.exec (fuel + 5) depth F (forLoop none cond (some incr) body)
            | r => pure r
          else pure .normal) m) ∧
    (∀ parent (m : Machine),
      Run.pushFrame parent [] m =
        .ok m.store.frames.size { m with store := (m.store.pushWith parent []).2 } ∧
      (m.store.pushWith parent []).2.ancestor m.store.frames.size 1 = .ok parent) ∧
    (∀ init cond incr body fuel depth env (m : Machine), m.store.Anchored →
      env < m.store.frames.size → ∀ g < m.store.frames.size, ∀ d,
        (Run.final ((Run.exec fuel depth env (forLoop (some init) cond incr body)).run m)).store.ancestor
          g d ≠ .ok m.store.frames.size) ∧
    (∀ (x y : Token) F g₁ g₂ d₁ d₂ v (m m' : Machine), m.store.Anchored →
      g₁ < m.store.frames.size → y.lexeme = x.lexeme →
      m.store.ancestor g₁ d₁ = .ok F → m.store.ancestor g₂ d₂ = .ok F →
      Run.assignTo x (some d₁) g₁ v m = .ok () m' → Run.lookUp y (some d₂) g₂ m' = .ok v m') :=
  ⟨Resolver.resolveStmt_forLoop, Run.exec_forLoop_some, Run.exec_forLoop_none_none,
    Run.exec_forLoop_none_some,
    fun parent m => ⟨Run.run_pushFrame parent [] m, Run.ancestor_pushWith_self _ _ _⟩,
    fun init cond incr body fuel depth env m hm henv _ hg d =>
      Run.forLoop_frame_unreachable init cond incr body fuel depth env m hm henv hg d,
    fun _ _ _ _ _ _ _ _ _ _ hm hg hxy h₁ h₂ ha =>
      Run.assignTo_lookUp_shared hm hg hxy ha (by rw [h₁, h₂])⟩

/-- The loop frame of `for (var i = 0; false;) {}` run from a fresh machine is reached from no
older frame, and in `siblingFrames` the counter `a` assigned in frame 1 is read back through the
block nested in it, the way a closure made in a loop body reads its loop's variable. -/
theorem loop_frame_is_fresh_and_shared :
    (Run.final ((Run.exec 6 0 Store.globals
        (forLoop (some (.varDecl ⟨.terminal .identifier, "i", .null, 1, 10⟩
          (some (.literal (.num 0))))) (some (.literal (.bool false))) none (.block []))).run
        {})).store.ancestor Store.globals 0 ≠ .ok 1 ∧
    Run.lookUp ⟨.terminal .identifier, "a", .null, 1, 1⟩ (some 1) 3
        { store := siblingFrames.define 1 "a" (.num 3) } =
      .ok (.num 3) { store := siblingFrames.define 1 "a" (.num 3) } := by
  obtain ⟨-, -, -, -, -, hfresh, hshared⟩ := for_loops_run_in_one_frame
  have hassign : Run.assignTo ⟨.terminal .identifier, "a", .null, 1, 1⟩ (some 0) 1 (.num 3)
      { store := siblingFrames } = .ok () { store := siblingFrames.define 1 "a" (.num 3) } := rfl
  exact ⟨hfresh _ _ _ _ 6 0 Store.globals {} Store.anchored_initial (by decide) 0 (by decide) 0,
    hshared _ _ 1 1 3 0 1 _ _ _ siblingFrames_anchored (by decide) rfl rfl rfl hassign⟩

end Lox
