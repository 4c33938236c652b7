import Lox.Proofs.Receivers

/-!
# Calling a class

Calling a class evaluates the arguments first and then checks their number against the class's
arity, which is that of the `init` its method lookup finds, inherited or not, or `0`: a wrong
number fails at the call's closing parenthesis, before any instance is made. Otherwise the call
makes a new instance, binds `init` to it in a new frame holding `this`, runs it with the
arguments, and gives the instance (`Run.eval_call_klass`, `Run.invoke_klass`).

An initializer called in any other way (`i.init()`, `super.init()`, a stored reference) gives
the receiver its frame binds, read after the body ends, and not what the body returned. For
hygienic code (`Stmt.Hygienic`), which never assigns `this`, that is the receiver it was bound
to (`Run.callClosure_initializer`). Reading the receiver back from the frame breaks the promise
that an initializer always hands back its instance as soon as the body assigns `this`, which only
a document can do: a direct call then gives the assigned value
(`assigned_this_escapes_the_initializer`).
-/

namespace Lox

namespace Run

variable {fuel depth env : Nat} {paren : Token}

/-- Calling a class: once the callee and the arguments are evaluated, a wrong number of arguments
fails with the arity error at the closing parenthesis, from the state the arguments left; a
right number invokes the class from that state, with only the debug lines added. -/
theorem eval_call_klass {callee : Expr} {args : List Expr} {m m₁ m₂ : Machine} {C : Klass}
    {vs : List Value} (hc : eval fuel (depth + 1) env callee m = .ok (.klass C) m₁)
    (ha : evalArgs fuel (depth + 1) env args m₁ = .ok vs m₂) :
    (vs.length ≠ C.arity → eval (fuel + 1) depth env (.call callee paren args) m =
        .error (.error (.arityMismatch paren C.arity vs.length)) m₂) ∧
    (vs.length = C.arity → ∃ m₃ : Machine, m₃.store = m₂.store ∧
        eval (fuel + 1) depth env (.call callee paren args) m =
          invoke fuel depth paren (.klass C) vs m₃) := by
  -- the callee is a class, whose arity the argument count is checked against
  have hcall : ∀ k : List Value → Run Value,
      (evalArgs fuel (depth + 1) env args >>= k) m₁ = k vs m₂ := fun k => by
    rw [run_bind, ha]
  have harity : arity? (.klass C) = some C.arity := rfl
  refine ⟨fun hne => ?_, fun heq => ?_⟩
  · rw [eval, run_bind, hc]
    dsimp only
    rw [harity]
    dsimp only
    rw [hcall, if_pos (by simpa using hne)]
    rfl
  · rw [eval, run_bind, hc]
    dsimp only
    rw [harity]
    dsimp only
    rw [hcall, if_neg (by simpa using heq)]
    refine ⟨_, ?_, rfl⟩
    show (if m₂.level ≥ 3 then { m₂ with log := _ } else m₂).store = m₂.store
    split <;> rfl

/-- Invoking a class makes a new instance of it, numbered after every instance there is, and
gives it; when the class finds an `init`, that method first runs with the arguments, bound to
the instance in a new frame holding `this`. -/
theorem invoke_klass (fuel depth : Nat) (paren : Token) (C : Klass) (vs : List Value)
    (m : Machine) :
    invoke (fuel + 1) depth paren (.klass C) vs m =
      match C.findMethod "init" with
      | some init =>
        (callClosure fuel (depth + 3) paren { init with frame := m.store.frames.size } vs >>=
            fun _ => pure (Value.object m.store.objects.size C))
          { m with store := (m.store.newObject.2.pushWith init.frame
            [("this", .object m.store.objects.size C)]).2 }
      | none => .ok (.object m.store.objects.size C) { m with store := m.store.newObject.2 } := by
  rw [invoke]
  cases C.findMethod "init" <;> rfl

/-- Binding a method to a receiver gives the same method, initializer or not, closing over a new
frame that binds `this` to the receiver. -/
theorem bindMethod_run (c : Closure) (r : Value) (m : Machine) :
    bindMethod c r m = .ok { c with frame := m.store.frames.size }
      { m with store := (m.store.pushWith c.frame [("this", r)]).2 } :=
  rfl

/-- The methods of a declared class are initializers exactly when they are named `init`. -/
theorem methodTable_initializers (ms : List FunDecl) (env : Nat) :
    ∀ p ∈ methodTable ms env, p.2.isInitializer = (p.2.decl.name.lexeme == "init") :=
  methodTable_forall (R := fun c => c.isInitializer = (c.decl.name.lexeme == "init")) fun _ _ =>
    rfl

/-- An initializer whose frame binds `this` to `i`, run on hygienic code from a hygienic store,
gives `i` whenever its body ends, normally or by returning any value. -/
theorem callClosure_initializer {c : Closure} {args : List Value} {m m' : Machine}
    {r : Completion} {i : Value} (hinit : c.isInitializer = true)
    (hthis : (m.store.frame c.frame).slots.lookup "this" = some i) (hc : c.decl.Hygienic)
    (hargs : ∀ v ∈ args, v.Hygienic) (hm : m.store.Hygienic) (hdepth : depth + 1 ≤ frameLimit)
    (hbody : execList fuel (depth + 1) m.store.frames.size c.decl.body
      { m with store := (m.store.pushWith c.frame
        ((c.decl.params.zip args).map fun (p, v) => (p.lexeme, v))).2 } = .ok r m') :
    callClosure (fuel + 1) depth paren c args m = .ok i m' := by
  let slots := (c.decl.params.zip args).map fun (p, v) => (p.lexeme, v)
  -- the body keeps what every frame binds to `this`, the initializer's frame included
  have hpushed : (m.store.pushWith c.frame slots).2.Hygienic :=
    hm.pushWith fun _ hp => hargs _ (mem_params_zip hp)
  have hkeeps :=
    ((keptAt fuel).execList (depth + 1) m.store.frames.size c.decl.body hc.body).ok_of_run
      hbody hpushed
  have hthis' : (m'.store.frame c.frame).slots.lookup "this" = some i :=
    hkeeps.1.reserved c.frame "this" i (.inl rfl)
      ((Store.Keeps.pushWith m.store c.frame slots).reserved c.frame "this" i (.inl rfl) hthis)
  have hget : m'.store.getAt c.frame 0 "this" = .ok i :=
    Store.getAt_eq_ok.mpr ⟨c.frame, rfl, hthis'⟩
  rw [callClosure, if_neg (by omega)]
  show (pushFrame c.frame slots >>= fun frame => execList fuel (depth + 1) frame c.decl.body >>= _)
    m = _
  rw [run_bind]
  show (execList fuel (depth + 1) m.store.frames.size c.decl.body >>= _) _ = _
  erw [run_bind, hbody]
  dsimp only
  rw [if_pos hinit]
  show lift (m'.store.getAt c.frame 0 "this") m' = _
  rw [hget]
  rfl

end Run

/-- Class calls and initializers. A class called with arguments evaluates them all and then
fails with `Expected N arguments but got M.` at the call's closing parenthesis exactly when their
number `M` is not the class's arity `N`, from the state the arguments left and before any
instance exists; otherwise it makes a new instance of the class, runs the `init` the class finds
bound to it, and gives the instance. Binding keeps a method an initializer, and a class's methods
are initializers exactly when named `init`. An initializer bound to a receiver, called in any
way on hygienic code from a hygienic store, gives the receiver whenever its body ends, whatever
the body returned; every line a session runs from source keeps the store so. -/
theorem class_calls_construct_and_initializers_return_their_receiver (fuel depth : Nat)
    (paren : Token) :
    (∀ env callee args (m m₁ m₂ : Machine) C vs,
      Run.eval fuel (depth + 1) env callee m = .ok (.klass C) m₁ →
      Run.evalArgs fuel (depth + 1) env args m₁ = .ok vs m₂ →
      (vs.length ≠ C.arity → Run.eval (fuel + 1) depth env (.call callee paren args) m =
          .error (.error (.arityMismatch paren C.arity vs.length)) m₂) ∧
      (vs.length = C.arity → ∃ m₃ : Machine, m₃.store = m₂.store ∧
          Run.eval (fuel + 1) depth env (.call callee paren args) m =
            Run.invoke fuel depth paren (.klass C) vs m₃)) ∧
    (∀ n k, (RuntimeError.arityMismatch paren n k).token = paren ∧
      (RuntimeError.arityMismatch paren n k).message = s!"Expected {n} arguments but got {k}.") ∧
    (∀ C : Klass, C.arity = match C.findMethod "init" with
      | some m => m.decl.params.length
      | none => 0) ∧
    (∀ C vs (m : Machine),
      Run.invoke (fuel + 1) depth paren (.klass C) vs m =
        match C.findMethod "init" with
        | some init =>
          (Run.callClosure fuel (depth + 3) paren { init with frame := m.store.frames.size } vs >>=
              fun _ => pure (Value.object m.store.objects.size C))
            { m with store := (m.store.newObject.2.pushWith init.frame
              [("this", .object m.store.objects.size C)]).2 }
        | none => .ok (.object m.store.objects.size C) { m with store := m.store.newObject.2 }) ∧
    (∀ (c : Closure) r (m : Machine), Run.bindMethod c r m =
      .ok { c with frame := m.store.frames.size }
        { m with store := (m.store.pushWith c.frame [("this", r)]).2 }) ∧
    (∀ ms env, ∀ p ∈ Run.methodTable ms env,
      p.2.isInitializer = (p.2.decl.name.lexeme == "init")) ∧
    (∀ (c : Closure) args (m m' : Machine) r i, c.isInitializer = true →
      (m.store.frame c.frame).slots.lookup "this" = some i → c.decl.Hygienic →
      (∀ v ∈ args, v.Hygienic) → m.store.Hygienic → depth + 1 ≤ Run.frameLimit →
      Run.execList fuel (depth + 1) m.store.frames.size c.decl.body
          { m with store := (m.store.pushWith c.frame
            ((c.decl.params.zip args).map fun (p, v) => (p.lexeme, v))).2 } = .ok r m' →
      Run.callClosure (fuel + 1) depth paren c args m = .ok i m') ∧
    ∀ (s : Session) lines, s.machine.store.Hygienic → s.KeepsReserved (s.runLines lines) :=
  ⟨fun _ _ _ _ _ _ _ _ hc ha => Run.eval_call_klass hc ha,
    fun _ _ => ⟨rfl, rfl⟩,
    fun _ => rfl,
    Run.invoke_klass fuel depth paren,
    Run.bindMethod_run,
    Run.methodTable_initializers,
    fun _ _ _ _ _ _ hinit hthis hc hargs hm hdepth hbody =>
      Run.callClosure_initializer hinit hthis hc hargs hm hdepth hbody,
    fun _ lines hs => Session.runLines_keepsReserved hs lines⟩

/-- A class `A` whose `init` takes nothing and does nothing, declared at the top level. -/
def classWithInit : Klass := .mk "A" none [("init", ⟨emptyMethod "init", Store.globals, true⟩)]

/-- The globals once `A` was declared. -/
def declaredA : Store := Store.initial.define Store.globals "A" (.klass classWithInit)

/-- The store once `A().init` was bound: instance `0` of `A`, and frame `1` binding `this` to it. -/
def initBound : Store :=
  (declaredA.newObject.2.pushWith Store.globals [("this", .object 0 classWithInit)]).2

/-- `A()` with no arguments invokes `A` from the state the call began in, and `init` bound to an
instance and called directly gives that instance back. -/
theorem calling_a_class_invokes_its_initializer :
    (∃ m₃ : Machine, m₃.store = declaredA ∧
      Run.eval 2 0 Store.globals (.call (.var ⟨.terminal .identifier, "A", .null, 1, 1⟩ none)
        ⟨.terminal .rightParen, ")", .null, 1, 3⟩ []) { store := declaredA } =
        Run.invoke 1 0 ⟨.terminal .rightParen, ")", .null, 1, 3⟩ (.klass classWithInit) [] m₃) ∧
    Run.callClosure 2 0 ⟨.terminal .rightParen, ")", .null, 1, 3⟩
        ⟨emptyMethod "init", 1, true⟩ [] { store := initBound } =
      .ok (.object 0 classWithInit) { store := (initBound.pushWith 1 []).2 } ∧
    (Session.new 0).KeepsReserved ((Session.new 0).runLines []) := by
  obtain ⟨hcall, -, -, -, -, -, hinit, hsession⟩ :=
    class_calls_construct_and_initializers_return_their_receiver 1 0
      ⟨.terminal .rightParen, ")", .null, 1, 3⟩
  have hclass : Run.eval 1 1 Store.globals (.var ⟨.terminal .identifier, "A", .null, 1, 1⟩ none)
      { store := declaredA } = .ok (.klass classWithInit) { store := declaredA } := by
    simp [Run.eval]
    rfl
  have hdecl : (emptyMethod "init").Hygienic := by
    simp [emptyMethod, FunDecl.Hygienic, Token.Declarable, Stmt.AllHygienic]
  have hklass : classWithInit.Hygienic := by simpa [classWithInit, Klass.Hygienic] using hdecl
  have hhyg : initBound.Hygienic :=
    ((Store.hygienic_initial.define (v := .klass classWithInit) hklass).newObject).pushWith
      (by simpa [Value.Hygienic] using hklass)
  have hbody : Run.execList 1 1 2 [] { store := (initBound.pushWith 1 []).2 } =
      .ok .normal { store := (initBound.pushWith 1 []).2 } := by
    simp [Run.execList]
    rfl
  refine ⟨(hcall Store.globals _ [] _ _ { store := declaredA } classWithInit [] hclass
      (by simp [Run.evalArgs]; rfl)).2 rfl,
    hinit ⟨emptyMethod "init", 1, true⟩ [] _ _ .normal (.object 0 classWithInit) rfl rfl
      hdecl (by simp) hhyg (by decide) hbody,
    hsession _ [] (by simpa [Session.new] using Store.hygienic_initial)⟩

/-- A class whose initializer assigns `this`: one instance is constructed and printed, and
another has its initializer called directly and the result printed. -/
def initializerReassigned : List Stmt :=
  let ident (text : String) : Token := { kind := .terminal .identifier, lexeme := text }
  let thisTok : Token := { kind := .terminal .kwThis, lexeme := "this" }
  let paren : Token := { kind := .terminal .rightParen, lexeme := ")" }
  let construct : Expr := .call (.var (ident "A") none) paren []
  [.classDecl (ident "A") none
     [.mk (ident "init") [] [.expr (.assign thisTok (.literal (.str "x")) (some 1))]],
   .print construct,
   .print (.call (.get construct (ident "init")) paren [])]

/-- A tree that assigns `this` in an initializer, resolved as the resolver resolves it: the
construction still gives the instance, but a direct call of the initializer gives the string it
assigned, not the instance it was bound to. -/
theorem assigned_this_escapes_the_initializer :
    Stmt.ListResolvedIn [] initializerReassigned ∧ ¬ Stmt.AllHygienic initializerReassigned ∧
      (match (Run.program initializerReassigned).run {} with
        | .ok _ m => m.output
        | .error _ m => m.output) = #["A instance\n", "x\n"] := by
  refine ⟨?_, ?_, by decide +kernel⟩
  · simp [initializerReassigned, Stmt.ListResolvedIn, Stmt.ResolvedIn, FunDecl.AllResolvedIn,
      FunDecl.ResolvedIn, Expr.ResolvedIn, Expr.AllResolvedIn, Refers, methodScopes,
      putInnermost, paramScope, Stmt.after, Stmt.declared?]
  · simp [initializerReassigned, Stmt.AllHygienic, Stmt.Hygienic, FunDecl.AllHygienic,
      FunDecl.Hygienic, Expr.Hygienic, Token.Declarable]

end Lox
