import Lox.Proofs.FrameSafety

/-!
# A `return` never leaves its function

A statement ends either normally or by returning a value, and blocks, conditionals and loops
hand a return on to the statement list they are in, which stops there; only a call turns it
into a value, the value of the call (or its receiver, for an initializer). A top-level statement
that returned would cut its block short, and the run would drop the value.

The resolver rules this out: it reports a `return` met while it resolves no function, so a
program that resolves without an error has every `return` inside the body of a function or
method it declares (`Stmt.Returnless`, `Program.resolve_returnless`). A statement of that shape,
run in any frame from any machine, ends normally whenever it ends without a failure
(`Run.normalAt`).
-/

namespace Lox

mutual

/-- A statement with no `return` outside the bodies of the functions and methods it declares. -/
def Stmt.Returnless : Stmt → Prop
  | .returnStmt _ _ => False
  | .block b => Stmt.AllReturnless b
  | .ifElse _ t e =>
    t.Returnless ∧
      match e with
      | some e => e.Returnless
      | none => True
  | .whileLoop _ b => b.Returnless
  | .expr _ | .print _ | .varDecl _ _ | .funDecl _ | .classDecl _ _ _ => True

/-- Statements with no `return` outside the functions they declare. -/
def Stmt.AllReturnless : List Stmt → Prop
  | [] => True
  | s :: rest => s.Returnless ∧ Stmt.AllReturnless rest

end

theorem Stmt.returnless_ifElse {c : Expr} {t : Stmt} {e : Option Stmt} :
    (Stmt.ifElse c t e).Returnless ↔ t.Returnless ∧ ∀ e' ∈ e, e'.Returnless := by
  cases e <;> simp [Stmt.Returnless]

theorem Stmt.allReturnless_iff {ss : List Stmt} :
    Stmt.AllReturnless ss ↔ ∀ s ∈ ss, s.Returnless := by
  induction ss with
  | nil => simp [Stmt.AllReturnless]
  | cons s rest ih => simp [Stmt.AllReturnless, ih]

namespace Run

/-- A step that never ends by returning: whenever it ends without a failure, it ends
normally. -/
def Normal (x : Run Completion) : Prop := ∀ m c m', x m = .ok c m' → c = .normal

variable {α : Type}

theorem Normal.pure_normal : Normal (pure .normal) := fun _ _ _ h => by
  cases h
  rfl

theorem Normal.throw {e : Failure} : Normal (throw e) := fun _ _ _ h => by cases h

/-- A step whose last part never ends by returning. -/
theorem Normal.bind {x : Run α} {f : α → Run Completion} (hf : ∀ a, Normal (f a)) :
    Normal (x >>= f) := by
  intro m c m' h
  rw [run_bind] at h
  cases hx : x m with
  | ok a m₁ =>
    rw [hx] at h
    exact hf a m₁ c m' h
  | error e m₁ =>
    rw [hx] at h
    cases h

/-- A statement that ends normally followed by what runs after a normal end. -/
theorem Normal.bind_normal {x : Run Completion} {f : Completion → Run Completion}
    (hx : Normal x) (hf : Normal (f .normal)) : Normal (x >>= f) := by
  intro m c m' h
  rw [run_bind] at h
  cases hr : x m with
  | ok r m₁ =>
    rw [hr] at h
    rw [hx m r m₁ hr] at h
    exact hf m₁ c m' h
  | error e m₁ =>
    rw [hr] at h
    cases h

theorem defineClass_normal (env : Nat) (name : Token) (sup : Option Klass)
    (methods : List FunDecl) : Normal (defineClass env name sup methods) := by
  unfold defineClass
  refine Normal.bind fun _ => Normal.bind fun methodEnv => ?_
  dsimp only
  refine Normal.bind fun m => ?_
  split
  · exact Normal.bind fun _ => Normal.bind fun _ => Normal.pure_normal
  · exact Normal.bind fun _ => Normal.bind fun _ => Normal.pure_normal

/-- Every statement function of the evaluator, given `fuel` steps and run on statements whose
returns sit in functions, never ends by returning. -/
structure NormalAt (fuel : Nat) : Prop where
  exec : ∀ depth env (st : Stmt), st.Returnless → Normal (Run.exec fuel depth env st)
  execList : ∀ depth env ss, Stmt.AllReturnless ss → Normal (Run.execList fuel depth env ss)
  loop : ∀ depth env cond (body : Stmt), body.Returnless →
    Normal (Run.loop fuel depth env cond body)

theorem normalAt_zero : NormalAt 0 where
  exec _ _ _ _ := by rw [exec]; exact Normal.throw
  execList _ _ _ _ := by rw [execList]; exact Normal.throw
  loop _ _ _ _ _ := by rw [loop]; exact Normal.throw

variable {fuel : Nat}

theorem NormalAt.exec_succ (h : NormalAt fuel) (depth env : Nat) (st : Stmt)
    (hs : st.Returnless) : Normal (Run.exec (fuel + 1) depth env st) := by
  cases st with
  | expr e =>
    rw [Run.exec]
    exact Normal.bind fun _ => Normal.pure_normal
  | print e =>
    rw [Run.exec]
    exact Normal.bind fun _ => Normal.bind fun _ => Normal.pure_normal
  | varDecl name init =>
    cases init <;>
    · rw [Run.exec]
      exact Normal.bind fun _ => Normal.bind fun _ => Normal.bind fun _ => Normal.pure_normal
  | block body =>
    rw [Run.exec]
    exact Normal.bind fun f => h.execList _ f body hs
  | ifElse cond thenBranch elseBranch =>
    obtain ⟨ht, he⟩ := Stmt.returnless_ifElse.mp hs
    -- the step's equations split on the else branch; unfold it whole instead
    rw [Run.exec.eq_def]
    dsimp only
    refine Normal.bind fun v => Normal.bind fun _ => ?_
    split
    · exact h.exec _ _ thenBranch ht
    · cases elseBranch with
      | none => exact Normal.pure_normal
      | some e => exact h.exec _ _ e (he e rfl)
  | whileLoop cond body =>
    rw [Run.exec]
    exact h.loop _ _ cond body hs
  | funDecl f =>
    rw [Run.exec]
    exact Normal.bind fun _ => Normal.bind fun _ => Normal.pure_normal
  | returnStmt keyword value => exact hs.elim
  | classDecl name superclass methods =>
    cases superclass with
    | none =>
      rw [Run.exec]
      exact Normal.bind fun sup => defineClass_normal env name sup methods
    | some e =>
      rw [Run.exec]
      refine Normal.bind fun v => ?_
      split <;> exact Normal.bind fun sup => defineClass_normal env name sup methods

theorem NormalAt.execList_succ (h : NormalAt fuel) (depth env : Nat) :
    ∀ ss, Stmt.AllReturnless ss → Normal (Run.execList (fuel + 1) depth env ss)
  | [], _ => by
    rw [Run.execList]
    · exact Normal.pure_normal
    · exact Nat.succ_ne_zero fuel
  | st :: rest, ⟨hst, hrest⟩ => by
    rw [Run.execList]
    -- a statement that ends normally lets the list go on
    exact Normal.bind_normal (h.exec _ _ st hst) (h.execList _ _ rest hrest)

theorem NormalAt.loop_succ (h : NormalAt fuel) (depth env : Nat) (cond : Expr) (body : Stmt)
    (hb : body.Returnless) : Normal (Run.loop (fuel + 1) depth env cond body) := by
  rw [Run.loop]
  refine Normal.bind fun v => ?_
  split
  · exact Normal.bind_normal (h.exec _ _ body hb) (h.loop _ _ cond body hb)
  · exact Normal.pure_normal

theorem NormalAt.succ (h : NormalAt fuel) : NormalAt (fuel + 1) where
  exec := h.exec_succ
  execList := h.execList_succ
  loop := h.loop_succ

/-- With any number of steps, statements whose returns sit in functions never end by
returning. -/
theorem normalAt : ∀ fuel, NormalAt fuel
  | 0 => normalAt_zero
  | fuel + 1 => (normalAt fuel).succ

/-- A call whose body ends by returning a value gives that value, or, for an initializer, the
receiver its frame binds. -/
theorem callClosure_returned {fuel depth : Nat} {paren : Token} {c : Closure} {args : List Value}
    {m m' : Machine} {v : Value} (hdepth : depth + 1 ≤ frameLimit)
    (h : execList fuel (depth + 1) m.store.frames.size c.decl.body
      { m with store := (m.store.pushWith c.frame
        ((c.decl.params.zip args).map fun (p, v) => (p.lexeme, v))).2 } = .ok (.returned v) m') :
    callClosure (fuel + 1) depth paren c args m =
      if c.isInitializer then lift (m'.store.getAt c.frame 0 "this") m' else .ok v m' := by
  rw [callClosure, if_neg (by omega)]
  show (pushFrame c.frame _ >>= fun frame => execList fuel (depth + 1) frame c.decl.body >>= _) m = _
  rw [run_bind]
  show (execList fuel (depth + 1) m.store.frames.size c.decl.body >>= _) _ = _
  erw [run_bind, h]
  dsimp only
  split <;> rfl

end Run

namespace Resolver

/-- A resolution step run while resolving code of the function kind `K`: it ends resolving code
of that kind again, keeps the errors reported before it, and, when it reports nothing new,
returns a value with the property `P`. -/
structure Within {α : Type} (x : M α) (K : FunctionKind) (P : α → Prop) : Prop where
  kind : ∀ r : Resolver, r.function = K → (x.run r).2.function = K
  errors : ∀ r : Resolver, r.function = K → r.errors.size ≤ (x.run r).2.errors.size
  sound : ∀ r : Resolver, r.function = K → (x.run r).2.errors.size = r.errors.size →
    P (x.run r).1

variable {α β : Type} {K : FunctionKind}

theorem Within.bind {x : M α} {f : α → M β} {P : α → Prop} {Q : β → Prop}
    (hx : Within x K P) (hf : ∀ a, Within (f a) K fun b => P a → Q b) :
    Within (x >>= f) K Q := by
  constructor
  · intro r hr
    rw [run_bind]
    exact (hf _).kind _ (hx.kind r hr)
  · intro r hr
    rw [run_bind]
    exact Nat.le_trans (hx.errors r hr) ((hf _).errors _ (hx.kind r hr))
  · intro r hr hsize
    rw [run_bind] at hsize ⊢
    have h₁ := hx.errors r hr
    have h₂ := (hf (x.run r).1).errors _ (hx.kind r hr)
    exact (hf _).sound _ (hx.kind r hr) (by omega) (hx.sound r hr (by omega))

theorem Within.pure {a : α} {Q : α → Prop} (h : Q a) : Within (Pure.pure a : M α) K Q :=
  ⟨fun _ hr => hr, fun _ _ => Nat.le_refl _, fun _ _ _ => h⟩

theorem Within.mono {x : M α} {P Q : α → Prop} (hx : Within x K P) (h : ∀ a, P a → Q a) :
    Within x K Q :=
  ⟨hx.kind, hx.errors, fun r hr hsize => h _ (hx.sound r hr hsize)⟩

/-- A step whose result the rest does not need. -/
theorem Within.after {x : M α} {f : α → M β} {P : α → Prop} {Q : β → Prop}
    (hx : Within x K P) (hf : ∀ a, Within (f a) K Q) : Within (x >>= f) K Q :=
  hx.bind fun a => (hf a).mono fun _ h _ => h

theorem Within.map {x : M α} {f : α → β} {P : α → Prop} (hx : Within x K P) :
    Within (f <$> x) K fun b => ∃ a, P a ∧ b = f a :=
  ⟨hx.kind, hx.errors, fun r hr hsize => ⟨_, hx.sound r hr hsize, rfl⟩⟩

/-- A step that changes neither the function kind nor the errors. -/
theorem Within.of_keeps {x : M α}
    (h : ∀ r, (x.run r).2.function = r.function ∧ (x.run r).2.errors = r.errors) :
    Within x K fun _ => True :=
  ⟨fun r hr => (h r).1.trans hr, fun r _ => Nat.le_of_eq (congrArg Array.size (h r).2).symm,
    fun _ _ _ => trivial⟩

theorem Within.get_bind {f : Resolver → M α} {Q : α → Prop}
    (h : ∀ r : Resolver, r.function = K → Within (f r) K Q) : Within (get >>= f) K Q :=
  ⟨fun r hr => (h r hr).kind r hr, fun r hr => (h r hr).errors r hr,
    fun r hr hsize => (h r hr).sound r hr hsize⟩

theorem Within.modify_bind {f : Resolver → Resolver} {k : PUnit → M α} {Q : α → Prop}
    (hf : ∀ r, (f r).function = r.function ∧ (f r).errors = r.errors) (hk : Within (k ⟨⟩) K Q) :
    Within (modify f >>= k) K Q :=
  (Within.of_keeps (x := modify f) hf).bind fun _ => hk.mono fun _ h _ => h

/-- A report is an error: nothing after it counts as resolved. -/
theorem report_within (e : ScopeError) : Within (report e) K fun _ => False := by
  refine ⟨fun _ hr => hr, fun r _ => ?_, fun r _ hsize => ?_⟩
  · show r.errors.size ≤ (r.errors.push e).size
    simp
  · change (r.errors.push e).size = r.errors.size at hsize
    simp at hsize

theorem Within.ite_report {c : Prop} [Decidable c] {e : ScopeError} {k : M α} {Q : α → Prop}
    (hk : Within k K Q) : Within (if c then report e >>= fun _ => k else k) K Q := by
  split
  · exact (report_within e).bind fun _ => hk.mono fun _ h _ => h
  · exact hk

theorem beginScope_within (names : Scope) : Within (beginScope names) K fun _ => True :=
  Within.of_keeps fun _ => ⟨rfl, rfl⟩

theorem endScope_within : Within endScope K fun _ => True :=
  Within.of_keeps fun _ => ⟨rfl, rfl⟩

theorem define_within (name : Token) : Within (define name) K fun _ => True := by
  unfold define
  refine Within.get_bind fun r _ => ?_
  split
  · exact Within.pure trivial
  · exact Within.of_keeps fun _ => ⟨rfl, rfl⟩

theorem declare_within (name : Token) : Within (declare name) K fun _ => True := by
  unfold declare
  refine Within.get_bind fun r _ => ?_
  split
  · exact Within.pure trivial
  · split
    · exact (report_within _).mono fun _ _ => trivial
    · exact Within.of_keeps fun _ => ⟨rfl, rfl⟩

theorem resolveLocal_within (name : Token) : Within (resolveLocal name) K fun _ => True := by
  refine Within.of_keeps fun r => ?_
  simp only [resolveLocal, run_bind]
  split <;> exact ⟨rfl, rfl⟩

theorem withFunction_run (kind : FunctionKind) (x : M α) (r : Resolver) :
    (withFunction kind x).run r =
      ((x.run { r with function := kind }).1,
        { (x.run { r with function := kind }).2 with function := r.function }) :=
  rfl

/-- A function body resolved as code of its own kind, after which the kind is restored. -/
theorem Within.withFunction {x : M α} {P : α → Prop} (kind : FunctionKind)
    (hx : Within x kind P) : Within (withFunction kind x) K P := by
  refine ⟨fun r hr => ?_, fun r _ => ?_, fun r _ hsize => ?_⟩ <;> rw [withFunction_run]
  · exact hr
  · exact hx.errors { r with function := kind } rfl
  · rw [withFunction_run] at hsize
    exact hx.sound { r with function := kind } rfl hsize

theorem params_within (params : List Token) :
    Within (forIn params PUnit.unit fun p _ => do
        declare p
        define p
        pure (ForInStep.yield PUnit.unit)) K fun _ => True := by
  induction params with
  | nil => exact Within.pure trivial
  | cons p rest ih =>
    simp only [List.forIn_cons, bind_assoc, pure_bind]
    exact (declare_within p).after fun _ => (define_within p).after fun _ => ih

mutual

theorem resolveExpr_within : ∀ e : Expr, Within (resolveExpr e) K fun _ => True
  | .literal _ => by
    rw [resolveExpr]
    exact Within.pure trivial
  | .grouping e => by
    rw [resolveExpr]
    exact (resolveExpr_within e).after fun _ => Within.pure trivial
  | .var _ _ => by
    rw [resolveExpr]
    refine Within.get_bind fun r _ => ?_
    have hlocal : ∀ name : Token, Within (do return Expr.var name (← resolveLocal name)) K
        fun _ => True := fun name =>
      (resolveLocal_within name).after fun _ => Within.pure trivial
    dsimp only
    split
    · split
      · exact (report_within _).after fun _ => hlocal _
      · exact hlocal _
    · exact hlocal _
  | .assign _ v _ => by
    rw [resolveExpr]
    exact (resolveExpr_within v).after fun _ => (resolveLocal_within _).after fun _ =>
      Within.pure trivial
  | .unary _ e => by
    rw [resolveExpr]
    exact (resolveExpr_within e).after fun _ => Within.pure trivial
  | .binary l _ r => by
    rw [resolveExpr]
    exact (resolveExpr_within l).after fun _ => (resolveExpr_within r).after fun _ =>
      Within.pure trivial
  | .logical l _ r => by
    rw [resolveExpr]
    exact (resolveExpr_within l).after fun _ => (resolveExpr_within r).after fun _ =>
      Within.pure trivial
  | .call c _ args => by
    rw [resolveExpr, mapM_attach_resolveExpr]
    exact (resolveExpr_within c).after fun _ => (resolveExprs_within args).after fun _ =>
      Within.pure trivial
  | .get o _ => by
    rw [resolveExpr]
    exact (resolveExpr_within o).after fun _ => Within.pure trivial
  | .set o _ v => by
    rw [resolveExpr]
    exact (resolveExpr_within v).after fun _ => (resolveExpr_within o).after fun _ =>
      Within.pure trivial
  | .thisRef _ _ => by
    rw [resolveExpr]
    refine Within.get_bind fun r _ => ?_
    split
    · exact (report_within _).after fun _ => Within.pure trivial
    · exact (resolveLocal_within _).after fun _ => Within.pure trivial
  | .superMethod _ _ _ => by
    rw [resolveExpr]
    refine Within.get_bind fun r _ => ?_
    dsimp only
    split
    · exact (report_within _).after fun _ => (resolveLocal_within _).after fun _ =>
        Within.pure trivial
    · split
      · exact (report_within _).after fun _ => (resolveLocal_within _).after fun _ =>
          Within.pure trivial
      · exact (resolveLocal_within _).after fun _ => Within.pure trivial

theorem resolveExprs_within : ∀ es : List Expr, Within (es.mapM resolveExpr) K fun _ => True
  | [] => by
    rw [List.mapM_nil]
    exact Within.pure trivial
  | e :: rest => by
    rw [List.mapM_cons]
    exact (resolveExpr_within e).after fun _ => (resolveExprs_within rest).after fun _ =>
      Within.pure trivial

end

mutual

/-- Resolving a statement keeps the function kind, and what it resolves without an error while
it resolves no function has its returns in functions. -/
theorem resolveStmt_returnless : ∀ (s : Stmt) {K : FunctionKind},
    Within (resolveStmt s) K fun s' => K = .none → s'.Returnless
  | .expr e, _ => by
    rw [resolveStmt]
    exact (resolveExpr_within e).after fun _ => Within.pure fun _ => trivial
  | .print e, _ => by
    rw [resolveStmt]
    exact (resolveExpr_within e).after fun _ => Within.pure fun _ => trivial
  | .varDecl n i, _ => by
    rw [resolveStmt]
    refine (declare_within n).after fun _ => ?_
    cases i with
    | none =>
      simp only [pure_bind]
      exact (define_within n).after fun _ => Within.pure fun _ => trivial
    | some e =>
      exact (resolveExpr_within e).map.after fun _ => (define_within n).after fun _ =>
        Within.pure fun _ => trivial
  | .block b, _ => by
    rw [resolveStmt]
    exact (beginScope_within []).after fun _ => (resolveStmts_returnless b).bind fun _ =>
      endScope_within.after fun _ => Within.pure id
  | .ifElse c t e, _ => by
    rw [resolveStmt]
    refine (resolveExpr_within c).after fun _ => (resolveStmt_returnless t).bind fun _ => ?_
    cases e with
    | none => exact Within.pure fun ht hK => ⟨ht hK, trivial⟩
    | some e =>
      exact (resolveStmt_returnless e).bind fun _ =>
        Within.pure fun he ht hK => ⟨ht hK, he hK⟩
  | .whileLoop c b, _ => by
    rw [resolveStmt]
    exact (resolveExpr_within c).after fun _ => (resolveStmt_returnless b).bind fun _ =>
      Within.pure id
  | .funDecl f, _ => by
    rw [resolveStmt]
    exact (declare_within f.name).after fun _ => (define_within f.name).after fun _ =>
      (resolveFunction_within f .function).after fun _ => Within.pure fun _ => trivial
  | .returnStmt k v, K => by
    rw [resolveStmt]
    refine Within.get_bind fun r hr => ?_
    -- what follows the check of the kind only resolves the returned value
    have hvalue : Within (match v with
        | some e => do
          if (r.function == FunctionKind.initializer) = true then
            report (.initializerReturn k)
          return .returnStmt k (some (← resolveExpr e))
        | none => (pure (.returnStmt k none) : M Stmt)) K fun _ => True := by
      cases v with
      | none => exact Within.pure trivial
      | some e =>
        dsimp only
        exact Within.ite_report ((resolveExpr_within e).after fun _ => Within.pure trivial)
    dsimp only
    split
    · -- a return outside every function is reported
      exact (report_within _).bind fun _ => hvalue.mono fun _ _ hf => hf.elim
    · next hne =>
      exact hvalue.mono fun _ _ hK => absurd (by rw [hr, hK]; rfl) hne
  | .classDecl n sup ms, K => by
    -- a class declaration moves scopes and class kinds; only its methods resolve functions
    have hmethods : Within (resolveMethods ms) K fun _ => True := resolveMethods_within ms
    cases sup with
    | none =>
      rw [resolveStmt_classDecl_none]
      refine Within.get_bind fun r _ => ?_
      exact Within.modify_bind (fun _ => ⟨rfl, rfl⟩) <| (declare_within n).after fun _ =>
        (define_within n).after fun _ => (beginScope_within _).after fun _ =>
          hmethods.after fun _ => endScope_within.after fun _ =>
            Within.modify_bind (fun _ => ⟨rfl, rfl⟩) (Within.pure fun _ => trivial)
    | some s =>
      rw [resolveStmt_classDecl_some]
      refine Within.get_bind fun r _ => ?_
      have hself : Within (selfCheck n s) K fun _ => True := by
        unfold selfCheck
        split
        · split
          · exact (report_within _).mono fun _ _ => trivial
          · exact Within.pure trivial
        · exact Within.pure trivial
      exact Within.modify_bind (fun _ => ⟨rfl, rfl⟩) <| (declare_within n).after fun _ =>
        (define_within n).after fun _ => hself.after fun _ =>
          Within.modify_bind (fun _ => ⟨rfl, rfl⟩) <| (resolveExpr_within s).after fun _ =>
            (beginScope_within _).after fun _ => (beginScope_within _).after fun _ =>
              hmethods.after fun _ => endScope_within.after fun _ => endScope_within.after fun _ =>
                Within.modify_bind (fun _ => ⟨rfl, rfl⟩) (Within.pure fun _ => trivial)

theorem resolveStmts_returnless : ∀ (ss : List Stmt) {K : FunctionKind},
    Within (resolveStmts ss) K fun ss' => K = .none → Stmt.AllReturnless ss'
  | [], _ => by
    rw [resolveStmts]
    exact Within.pure fun _ => trivial
  | s :: rest, _ => by
    rw [resolveStmts]
    exact (resolveStmt_returnless s).bind fun _ => (resolveStmts_returnless rest).bind fun _ =>
      Within.pure fun hrest hs hK => ⟨hs hK, hrest hK⟩

/-- Resolving a function resolves its body as code of its own kind and keeps the kind around
it. -/
theorem resolveFunction_within : ∀ (f : FunDecl) (kind : FunctionKind) {K : FunctionKind},
    Within (resolveFunction f kind) K fun _ => True
  | .mk _ ps b, kind, _ => by
    rw [resolveFunction]
    exact Within.withFunction kind <| (beginScope_within []).after fun _ =>
      (params_within ps).after fun _ => (resolveStmts_returnless b).after fun _ =>
        endScope_within.after fun _ => Within.pure trivial

theorem resolveMethods_within : ∀ (fs : List FunDecl) {K : FunctionKind},
    Within (resolveMethods fs) K fun _ => True
  | [], _ => by
    rw [resolveMethods]
    exact Within.pure trivial
  | f :: rest, _ => by
    rw [resolveMethods]
    exact (resolveFunction_within f _).after fun _ => (resolveMethods_within rest).after fun _ =>
      Within.pure trivial

end

end Resolver

/-- A program that resolves without an error has every `return` inside a function or method it
declares. -/
theorem Program.resolve_returnless {p : Program} (h : p.resolve.errors = []) :
    Stmt.AllReturnless p.resolve.program := by
  have hwithin := Resolver.resolveStmts_returnless p (K := .none)
  rcases hrun : (Resolver.resolveStmts p).run {} with ⟨p', r⟩
  have hnone : r.errors.size = 0 := by
    simp only [Program.resolve, hrun] at h
    simpa using congrArg List.length h
  have hsound := hwithin.sound {} rfl (by rw [hrun]; exact hnone)
  rw [hrun] at hsound
  simpa [Program.resolve, hrun] using hsound rfl

/-- A `return` never escapes its function. A program that resolves without an error has every
`return` inside a function or method it declares. So each of its statements, run in the globals
with any number of steps from any machine, and the whole program run as one list, end normally
whenever they end without a failure: no return cuts a top-level statement short. A return ends
the body it belongs to, and the call running that body turns it into the call's value, or, for
an initializer, into the receiver its frame binds. -/
theorem returns_stay_in_their_functions (P : Program) (h : P.resolve.errors = []) :
    Stmt.AllReturnless P.resolve.program ∧
    (∀ fuel depth, ∀ st ∈ P.resolve.program, Run.Normal (Run.exec fuel depth Store.globals st)) ∧
    (∀ fuel depth, Run.Normal (Run.execList fuel depth Store.globals P.resolve.program)) ∧
    ∀ fuel depth paren (c : Closure) args (m m' : Machine) v, depth + 1 ≤ Run.frameLimit →
      Run.execList fuel (depth + 1) m.store.frames.size c.decl.body
          { m with store := (m.store.pushWith c.frame
            ((c.decl.params.zip args).map fun (p, v) => (p.lexeme, v))).2 } =
        .ok (.returned v) m' →
      Run.callClosure (fuel + 1) depth paren c args m =
        if c.isInitializer then Run.lift (m'.store.getAt c.frame 0 "this") m' else .ok v m' := by
  have hret := Program.resolve_returnless h
  refine ⟨hret, fun fuel depth st hst => ?_, fun fuel depth => ?_, ?_⟩
  · exact (Run.normalAt fuel).exec depth Store.globals st
      (Stmt.allReturnless_iff.mp hret st hst)
  · exact (Run.normalAt fuel).execList depth Store.globals _ hret
  · intro fuel depth paren c args m m' v hdepth hbody
    exact Run.callClosure_returned hdepth hbody

/-- A function that returns a value, called from a top-level block. -/
def returningCall : Program :=
  let ident (text : String) : Token := { kind := .terminal .identifier, lexeme := text }
  [.funDecl (.mk (ident "f") []
      [.returnStmt { kind := .terminal .kwReturn, lexeme := "return" } (some (.literal (.num 1)))]),
   .block [.print (.call (.var (ident "f") none) { kind := .terminal .rightParen, lexeme := ")" } [])]]

/-- The program resolves without an error, so none of its top-level statements ends by
returning. -/
theorem returning_call_stays_in_its_function :
    returningCall.resolve.errors = [] ∧
      ∀ fuel depth, ∀ st ∈ returningCall.resolve.program,
        Run.Normal (Run.exec fuel depth Store.globals st) := by
  have h : returningCall.resolve.errors = [] := by
    simp +decide [returningCall, Program.resolve, Resolver.resolveStmts, Resolver.resolveStmt,
      Resolver.declare, Resolver.define, Resolver.resolveFunction, Resolver.withFunction,
      Resolver.beginScope, Resolver.endScope, Resolver.resolveExpr, Resolver.resolveLocal,
      Resolver.depthIn, FunDecl.name]
  exact ⟨h, (returns_stay_in_their_functions returningCall h).2.1⟩

end Lox
