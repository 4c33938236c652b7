import Lox.Proofs.ScopeResolution

/-!
# The resolver's walk is balanced

Resolving a statement or an expression gives back what it found, whatever it reports on the way:
every scope that a block, a function or a class opens is closed again, and the kinds of function
and class being resolved are restored. An expression leaves the scopes exactly as they were. A
statement changes at most the innermost scope, and only by marking names as completely declared
(`defineAll`): its own name when it is a declaration, and the names that the branches of a
conditional or the body of a loop declare, since these are resolved in the scope of the
statement itself (`Stmt.declaredNames`). Trees read from source never put a declaration in such a
place; trees read from documents may (`branch_declaration_marks_enclosing_scope`).

Every depth recorded on the way is less than the number of scopes open where it is recorded
(`Stmt.DepthsBelow`). The proof follows each resolution step with `Resolver.Walk`, a triple over
the part of the state that must be given back (`Resolver.Place`). Unlike `Resolver.Spec`, it
holds of every tree and every state, whether the step reports errors or not.
-/

namespace Lox

/-- Marks names as completely declared in the innermost scope, one after another. -/
def defineAll (Γ : List Scope) (names : List String) : List Scope :=
  names.foldl (fun Γ name => putInnermost Γ name true) Γ

@[simp] theorem defineAll_nil (Γ : List Scope) : defineAll Γ [] = Γ := rfl

@[simp] theorem defineAll_singleton (Γ : List Scope) (name : String) :
    defineAll Γ [name] = putInnermost Γ name true := rfl

@[simp] theorem defineAll_append (Γ : List Scope) (names more : List String) :
    defineAll Γ (names ++ more) = defineAll (defineAll Γ names) more :=
  List.foldl_append

/-- Marking names only changes the innermost scope. -/
theorem defineAll_cons (sc : Scope) (Γ : List Scope) (names : List String) :
    defineAll (sc :: Γ) names = names.foldl (fun sc name => Resolver.Scope.put sc name true) sc :: Γ := by
  induction names generalizing sc with
  | nil => rfl
  | cons name rest ih => exact ih (Resolver.Scope.put sc name true)

theorem defineAll_nil_scopes (names : List String) : defineAll [] names = [] := by
  induction names with
  | nil => rfl
  | cons name rest ih => exact ih

@[simp] theorem length_defineAll (Γ : List Scope) (names : List String) :
    (defineAll Γ names).length = Γ.length := by
  cases Γ with
  | nil => rw [defineAll_nil_scopes]
  | cons sc Γ => rw [defineAll_cons, List.length_cons, List.length_cons]

@[simp] theorem tail_defineAll (Γ : List Scope) (names : List String) :
    (defineAll Γ names).tail = Γ.tail := by
  cases Γ with
  | nil => rw [defineAll_nil_scopes]
  | cons sc Γ => rw [defineAll_cons, List.tail_cons, List.tail_cons]

@[simp] theorem length_putInnermost (Γ : List Scope) (name : String) (done : Bool) :
    (putInnermost Γ name done).length = Γ.length := by
  cases Γ <;> rfl

@[simp] theorem length_declaredScopes (Γ : List Scope) (name : String) :
    (Resolver.declaredScopes Γ name).length = Γ.length := by
  unfold Resolver.declaredScopes
  split
  · rfl
  · split <;> rfl

/-- The names a statement declares in the scope it is resolved in: its own name when it is a
declaration, and the names its branches or its body declare when it is a conditional or a loop,
for these are resolved in the same scope. -/
def Stmt.declaredNames : Stmt → List String
  | .varDecl n _ => [n.lexeme]
  | .funDecl f => [f.name.lexeme]
  | .classDecl n _ _ => [n.lexeme]
  | .ifElse _ t none => t.declaredNames
  | .ifElse _ t (some e) => t.declaredNames ++ e.declaredNames
  | .whileLoop _ b => b.declaredNames
  | .expr _ | .print _ | .block _ | .returnStmt _ _ => []

/-- A reference resolved to no depth records none. -/
theorem forall_mem_none {α : Type} {P : α → Prop} : ∀ a ∈ (none : Option α), P a :=
  fun a h => absurd h (Option.not_mem_none a)

/-- A reference resolved to a depth records that one. -/
theorem forall_mem_some {α : Type} {P : α → Prop} {a : α} (h : P a) : ∀ b ∈ some a, P b := by
  intro b hb
  rw [Option.mem_some_iff] at hb
  exact hb ▸ h

mutual

/-- Every depth an expression records is less than `n`, the number of scopes open at it. -/
def Expr.DepthsBelow (n : Nat) : Expr → Prop
  | .literal _ => True
  | .grouping e => e.DepthsBelow n
  | .var _ d => ∀ k ∈ d, k < n
  | .assign _ v d => (∀ k ∈ d, k < n) ∧ v.DepthsBelow n
  | .unary _ e => e.DepthsBelow n
  | .binary l _ r => l.DepthsBelow n ∧ r.DepthsBelow n
  | .logical l _ r => l.DepthsBelow n ∧ r.DepthsBelow n
  | .call c _ args => c.DepthsBelow n ∧ Expr.AllDepthsBelow n args
  | .get o _ => o.DepthsBelow n
  | .set o _ v => o.DepthsBelow n ∧ v.DepthsBelow n
  | .thisRef _ d => ∀ k ∈ d, k < n
  | .superMethod _ _ d => ∀ k ∈ d, k < n

/-- Every depth some expressions record is less than `n`. -/
def Expr.AllDepthsBelow (n : Nat) : List Expr → Prop
  | [] => True
  | e :: rest => e.DepthsBelow n ∧ Expr.AllDepthsBelow n rest

end

mutual

/-- Every depth a statement records is less than the number of scopes open where it is recorded,
when `n` are open at the statement: a block and a function body open one more, and the methods
of a class are resolved inside one holding `this` and, when the class has a superclass, one
holding `super`. -/
def Stmt.DepthsBelow (n : Nat) : Stmt → Prop
  | .expr e => e.DepthsBelow n
  | .print e => e.DepthsBelow n
  | .varDecl _ i => ∀ e ∈ i, e.DepthsBelow n
  | .block b => Stmt.AllDepthsBelow (n + 1) b
  | .ifElse c t e =>
    c.DepthsBelow n ∧ t.DepthsBelow n ∧
      match e with
      | some e => e.DepthsBelow n
      | none => True
  | .whileLoop c b => c.DepthsBelow n ∧ b.DepthsBelow n
  | .funDecl f => f.DepthsBelow n
  | .returnStmt _ v => ∀ e ∈ v, e.DepthsBelow n
  | .classDecl _ s ms =>
    (∀ e ∈ s, e.DepthsBelow n) ∧ FunDecl.AllDepthsBelow (n + if s.isSome then 2 else 1) ms

/-- Every depth some statements record is below the scopes open where it is recorded. -/
def Stmt.AllDepthsBelow (n : Nat) : List Stmt → Prop
  | [] => True
  | s :: rest => s.DepthsBelow n ∧ Stmt.AllDepthsBelow n rest

/-- Every depth a function records is below the scopes open where it is recorded, its body
being resolved in one more. -/
def FunDecl.DepthsBelow (n : Nat) : FunDecl → Prop
  | .mk _ _ b => Stmt.AllDepthsBelow (n + 1) b

/-- Every depth some functions record is below the scopes open where it is recorded. -/
def FunDecl.AllDepthsBelow (n : Nat) : List FunDecl → Prop
  | [] => True
  | f :: rest => f.DepthsBelow n ∧ FunDecl.AllDepthsBelow n rest

end

namespace Resolver

/-- The part of the resolver's state that a walk gives back: the scopes, and the kinds of
function and class being resolved. -/
structure Place where
  scopes : List Scope
  function : FunctionKind
  klass : ClassKind

/-- Where the resolver stands. -/
def place (r : Resolver) : Place := ⟨r.scopes, r.function, r.klass⟩

/-- A resolution step that, from every state standing at `p`, ends standing at `p'` with a
result satisfying `ok`, whatever it reports on the way. -/
def Walk {α : Type} (x : M α) (p p' : Place) (ok : α → Prop) : Prop :=
  ∀ r : Resolver, r.place = p → (x.run r).2.place = p' ∧ ok (x.run r).1

variable {α β : Type} {p p₁ p₂ : Place}

theorem Walk.bind {x : M α} {f : α → M β} {P : α → Prop} {Q : β → Prop}
    (hx : Walk x p p₁ P) (hf : ∀ a, P a → Walk (f a) p₁ p₂ Q) : Walk (x >>= f) p p₂ Q := by
  intro r hr
  obtain ⟨hplace, hok⟩ := hx r hr
  exact hf _ hok _ hplace

theorem Walk.pure {a : α} {Q : α → Prop} (h : Q a) : Walk (Pure.pure a : M α) p p Q :=
  fun _ hr => ⟨hr, h⟩

theorem Walk.map {x : M α} {g : α → β} {P : α → Prop} {Q : β → Prop} (hx : Walk x p p₁ P)
    (hg : ∀ a, P a → Q (g a)) : Walk (g <$> x) p p₁ Q := by
  intro r hr
  obtain ⟨hplace, hok⟩ := hx r hr
  exact ⟨hplace, hg _ hok⟩

theorem Walk.to {x : M α} {P : α → Prop} (hx : Walk x p p₁ P) (h : p₁ = p₂) : Walk x p p₂ P :=
  h ▸ hx

/-- A step that reads the state, then goes on from what it read. -/
theorem Walk.get_bind {f : Resolver → M α} {Q : α → Prop}
    (h : ∀ r : Resolver, r.place = p → Walk (f r) p p₁ Q) : Walk (get >>= f) p p₁ Q :=
  fun r hr => h r hr r hr

theorem modify_walk {g : Resolver → Resolver} (hg : ∀ r : Resolver, r.place = p → (g r).place = p₁) :
    Walk (modify g) p p₁ fun _ => True :=
  fun r hr => ⟨hg r hr, trivial⟩

theorem report_walk (e : ScopeError) : Walk (report e) p p fun _ => True :=
  modify_walk fun _ hr => hr

theorem beginScope_walk (names : Scope) :
    Walk (beginScope names) p { p with scopes := names :: p.scopes } fun _ => True :=
  modify_walk fun _ hr => by subst hr; rfl

theorem endScope_walk : Walk endScope p { p with scopes := p.scopes.tail } fun _ => True :=
  modify_walk fun _ hr => by subst hr; rfl

theorem setScopes_walk (Γ : List Scope) :
    Walk (modify fun r => { r with scopes := Γ }) p { p with scopes := Γ } fun _ => True :=
  modify_walk fun _ hr => by subst hr; rfl

theorem declare_walk (name : Token) :
    Walk (declare name) p { p with scopes := declaredScopes p.scopes name.lexeme } fun _ => True := by
  unfold declare
  refine Walk.get_bind fun r hr => ?_
  subst hr
  cases hs : r.scopes with
  | nil => exact (Walk.pure trivial).to (by simp [place, hs, declaredScopes])
  | cons sc rest =>
    dsimp only
    split
    · next h => exact (report_walk _).to (by simp [place, hs, declaredScopes, h])
    · next h => exact (setScopes_walk _).to (by simp [place, hs, declaredScopes, h])

theorem define_walk (name : Token) :
    Walk (define name) p { p with scopes := putInnermost p.scopes name.lexeme true }
      fun _ => True := by
  unfold define
  refine Walk.get_bind fun r hr => ?_
  subst hr
  cases hs : r.scopes with
  | nil => exact (Walk.pure trivial).to (by simp [place, hs, putInnermost])
  | cons sc rest => exact (setScopes_walk _).to (by simp [place, hs, putInnermost])

/-- A depth found among the scopes is less than their number. -/
theorem depthIn_lt (name : String) :
    ∀ (Γ : List Scope) (k d : Nat), depthIn name Γ k = some d → d < k + Γ.length
  | [], _, _, h => by cases h
  | sc :: rest, k, d, h => by
    rw [depthIn] at h
    split at h
    · cases h
      simp
    · have := depthIn_lt name rest (k + 1) d h
      simp only [List.length_cons]
      omega

theorem set_walk {s : Resolver} (hs : s.place = p₁) : Walk (set s : M PUnit) p p₁ fun _ => True :=
  fun _ _ => ⟨hs, trivial⟩

theorem resolveLocal_walk (name : Token) :
    Walk (resolveLocal name) p p fun d => ∀ k ∈ d, k < p.scopes.length := by
  unfold resolveLocal
  refine Walk.get_bind fun r hr => ?_
  split
  · next d hd =>
    have hlt : d < p.scopes.length := by
      have := depthIn_lt name.lexeme r.scopes 0 d hd
      rw [← hr]
      simpa [place] using this
    have hres : ∀ k ∈ some d, k < p.scopes.length := forall_mem_some hlt
    refine (set_walk ?_).bind fun _ _ => Walk.pure hres
    exact hr
  · exact Walk.pure forall_mem_none

/-- A body resolved as code of its own kind, after which the kind is restored. -/
theorem withFunction_walk {x : M α} {P : α → Prop} {kind : FunctionKind}
    (hx : Walk x { p with function := kind } p₁ P) :
    Walk (withFunction kind x) p { p₁ with function := p.function } P := by
  intro r hr
  obtain ⟨hplace, hok⟩ := hx { r with function := kind } (by rw [← hr]; rfl)
  refine ⟨?_, hok⟩
  show place { (x.run { r with function := kind }).2 with function := r.function } = _
  rw [← hr, ← hplace]
  rfl

theorem setKlass_walk (k : ClassKind) :
    Walk (modify fun r => { r with klass := k }) p { p with klass := k } fun _ => True :=
  modify_walk fun _ hr => by subst hr; rfl

theorem Walk.ite_report {c : Prop} [Decidable c] {e : ScopeError} {k : M α} {Q : α → Prop}
    (hk : Walk k p p₁ Q) : Walk (if c then report e >>= fun _ => k else k) p p₁ Q := by
  split
  · exact (report_walk e).bind fun _ _ => hk
  · exact hk

theorem selfCheck_walk (name : Token) (s : Expr) : Walk (selfCheck name s) p p fun _ => True := by
  unfold selfCheck
  split
  · split
    · exact report_walk _
    · exact Walk.pure trivial
  · exact Walk.pure trivial

/-- Declaring parameters marks each of them as declared, one after another. -/
theorem params_walk (params : List Token) (q : Place) :
    Walk (forIn params PUnit.unit fun p _ => do
        declare p
        define p
        pure (ForInStep.yield PUnit.unit))
      q { q with scopes := defineAll q.scopes (params.map (·.lexeme)) } fun _ => True := by
  induction params generalizing q with
  | nil => exact Walk.pure trivial
  | cons x rest ih =>
    simp only [List.forIn_cons, bind_assoc, pure_bind]
    refine (declare_walk x).bind fun _ _ => (define_walk x).bind fun _ _ => (ih _).to ?_
    simp [defineAll, putInnermost_declaredScopes]

mutual

/-- Resolving an expression gives back the place it started from, and every depth it records is
less than the number of scopes open. -/
theorem resolveExpr_walk : ∀ (e : Expr) (p : Place),
    Walk (resolveExpr e) p p (Expr.DepthsBelow p.scopes.length)
  | .literal _, _ => by
    rw [resolveExpr]
    exact Walk.pure trivial
  | .grouping e, p => by
    rw [resolveExpr]
    exact (resolveExpr_walk e p).bind fun _ he => Walk.pure he
  | .var _ _, p => by
    rw [resolveExpr]
    refine Walk.get_bind fun r _ => ?_
    have hlocal : ∀ name : Token, Walk (do return Expr.var name (← resolveLocal name)) p p
        (Expr.DepthsBelow p.scopes.length) := fun name =>
      (resolveLocal_walk name).bind fun _ hd => Walk.pure hd
    dsimp only
    split
    · split
      · exact (report_walk _).bind fun _ _ => hlocal _
      · exact hlocal _
    · exact hlocal _
  | .assign n v _, p => by
    rw [resolveExpr]
    exact (resolveExpr_walk v p).bind fun _ hv => (resolveLocal_walk n).bind fun _ hd =>
      Walk.pure ⟨hd, hv⟩
  | .unary _ e, p => by
    rw [resolveExpr]
    exact (resolveExpr_walk e p).bind fun _ he => Walk.pure he
  | .binary l _ r, p => by
    rw [resolveExpr]
    exact (resolveExpr_walk l p).bind fun _ hl => (resolveExpr_walk r p).bind fun _ hr =>
      Walk.pure ⟨hl, hr⟩
  | .logical l _ r, p => by
    rw [resolveExpr]
    exact (resolveExpr_walk l p).bind fun _ hl => (resolveExpr_walk r p).bind fun _ hr =>
      Walk.pure ⟨hl, hr⟩
  | .call c _ args, p => by
    rw [resolveExpr, mapM_attach_resolveExpr]
    exact (resolveExpr_walk c p).bind fun _ hc => (resolveExprs_walk args p).bind fun _ ha =>
      Walk.pure ⟨hc, ha⟩
  | .get o _, p => by
    rw [resolveExpr]
    exact (resolveExpr_walk o p).bind fun _ ho => Walk.pure ho
  | .set o _ v, p => by
    rw [resolveExpr]
    exact (resolveExpr_walk v p).bind fun _ hv => (resolveExpr_walk o p).bind fun _ ho =>
      Walk.pure ⟨ho, hv⟩
  | .thisRef _ _, p => by
    rw [resolveExpr]
    refine Walk.get_bind fun r _ => ?_
    split
    · exact (report_walk _).bind fun _ _ => Walk.pure forall_mem_none
    · exact (resolveLocal_walk _).bind fun _ hd => Walk.pure hd
  | .superMethod _ _ _, p => by
    rw [resolveExpr]
    refine Walk.get_bind fun r _ => ?_
    dsimp only
    split
    · exact (report_walk _).bind fun _ _ => (resolveLocal_walk _).bind fun _ hd => Walk.pure hd
    · split
      · exact (report_walk _).bind fun _ _ => (resolveLocal_walk _).bind fun _ hd =>
          Walk.pure hd
      · exact (resolveLocal_walk _).bind fun _ hd => Walk.pure hd

theorem resolveExprs_walk : ∀ (es : List Expr) (p : Place),
    Walk (es.mapM resolveExpr) p p (Expr.AllDepthsBelow p.scopes.length)
  | [], _ => by
    rw [List.mapM_nil]
    exact Walk.pure trivial
  | e :: rest, p => by
    rw [List.mapM_cons]
    exact (resolveExpr_walk e p).bind fun _ he => (resolveExprs_walk rest p).bind fun _ hr =>
      Walk.pure ⟨he, hr⟩

end

mutual

/-- Resolving a statement gives back the place it started from, with the names the statement
declares marked in the innermost scope, and every depth it records is less than the number of
scopes open where it is recorded. -/
theorem resolveStmt_walk : ∀ (s : Stmt) (p : Place),
    Walk (resolveStmt s) p { p with scopes := defineAll p.scopes s.declaredNames }
      (Stmt.DepthsBelow p.scopes.length)
  | .expr e, p => by
    rw [resolveStmt]
    exact (resolveExpr_walk e p).bind fun _ he => Walk.pure he
  | .print e, p => by
    rw [resolveStmt]
    exact (resolveExpr_walk e p).bind fun _ he => Walk.pure he
  | .varDecl n i, p => by
    rw [resolveStmt]
    refine (declare_walk n).bind fun _ _ => ?_
    cases i with
    | none =>
      refine (define_walk n).bind fun _ _ => (Walk.pure forall_mem_none).to ?_
      simp [Stmt.declaredNames, putInnermost_declaredScopes]
    | some e =>
      -- the initializer is resolved with the name declared but not yet defined
      have hinit : Walk (some <$> resolveExpr e) { p with scopes := declaredScopes p.scopes n.lexeme }
          { p with scopes := declaredScopes p.scopes n.lexeme }
          fun i => ∀ x ∈ i, x.DepthsBelow p.scopes.length :=
        (resolveExpr_walk e _).map fun _ he => forall_mem_some (by simpa using he)
      refine hinit.bind fun _ hi => ((define_walk n).bind fun _ _ => Walk.pure hi).to ?_
      simp [Stmt.declaredNames, putInnermost_declaredScopes]
  | .block b, p => by
    rw [resolveStmt]
    refine (beginScope_walk []).bind fun _ _ => (resolveStmts_walk b _).bind fun _ hb => ?_
    exact (endScope_walk.bind fun _ _ => Walk.pure hb).to (by simp [Stmt.declaredNames])
  | .ifElse c t e, p => by
    rw [resolveStmt]
    cases e with
    | none =>
      exact (resolveExpr_walk c p).bind fun _ hc => (resolveStmt_walk t p).bind fun _ ht =>
        Walk.pure ⟨hc, ht, trivial⟩
    | some e =>
      -- the else branch starts from the scopes the then branch leaves
      refine (resolveExpr_walk c p).bind fun _ hc => (resolveStmt_walk t p).bind fun _ ht => ?_
      refine ((resolveStmt_walk e _).bind fun _ he => Walk.pure ⟨hc, ht, ?_⟩).to ?_
      · simp [Stmt.declaredNames]
      · simpa using he
  | .whileLoop c b, p => by
    rw [resolveStmt]
    exact (resolveExpr_walk c p).bind fun _ hc => (resolveStmt_walk b p).bind fun _ hb =>
      Walk.pure ⟨hc, hb⟩
  | .funDecl f, p => by
    rw [resolveStmt]
    refine (declare_walk f.name).bind fun _ _ => (define_walk f.name).bind fun _ _ => ?_
    refine ((resolveFunction_walk f .function _).bind fun _ hf => Walk.pure ?_).to ?_
    · simpa [Stmt.DepthsBelow] using hf
    · simp [Stmt.declaredNames, putInnermost_declaredScopes]
  | .returnStmt k v, p => by
    rw [resolveStmt]
    refine Walk.get_bind fun r _ => ?_
    dsimp only
    refine Walk.ite_report ?_
    cases v with
    | none => exact Walk.pure forall_mem_none
    | some e =>
      dsimp only
      exact Walk.ite_report ((resolveExpr_walk e p).bind fun _ he => Walk.pure (forall_mem_some he))
  | .classDecl n sup ms, p => by
    -- the class kind is set on entry and restored from `r.klass` on exit
    cases sup with
    | none =>
      rw [resolveStmt_classDecl_none]
      refine Walk.get_bind fun r hr => ?_
      refine (setKlass_walk .plain).bind fun _ _ => ?_
      refine (declare_walk n).bind fun _ _ => (define_walk n).bind fun _ _ => ?_
      refine (beginScope_walk _).bind fun _ _ => (resolveMethods_walk ms _).bind fun _ hms => ?_
      refine (endScope_walk.bind fun _ _ => (setKlass_walk r.klass).bind fun _ _ =>
        Walk.pure ⟨forall_mem_none, ?_⟩).to ?_
      · subst hr
        simp [Stmt.declaredNames, putInnermost_declaredScopes, place]
      · simpa using hms
    | some s =>
      rw [resolveStmt_classDecl_some]
      refine Walk.get_bind fun r hr => ?_
      refine (setKlass_walk .plain).bind fun _ _ => ?_
      refine (declare_walk n).bind fun _ _ => (define_walk n).bind fun _ _ => ?_
      refine (selfCheck_walk n s).bind fun _ _ => (setKlass_walk .subclass).bind fun _ _ => ?_
      refine (resolveExpr_walk s _).bind fun _ hs => ?_
      refine (beginScope_walk _).bind fun _ _ => (beginScope_walk _).bind fun _ _ => ?_
      refine (resolveMethods_walk ms _).bind fun _ hms => ?_
      refine (endScope_walk.bind fun _ _ => endScope_walk.bind fun _ _ =>
        (setKlass_walk r.klass).bind fun _ _ =>
          Walk.pure ⟨forall_mem_some (by simpa using hs), ?_⟩).to ?_
      · subst hr
        simp [Stmt.declaredNames, putInnermost_declaredScopes, place]
      · simpa using hms

/-- Resolving statements one after another marks the names each declares. -/
theorem resolveStmts_walk : ∀ (ss : List Stmt) (p : Place),
    Walk (resolveStmts ss) p { p with scopes := defineAll p.scopes (ss.flatMap Stmt.declaredNames) }
      (Stmt.AllDepthsBelow p.scopes.length)
  | [], p => by
    rw [resolveStmts]
    exact Walk.pure trivial
  | s :: rest, p => by
    rw [resolveStmts]
    refine (resolveStmt_walk s p).bind fun _ hs => (resolveStmts_walk rest _).bind fun _ hr => ?_
    refine (Walk.pure ⟨hs, ?_⟩).to ?_
    · simp [List.flatMap_cons]
    · simpa using hr

/-- Resolving a function gives back the place it started from: its scope is closed and the
function kind restored. -/
theorem resolveFunction_walk : ∀ (f : FunDecl) (kind : FunctionKind) (p : Place),
    Walk (resolveFunction f kind) p p (FunDecl.DepthsBelow p.scopes.length)
  | .mk n ps b, kind, p => by
    rw [resolveFunction]
    refine (withFunction_walk (?_ : Walk _ { p with function := kind } { p with function := kind } _)).to
      (by cases p; rfl)
    refine (beginScope_walk []).bind fun _ _ => (params_walk ps _).bind fun _ _ => ?_
    refine (resolveStmts_walk b _).bind fun _ hb => ?_
    refine (endScope_walk.bind fun _ _ => Walk.pure ?_).to ?_
    · simpa [FunDecl.DepthsBelow] using hb
    · simp

theorem resolveMethods_walk : ∀ (fs : List FunDecl) (p : Place),
    Walk (resolveMethods fs) p p (FunDecl.AllDepthsBelow p.scopes.length)
  | [], _ => by
    rw [resolveMethods]
    exact Walk.pure trivial
  | f :: rest, p => by
    rw [resolveMethods]
    exact (resolveFunction_walk f _ p).bind fun _ hf => (resolveMethods_walk rest p).bind
      fun _ hr => Walk.pure ⟨hf, hr⟩

end

end Resolver

/-- The resolver's walk is balanced. From any state, and whatever it reports, resolving an
expression leaves the scopes and the kinds of function and class as they were; resolving a
statement leaves as many scopes, changes none but the innermost, and that one only by marking the
names the statement declares (`Stmt.declaredNames`), and restores both kinds. Every depth either
records is less than the number of scopes open where it is recorded. -/
theorem resolver_walk_is_balanced (r : Resolver) :
    (∀ e : Expr,
      ((Resolver.resolveExpr e).run r).2.scopes = r.scopes ∧
      ((Resolver.resolveExpr e).run r).2.function = r.function ∧
      ((Resolver.resolveExpr e).run r).2.klass = r.klass ∧
      ((Resolver.resolveExpr e).run r).1.DepthsBelow r.scopes.length) ∧
    ∀ s : Stmt,
      ((Resolver.resolveStmt s).run r).2.scopes.length = r.scopes.length ∧
      ((Resolver.resolveStmt s).run r).2.scopes.tail = r.scopes.tail ∧
      ((Resolver.resolveStmt s).run r).2.scopes = defineAll r.scopes s.declaredNames ∧
      ((Resolver.resolveStmt s).run r).2.function = r.function ∧
      ((Resolver.resolveStmt s).run r).2.klass = r.klass ∧
      ((Resolver.resolveStmt s).run r).1.DepthsBelow r.scopes.length := by
  constructor
  · intro e
    obtain ⟨hplace, hdepths⟩ := Resolver.resolveExpr_walk e r.place r rfl
    exact ⟨congrArg Resolver.Place.scopes hplace, congrArg Resolver.Place.function hplace,
      congrArg Resolver.Place.klass hplace, hdepths⟩
  · intro s
    obtain ⟨hplace, hdepths⟩ := Resolver.resolveStmt_walk s r.place r rfl
    have hscopes : ((Resolver.resolveStmt s).run r).2.scopes = defineAll r.scopes s.declaredNames :=
      congrArg Resolver.Place.scopes hplace
    refine ⟨?_, ?_, hscopes, congrArg Resolver.Place.function hplace,
      congrArg Resolver.Place.klass hplace, hdepths⟩
    · rw [hscopes, length_defineAll]
    · rw [hscopes, tail_defineAll]

/-- A declaration in a branch of a conditional, which only a document can put there, marks its
name in the scope of the conditional, though the conditional itself declares no name. -/
theorem branch_declaration_marks_enclosing_scope :
    (Stmt.ifElse (.literal (.bool false))
        (.varDecl ⟨.terminal .identifier, "x", .null, 1, 18⟩ none) none).declared? = none ∧
    ((Resolver.resolveStmt (.ifElse (.literal (.bool false))
        (.varDecl ⟨.terminal .identifier, "x", .null, 1, 18⟩ none) none)).run
      { scopes := [[]] }).2.scopes = [[("x", true)]] := by
  refine ⟨rfl, ?_⟩
  have hscopes : ((Resolver.resolveStmt (.ifElse (.literal (.bool false))
      (.varDecl ⟨.terminal .identifier, "x", .null, 1, 18⟩ none) none)).run
        { scopes := [[]] }).2.scopes =
      defineAll [[]] ["x"] :=
    congrArg Resolver.Place.scopes (Resolver.resolveStmt_walk _ ⟨[[]], .none, .none⟩ _ rfl).1
  rw [hscopes]
  decide

end Lox
