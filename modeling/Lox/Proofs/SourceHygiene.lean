import Lox.Proofs.GrammarShape
import Lox.Proofs.ReservedNames

/-!
# Programs read from source are hygienic

In source text `this` and `super` are keywords: the grammar declares, takes as parameters and
assigns only identifiers, and builds `this` and `super` expressions only from those keywords.
So every program the parser returns is `Hygienic` (`parseProgram_hygienic`), and resolution,
which only fills in depths, keeps it so whatever it reports (`Program.resolve_hygienic`).

A session that runs source therefore never changes what a frame binds to `this` or `super`,
line after line (`Session.runLines_keepsReserved`): the receiver a bound method sees and the
superclass a method's `super` names are those it was bound with.

The parser half is a typing of the values of grammar symbols that every reduction keeps
(`Syntax.build_clean`), carried through the parser's runs by `parseProgram_accepts` as the
shapes of `parseProgram_shaped` are.
-/

namespace Lox

theorem Expr.allHygienic_iff {es : List Expr} : Expr.AllHygienic es ↔ ∀ e ∈ es, e.Hygienic := by
  induction es with
  | nil => simp [Expr.AllHygienic]
  | cons e rest ih => simp [Expr.AllHygienic, ih]

theorem Stmt.allHygienic_iff {ss : List Stmt} : Stmt.AllHygienic ss ↔ ∀ s ∈ ss, s.Hygienic := by
  induction ss with
  | nil => simp [Stmt.AllHygienic]
  | cons s rest ih => simp [Stmt.AllHygienic, ih]

theorem FunDecl.allHygienic_iff {fs : List FunDecl} :
    FunDecl.AllHygienic fs ↔ ∀ f ∈ fs, f.Hygienic := by
  induction fs with
  | nil => simp [FunDecl.AllHygienic]
  | cons f rest ih => simp [FunDecl.AllHygienic, ih]

/-- An expression that is a hygienic assignment target when it is a variable: its name is
declarable. -/
def Expr.Assignable : Expr → Prop
  | .var n _ => n.Declarable
  | _ => True

namespace Syntax

/-- A fragment whose trees are hygienic; an expression is also an assignable target, and the
parameters of a function are declarable. -/
def Fragment.Clean : Fragment → Prop
  | .token _ => True
  | .expr e => e.Hygienic ∧ e.Assignable
  | .stmt s => s.Hygienic
  | .stmts r => ∀ s ∈ r, s.Hygienic
  | .function f => f.Hygienic
  | .functions r => ∀ f ∈ r, f.Hygienic
  | .tokens r => ∀ t ∈ r, t.Declarable
  | .exprs r => ∀ e ∈ r, e.Hygienic
  | .pairs r => ∀ p ∈ r, p.2.Hygienic
  | .optionalExpr e => ∀ x ∈ e, x.Hygienic
  | .initializer s => ∀ x ∈ s, x.Hygienic
  | .nothing => True

/-- `Fragment.CleanAs x v`: `v` is a value of the grammar symbol `x` as source text gives it. A
terminal's value is its token, spelled as the terminal; a nonterminal's value is `Clean`. -/
def Fragment.CleanAs : Grammar.Symbol → Fragment → Prop
  | .terminal i, .token tok => terminalOf tok = i ∧ tok.Spelt
  | .terminal _, _ => False
  | .nonterminal _, v => v.Clean

theorem forLoop_clean {init : Option Stmt} {cond incr : Option Expr} {body : Stmt}
    (hinit : ∀ s ∈ init, s.Hygienic) (hcond : ∀ e ∈ cond, e.Hygienic)
    (hincr : ∀ e ∈ incr, e.Hygienic) (hbody : body.Hygienic) :
    (forLoop init cond incr body).Hygienic := by
  have hcond' : (cond.getD (.literal (.bool true))).Hygienic := by
    cases cond with
    | none => trivial
    | some e => exact hcond e rfl
  unfold forLoop
  cases init <;> cases incr <;> simp_all [Stmt.Hygienic, Stmt.AllHygienic]

theorem foldChain_clean (logical : Bool) {first : Expr} {pairs : List (Token × Expr)}
    (hfirst : first.Hygienic ∧ first.Assignable) (hpairs : ∀ p ∈ pairs, p.2.Hygienic) :
    (foldChain logical first pairs).Hygienic ∧ (foldChain logical first pairs).Assignable := by
  -- the fold keeps a hygienic accumulator, and an operator node is no variable
  induction pairs generalizing first with
  | nil => exact hfirst
  | cons p rest ih =>
    obtain ⟨hp, hrest⟩ := List.forall_mem_cons.mp hpairs
    apply ih _ hrest
    cases logical
    · exact ⟨⟨hfirst.1, hp⟩, trivial⟩
    · exact ⟨⟨hfirst.1, hp⟩, trivial⟩

theorem functionOf_clean {name : Token} {params : List Token} {body : Stmt}
    (hname : name.Declarable) (hparams : ∀ p ∈ params, p.Declarable) (hbody : body.Hygienic) :
    (functionOf name params body).1.Clean := by
  refine ⟨hname, hparams, ?_⟩
  cases body
  case block b => exact hbody
  all_goals exact ⟨hbody, trivial⟩

/-- An assignment to a variable keeps the variable's declarable name, and one to a property
becomes a field write; any other target is refused and kept. -/
theorem assignTo_clean {target value : Expr} (equals : Token)
    (htarget : target.Hygienic ∧ target.Assignable) (hvalue : value.Hygienic) :
    (assignTo target equals value).1.Clean := by
  unfold assignTo
  split
  · exact ⟨⟨htarget.2, hvalue⟩, trivial⟩
  · exact ⟨⟨htarget.1, hvalue⟩, trivial⟩
  · exact htarget

theorem callOf_clean {callee : Expr} {paren : Token} {args : List Expr}
    (hcallee : callee.Hygienic) (hargs : ∀ a ∈ args, a.Hygienic) :
    (callOf callee paren args).1.Clean :=
  ⟨⟨hcallee, Expr.allHygienic_iff.mpr hargs⟩, trivial⟩

/-- Every reduction builds a clean value from values of its right side's symbols as source text
gives them. -/
theorem build_clean (p : Production) (args : List Fragment)
    (h : List.Forall₂ Fragment.CleanAs (p.rhs.map Production.numbered) args) :
    (p.build args).1.Clean := by
  cases p
  -- the productions that build through a helper of their own
  case functionParams =>
    simp only [Production.build]
    split
    · simp only [Production.rhs, List.map_cons, List.map_nil, Production.numbered,
        List.forall₂_cons, List.forall₂_nil_left_iff, and_true] at h
      obtain ⟨⟨hname, hspelt⟩, -, hparams, -, hbody⟩ := h
      exact functionOf_clean (Token.declarable_of_terminalOf hname hspelt)
        (fun x hx => hparams x (List.mem_reverse.mp hx)) hbody
    · trivial
  case functionPlain =>
    simp only [Production.build]
    split
    · simp only [Production.rhs, List.map_cons, List.map_nil, Production.numbered,
        List.forall₂_cons, List.forall₂_nil_left_iff, and_true] at h
      obtain ⟨⟨hname, hspelt⟩, -, -, hbody⟩ := h
      exact functionOf_clean (Token.declarable_of_terminalOf hname hspelt) (by simp) hbody
    · trivial
  case assignmentTarget =>
    simp only [Production.build]
    split
    · simp only [Production.rhs, List.map_cons, List.map_nil, Production.numbered,
        List.forall₂_cons, List.forall₂_nil_left_iff, and_true] at h
      exact assignTo_clean _ h.1 h.2.2.1
    · trivial
  case chainLong =>
    simp only [Production.build]
    split
    · simp only [Production.rhs, List.map_cons, List.map_nil, Production.numbered,
        List.forall₂_cons, List.forall₂_nil_left_iff, and_true] at h
      exact foldChain_clean _ h.1 fun x hx => h.2 x (List.mem_reverse.mp hx)
    · trivial
  case callArgs =>
    simp only [Production.build]
    split
    · simp only [Production.rhs, List.map_cons, List.map_nil, Production.numbered,
        List.forall₂_cons, List.forall₂_nil_left_iff, and_true] at h
      exact callOf_clean h.1.1 fun x hx => h.2.2.1 x (List.mem_reverse.mp hx)
    · trivial
  case callEmpty =>
    simp only [Production.build]
    split
    · simp only [Production.rhs, List.map_cons, List.map_nil, Production.numbered,
        List.forall₂_cons, List.forall₂_nil_left_iff, and_true] at h
      exact callOf_clean h.1.1 (by simp)
    · trivial
  case forStmt =>
    simp only [Production.build]
    split
    · simp only [Production.rhs, List.map_cons, List.map_nil, Production.numbered,
        List.forall₂_cons, List.forall₂_nil_left_iff, and_true] at h
      obtain ⟨-, -, hinit, hcond, -, hincr, -, hbody⟩ := h
      exact forLoop_clean hinit hcond hincr hbody
    · trivial
  -- `this`, `super` and variables are the tokens of their keywords and of identifiers
  case primaryThis =>
    simp only [Production.build]
    split
    · simp only [Production.rhs, List.map_cons, List.map_nil, Production.numbered,
        List.forall₂_cons, List.forall₂_nil_left_iff, and_true] at h
      exact ⟨Token.lexeme_of_terminalOf h.1 h.2 rfl, trivial⟩
    · trivial
  case primarySuper =>
    simp only [Production.build]
    split
    · simp only [Production.rhs, List.map_cons, List.map_nil, Production.numbered,
        List.forall₂_cons, List.forall₂_nil_left_iff, and_true] at h
      exact ⟨Token.lexeme_of_terminalOf h.1.1 h.1.2 rfl, trivial⟩
    · trivial
  case primaryIdentifier =>
    simp only [Production.build]
    split
    · simp only [Production.rhs, List.map_cons, List.map_nil, Production.numbered,
        List.forall₂_cons, List.forall₂_nil_left_iff, and_true] at h
      exact ⟨trivial, Token.declarable_of_terminalOf h.1 h.2⟩
    · trivial
  -- every other production passes a value up or assembles its value directly
  all_goals
    simp only [Production.build]
    split
    · simp only [Production.rhs, List.map_cons, List.map_nil, Production.numbered,
        List.forall₂_cons, List.forall₂_nil_left_iff, and_true] at h
      simp_all [clean, Fragment.Clean, Fragment.CleanAs, Stmt.Hygienic, Expr.Hygienic,
        Expr.Assignable, Stmt.allHygienic_iff, FunDecl.allHygienic_iff,
        Token.declarable_of_terminalOf, or_imp, -Prod.forall]
    · trivial

theorem buildNumbered_clean (p : Nat) (args : List Fragment)
    (h : List.Forall₂ Fragment.CleanAs (grammar.rhs p) args) :
    (buildNumbered p args).1.CleanAs (.nonterminal (grammar.production p).lhs) := by
  unfold buildNumbered
  split
  · next prod hprod =>
    rw [Grammar.rhs, grammar_production hprod] at h
    exact build_clean prod args h
  · trivial

end Syntax

namespace Resolver

/-- From every resolver state, the step returns a value with the property `P`. Resolution only
fills in depths, so what it keeps holds whatever it reports. -/
def Gives {α : Type} (x : M α) (P : α → Prop) : Prop := ∀ r : Resolver, P (x.run r).1

variable {α β : Type}

theorem Gives.bind {x : M α} {f : α → M β} {P : α → Prop} {Q : β → Prop} (hx : Gives x P)
    (hf : ∀ a, P a → Gives (f a) Q) : Gives (x >>= f) Q := fun r => by
  rw [run_bind]
  exact hf _ (hx r) _

theorem Gives.pure {a : α} {Q : α → Prop} (h : Q a) : Gives (Pure.pure a : M α) Q := fun _ => h

/-- A step whose result the rest does not need. -/
theorem Gives.after {x : M α} {f : α → M β} {Q : β → Prop} (hf : ∀ a, Gives (f a) Q) :
    Gives (x >>= f) Q := fun r => by
  rw [run_bind]
  exact hf _ _

theorem Gives.map {x : M α} {f : α → β} {P : α → Prop} (hx : Gives x P) :
    Gives (f <$> x) fun b => ∃ a, P a ∧ b = f a := fun r => ⟨_, hx r, rfl⟩

theorem Gives.ite_report {c : Prop} [Decidable c] {e : ScopeError} {k : M α} {Q : α → Prop}
    (hk : Gives k Q) : Gives (if c then report e >>= fun _ => k else k) Q := by
  split
  · exact Gives.after fun _ => hk
  · exact hk

theorem Gives.withFunction {x : M α} {P : α → Prop} (kind : FunctionKind) (hx : Gives x P) :
    Gives (withFunction kind x) P := by
  unfold Resolver.withFunction
  exact Gives.after fun _ => Gives.after fun _ => hx.bind fun _ ha => Gives.after fun _ =>
    Gives.pure ha

mutual

/-- Resolving an expression keeps it hygienic: a reference gets a depth and nothing else
changes. -/
theorem resolveExpr_hygienic : ∀ e : Expr, e.Hygienic → Gives (resolveExpr e) Expr.Hygienic
  | .literal _, _ => by
    rw [resolveExpr]
    exact Gives.pure trivial
  | .grouping e, h => by
    rw [resolveExpr]
    exact (resolveExpr_hygienic e h).bind fun _ h' => Gives.pure h'
  | .var _ _, _ => by
    rw [resolveExpr]
    -- the check of an own initializer reports or not; the lookup after it is the same
    refine Gives.after fun _ => ?_
    dsimp only
    split
    · split
      · exact Gives.after fun _ => Gives.after fun _ => Gives.pure trivial
      · exact Gives.after fun _ => Gives.pure trivial
    · exact Gives.after fun _ => Gives.pure trivial
  | .assign _ v _, ⟨hn, hv⟩ => by
    rw [resolveExpr]
    exact (resolveExpr_hygienic v hv).bind fun _ hv' => Gives.after fun _ =>
      Gives.pure ⟨hn, hv'⟩
  | .unary _ e, h => by
    rw [resolveExpr]
    exact (resolveExpr_hygienic e h).bind fun _ h' => Gives.pure h'
  | .binary l _ r, ⟨hl, hr⟩ => by
    rw [resolveExpr]
    exact (resolveExpr_hygienic l hl).bind fun _ hl' => (resolveExpr_hygienic r hr).bind
      fun _ hr' => Gives.pure ⟨hl', hr'⟩
  | .logical l _ r, ⟨hl, hr⟩ => by
    rw [resolveExpr]
    exact (resolveExpr_hygienic l hl).bind fun _ hl' => (resolveExpr_hygienic r hr).bind
      fun _ hr' => Gives.pure ⟨hl', hr'⟩
  | .call c _ args, ⟨hc, hargs⟩ => by
    rw [resolveExpr, mapM_attach_resolveExpr]
    exact (resolveExpr_hygienic c hc).bind fun _ hc' => (resolveExprs_hygienic args hargs).bind
      fun _ hargs' => Gives.pure ⟨hc', hargs'⟩
  | .get o _, h => by
    rw [resolveExpr]
    exact (resolveExpr_hygienic o h).bind fun _ h' => Gives.pure h'
  | .set o _ v, ⟨ho, hv⟩ => by
    rw [resolveExpr]
    exact (resolveExpr_hygienic v hv).bind fun _ hv' => (resolveExpr_hygienic o ho).bind
      fun _ ho' => Gives.pure ⟨ho', hv'⟩
  | .thisRef _ _, hk => by
    rw [resolveExpr]
    refine Gives.after fun _ => ?_
    split
    · exact Gives.after fun _ => Gives.pure hk
    · exact Gives.after fun _ => Gives.pure hk
  | .superMethod _ _ _, hk => by
    rw [resolveExpr]
    refine Gives.after fun _ => ?_
    dsimp only
    split
    · exact Gives.after fun _ => Gives.after fun _ => Gives.pure hk
    · split
      · exact Gives.after fun _ => Gives.after fun _ => Gives.pure hk
      · exact Gives.after fun _ => Gives.pure hk

theorem resolveExprs_hygienic : ∀ es : List Expr, Expr.AllHygienic es →
    Gives (es.mapM resolveExpr) Expr.AllHygienic
  | [], _ => by
    rw [List.mapM_nil]
    exact Gives.pure trivial
  | e :: rest, ⟨he, hrest⟩ => by
    rw [List.mapM_cons]
    exact (resolveExpr_hygienic e he).bind fun _ he' => (resolveExprs_hygienic rest hrest).bind
      fun _ hrest' => Gives.pure ⟨he', hrest'⟩

end

mutual

/-- Resolving a statement keeps it hygienic: it declares, takes as parameters and assigns the
names it did. -/
theorem resolveStmt_hygienic : ∀ s : Stmt, s.Hygienic → Gives (resolveStmt s) Stmt.Hygienic
  | .expr e, h => by
    rw [resolveStmt]
    exact (resolveExpr_hygienic e h).bind fun _ h' => Gives.pure h'
  | .print e, h => by
    rw [resolveStmt]
    exact (resolveExpr_hygienic e h).bind fun _ h' => Gives.pure h'
  | .varDecl _ i, ⟨hn, hi⟩ => by
    rw [resolveStmt]
    refine Gives.after fun _ => ?_
    cases i with
    | none =>
      simp only [pure_bind]
      exact Gives.after fun _ => Gives.pure ⟨hn, fun _ h => nomatch h⟩
    | some e =>
      exact (resolveExpr_hygienic e (hi e rfl)).map.bind fun _ ⟨e', he', hinit⟩ =>
        Gives.after fun _ => Gives.pure ⟨hn, fun x hx => by
          rw [hinit] at hx
          cases hx
          exact he'⟩
  | .block b, h => by
    rw [resolveStmt]
    exact Gives.after fun _ => (resolveStmts_hygienic b h).bind fun _ hb => Gives.after fun _ =>
      Gives.pure hb
  | .ifElse c t e, h => by
    obtain ⟨hc, ht, he⟩ := Stmt.hygienic_ifElse.mp h
    rw [resolveStmt]
    refine (resolveExpr_hygienic c hc).bind fun _ hc' => (resolveStmt_hygienic t ht).bind
      fun _ ht' => ?_
    cases e with
    | none => exact Gives.pure ⟨hc', ht', trivial⟩
    | some e =>
      exact (resolveStmt_hygienic e (he e rfl)).bind fun _ he' => Gives.pure ⟨hc', ht', he'⟩
  | .whileLoop c b, ⟨hc, hb⟩ => by
    rw [resolveStmt]
    exact (resolveExpr_hygienic c hc).bind fun _ hc' => (resolveStmt_hygienic b hb).bind
      fun _ hb' => Gives.pure ⟨hc', hb'⟩
  | .funDecl f, h => by
    rw [resolveStmt]
    exact Gives.after fun _ => Gives.after fun _ => (resolveFunction_hygienic f .function h).bind
      fun _ hf => Gives.pure hf
  | .returnStmt _ v, h => by
    rw [resolveStmt]
    refine Gives.after fun _ => ?_
    dsimp only
    refine Gives.ite_report ?_
    cases v with
    | none => exact Gives.pure fun _ h => nomatch h
    | some e =>
      dsimp only
      refine Gives.ite_report ?_
      exact (resolveExpr_hygienic e (h e rfl)).bind fun _ he => Gives.pure fun x hx => by
        cases hx
        exact he
  | .classDecl n sup ms, ⟨hn, hsup, hms⟩ => by
    -- only the superclass expression and the methods are resolved; the rest moves scopes
    have hmethods := resolveMethods_hygienic ms hms
    cases sup with
    | none =>
      rw [resolveStmt_classDecl_none]
      exact Gives.after fun _ => Gives.after fun _ => Gives.after fun _ => Gives.after fun _ =>
        Gives.after fun _ => hmethods.bind fun _ hms' => Gives.after fun _ => Gives.after fun _ =>
          Gives.pure ⟨hn, (fun _ h => nomatch h), hms'⟩
    | some s =>
      rw [resolveStmt_classDecl_some]
      exact Gives.after fun _ => Gives.after fun _ => Gives.after fun _ => Gives.after fun _ =>
        Gives.after fun _ => Gives.after fun _ => (resolveExpr_hygienic s (hsup s rfl)).bind
          fun _ hs' => Gives.after fun _ => Gives.after fun _ => hmethods.bind fun _ hms' =>
            Gives.after fun _ => Gives.after fun _ => Gives.after fun _ =>
              Gives.pure ⟨hn, fun x hx => by cases hx; exact hs', hms'⟩

theorem resolveStmts_hygienic : ∀ ss : List Stmt, Stmt.AllHygienic ss →
    Gives (resolveStmts ss) Stmt.AllHygienic
  | [], _ => by
    rw [resolveStmts]
    exact Gives.pure trivial
  | s :: rest, ⟨hs, hrest⟩ => by
    rw [resolveStmts]
    exact (resolveStmt_hygienic s hs).bind fun _ hs' => (resolveStmts_hygienic rest hrest).bind
      fun _ hrest' => Gives.pure ⟨hs', hrest'⟩

theorem resolveFunction_hygienic : ∀ (f : FunDecl) (kind : FunctionKind), f.Hygienic →
    Gives (resolveFunction f kind) FunDecl.Hygienic
  | .mk _ _ b, kind, ⟨hn, hps, hb⟩ => by
    rw [resolveFunction]
    -- the scope of the parameters is opened and filled before the body
    exact Gives.withFunction kind <| Gives.after fun _ => Gives.after fun _ =>
      (resolveStmts_hygienic b hb).bind fun _ hb' => Gives.after fun _ =>
        Gives.pure ⟨hn, hps, hb'⟩

theorem resolveMethods_hygienic : ∀ fs : List FunDecl, FunDecl.AllHygienic fs →
    Gives (resolveMethods fs) FunDecl.AllHygienic
  | [], _ => by
    rw [resolveMethods]
    exact Gives.pure trivial
  | f :: rest, ⟨hf, hrest⟩ => by
    rw [resolveMethods]
    exact (resolveFunction_hygienic f _ hf).bind fun _ hf' =>
      (resolveMethods_hygienic rest hrest).bind fun _ hrest' => Gives.pure ⟨hf', hrest'⟩

end

end Resolver

/-- Resolution keeps a program hygienic, whatever errors it reports. -/
theorem Program.resolve_hygienic {p : Program} (hp : Stmt.AllHygienic p) :
    Stmt.AllHygienic p.resolve.program :=
  Resolver.resolveStmts_hygienic p hp {}

open Syntax in
/-- Every program the parser returns is hygienic. -/
theorem parseProgram_hygienic {source : String} {P : Program} (h : parseProgram source = .ok P) :
    Stmt.AllHygienic P := by
  rcases parseProgram_accepts buildNumbered_clean (fun _ hs => ⟨rfl, hs⟩) h
    with rfl | ⟨n, r, rfl, hr⟩
  · trivial
  · exact Stmt.allHygienic_iff.mpr fun s hs => hr s (List.mem_reverse.mp hs)

namespace Run

variable {α : Type} {Q : α → Prop}

theorem Kept.ok_of_run {x : Run α} (hx : Kept x Q) {m m' : Machine} {a : α}
    (heq : x.run m = .ok a m') (hm : m.store.Hygienic) :
    m.store.Keeps m'.store ∧ m'.store.Hygienic ∧ Q a := by
  have h : KeptEnds m.store Q (x.run m) := hx m hm
  rw [heq] at h
  exact h

theorem Kept.error_of_run {x : Run α} (hx : Kept x Q) {m m' : Machine} {e : Failure}
    (heq : x.run m = .error e m') (hm : m.store.Hygienic) :
    m.store.Keeps m'.store ∧ m'.store.Hygienic := by
  have h : KeptEnds m.store Q (x.run m) := hx m hm
  rw [heq] at h
  exact h

/-- Top-level hygienic statements keep every frame's binding of `this` and `super`. -/
theorem program_kept : ∀ ss : List Stmt, Stmt.AllHygienic ss → Kept (Run.program ss) fun _ => True
  | [], _ => by
    rw [Run.program]
    exact Kept.pure trivial
  | st :: rest, ⟨hst, hrest⟩ => by
    rw [Run.program]
    exact ((keptAt fuel).exec baseDepth Store.globals st hst).bind fun _ _ =>
      program_kept rest hrest

end Run

namespace Session

/-- What a session step that ends in a session keeps: every frame's binding of `this` and
`super`, and a hygienic store. -/
def KeepsReserved {α : Type} (s : Session) : Except Escape (Session × α) → Prop
  | .ok (s', _) => s.machine.store.Keeps s'.machine.store ∧ s'.machine.store.Hygienic
  | .error _ => True

/-- Running a hygienic program keeps the bindings of `this` and `super`; a program that does not
resolve leaves the store as it was. -/
theorem runProgram_keepsReserved {s : Session} (hs : s.machine.store.Hygienic) {p : Program}
    (hp : Stmt.AllHygienic p) : s.KeepsReserved (s.runProgram p) := by
  unfold runProgram
  dsimp only
  by_cases herr : p.resolve.errors.isEmpty = true
  · rw [if_neg (by simp [herr])]
    have hkept := Run.program_kept _ (Program.resolve_hygienic hp)
    -- the run starts from the session's store
    simp only [note_store, apply_ite Machine.store, ite_self]
    split
    · next m' heq => exact (hkept.ok_of_run heq hs).imp_right And.left
    · next e m' heq =>
      show _ ∧ (note m' 1 _).store.Hygienic
      rw [note_store]
      have hend := hkept.error_of_run heq hs
      exact hend
    · trivial
    · trivial
    · trivial
  · rw [if_pos (by simp [herr])]
    simp only [KeepsReserved, apply_ite Machine.store, ite_self]
    exact ⟨Store.Keeps.refl _, hs⟩

/-- Running a source keeps the bindings of `this` and `super`: what the parser returns is
hygienic. -/
theorem runSource_keepsReserved {s : Session} (hs : s.machine.store.Hygienic) (source : String) :
    s.KeepsReserved (s.runSource source) := by
  unfold runSource
  split
  · exact ⟨Store.Keeps.refl _, hs⟩
  · next p hp => exact runProgram_keepsReserved hs (parseProgram_hygienic hp)

/-- At the prompt, line after line, no frame's binding of `this` or `super` changes. -/
theorem runLines_keepsReserved : ∀ {s : Session}, s.machine.store.Hygienic → ∀ lines,
    s.KeepsReserved (s.runLines lines) := by
  intro s hs lines
  induction lines generalizing s with
  | nil => exact ⟨Store.Keeps.refl _, hs⟩
  | cons line rest ih =>
    have hline := runSource_keepsReserved hs line
    rw [runLines]
    cases hrun : s.runSource line with
    | error e => trivial
    | ok r =>
      obtain ⟨s', report⟩ := r
      rw [hrun] at hline
      -- the rest of the lines run from the store this line left, which is hygienic
      have hrest := ih hline.2
      show KeepsReserved s (s'.runLines rest >>= fun p => pure (p.1, report :: p.2))
      cases hnext : s'.runLines rest with
      | error e => trivial
      | ok r' =>
        rw [hnext] at hrest
        exact ⟨hline.1.trans hrest.1, hrest.2⟩

end Session

end Lox
