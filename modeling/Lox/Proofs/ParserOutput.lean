import Lox.Syntax.Parse

/-!
# What the parser builds

Every program the parser returns has the shape that only source text can give it: no reference
carries a depth yet (scope resolution fills them in later), every constant is one a source can
write (never a value read from a document), every token is of a terminal of the grammar, and a
superclass is a plain variable. `Stmt.Parsed` says this, and `parseProgram_parsed` proves it
for every program `parseProgram` returns.

The proof does not look at the parse table. Every reduction builds its value from values already
on the stack and from fixed parts (`build_parsed`), and the runner only moves values between the
word, the stack and its result (`Table.feedWith_all`), so a property of values that the
reductions keep holds of whatever the runner accepts.
-/

namespace Lox

/-- A token of source text: its kind is a terminal of the grammar. -/
def Token.IsTerminal (tok : Token) : Prop := ∃ t, tok.kind = .terminal t

/-- A constant a source can write: anything but a value read from a document. -/
def Constant.Writable : Constant → Prop
  | .data _ => False
  | _ => True

mutual

/-- An expression as the parser builds it. -/
def Expr.Parsed : Expr → Prop
  | .literal c => c.Writable
  | .grouping e => e.Parsed
  | .var n d => n.IsTerminal ∧ d = none
  | .assign n v d => n.IsTerminal ∧ v.Parsed ∧ d = none
  | .unary op e => op.IsTerminal ∧ e.Parsed
  | .binary l op r => l.Parsed ∧ op.IsTerminal ∧ r.Parsed
  | .logical l op r => l.Parsed ∧ op.IsTerminal ∧ r.Parsed
  | .call c p args => c.Parsed ∧ p.IsTerminal ∧ Expr.AllParsed args
  | .get o n => o.Parsed ∧ n.IsTerminal
  | .set o n v => o.Parsed ∧ n.IsTerminal ∧ v.Parsed
  | .thisRef k d => k.IsTerminal ∧ d = none
  | .superMethod k m d => k.IsTerminal ∧ m.IsTerminal ∧ d = none

/-- Expressions as the parser builds them. -/
def Expr.AllParsed : List Expr → Prop
  | [] => True
  | e :: rest => e.Parsed ∧ Expr.AllParsed rest

end

mutual

/-- A statement as the parser builds it. -/
def Stmt.Parsed : Stmt → Prop
  | .expr e => e.Parsed
  | .print e => e.Parsed
  | .varDecl n i => n.IsTerminal ∧ ∀ e ∈ i, e.Parsed
  | .block b => Stmt.AllParsed b
  | .ifElse c t e =>
    c.Parsed ∧ t.Parsed ∧
      match e with
      | some e => e.Parsed
      | none => True
  | .whileLoop c b => c.Parsed ∧ b.Parsed
  | .funDecl f => f.Parsed
  | .returnStmt k v => k.IsTerminal ∧ ∀ e ∈ v, e.Parsed
  | .classDecl n s ms =>
    n.IsTerminal ∧ (∀ e ∈ s, ∃ m, m.IsTerminal ∧ e = .var m none) ∧ FunDecl.AllParsed ms

/-- Statements as the parser builds them. -/
def Stmt.AllParsed : List Stmt → Prop
  | [] => True
  | s :: rest => s.Parsed ∧ Stmt.AllParsed rest

/-- A function declaration as the parser builds it. -/
def FunDecl.Parsed : FunDecl → Prop
  | .mk n ps b => n.IsTerminal ∧ (∀ p ∈ ps, p.IsTerminal) ∧ Stmt.AllParsed b

/-- Function declarations as the parser builds them. -/
def FunDecl.AllParsed : List FunDecl → Prop
  | [] => True
  | f :: rest => f.Parsed ∧ FunDecl.AllParsed rest

end

theorem Expr.allParsed_iff {es : List Expr} : Expr.AllParsed es ↔ ∀ e ∈ es, e.Parsed := by
  induction es with
  | nil => simp [Expr.AllParsed]
  | cons e rest ih => simp [Expr.AllParsed, ih]

theorem Stmt.allParsed_iff {ss : List Stmt} : Stmt.AllParsed ss ↔ ∀ s ∈ ss, s.Parsed := by
  induction ss with
  | nil => simp [Stmt.AllParsed]
  | cons s rest ih => simp [Stmt.AllParsed, ih]

theorem FunDecl.allParsed_iff {fs : List FunDecl} :
    FunDecl.AllParsed fs ↔ ∀ f ∈ fs, f.Parsed := by
  induction fs with
  | nil => simp [FunDecl.AllParsed]
  | cons f rest ih => simp [FunDecl.AllParsed, ih]

namespace Syntax

/-- A fragment as the parser builds it: each tree in it is `Parsed`, each token a terminal. -/
def Fragment.Parsed : Fragment → Prop
  | .token tok => tok.IsTerminal
  | .expr e => e.Parsed
  | .stmt s => s.Parsed
  | .stmts r => ∀ s ∈ r, s.Parsed
  | .function f => f.Parsed
  | .functions r => ∀ f ∈ r, f.Parsed
  | .tokens r => ∀ t ∈ r, t.IsTerminal
  | .exprs r => ∀ e ∈ r, e.Parsed
  | .pairs r => ∀ p ∈ r, p.1.IsTerminal ∧ p.2.Parsed
  | .optionalExpr e => ∀ x ∈ e, x.Parsed
  | .initializer s => ∀ x ∈ s, x.Parsed
  | .nothing => True

/-! Unfolding `Fragment.Parsed` one constructor at a time, so that a fragment the reductions
ignore stays folded. -/

theorem Fragment.parsed_token {tok : Token} : (Fragment.token tok).Parsed ↔ tok.IsTerminal :=
  Iff.rfl
theorem Fragment.parsed_expr {e : Expr} : (Fragment.expr e).Parsed ↔ e.Parsed := Iff.rfl
theorem Fragment.parsed_stmt {s : Stmt} : (Fragment.stmt s).Parsed ↔ s.Parsed := Iff.rfl
theorem Fragment.parsed_stmts {r : List Stmt} :
    (Fragment.stmts r).Parsed ↔ ∀ s ∈ r, s.Parsed := Iff.rfl
theorem Fragment.parsed_function {f : FunDecl} : (Fragment.function f).Parsed ↔ f.Parsed :=
  Iff.rfl
theorem Fragment.parsed_functions {r : List FunDecl} :
    (Fragment.functions r).Parsed ↔ ∀ f ∈ r, f.Parsed := Iff.rfl
theorem Fragment.parsed_tokens {r : List Token} :
    (Fragment.tokens r).Parsed ↔ ∀ t ∈ r, t.IsTerminal := Iff.rfl
theorem Fragment.parsed_exprs {r : List Expr} :
    (Fragment.exprs r).Parsed ↔ ∀ e ∈ r, e.Parsed := Iff.rfl
theorem Fragment.parsed_pairs {r : List (Token × Expr)} :
    (Fragment.pairs r).Parsed ↔ ∀ p ∈ r, p.1.IsTerminal ∧ p.2.Parsed := Iff.rfl
theorem Fragment.parsed_optionalExpr {e : Option Expr} :
    (Fragment.optionalExpr e).Parsed ↔ ∀ x ∈ e, x.Parsed := Iff.rfl
theorem Fragment.parsed_initializer {s : Option Stmt} :
    (Fragment.initializer s).Parsed ↔ ∀ x ∈ s, x.Parsed := Iff.rfl

theorem constantOf_writable (tok : Token) : (constantOf tok).Writable := by
  unfold constantOf
  split <;> trivial

theorem forLoop_parsed {init : Option Stmt} {cond incr : Option Expr} {body : Stmt}
    (hinit : ∀ s ∈ init, s.Parsed) (hcond : ∀ e ∈ cond, e.Parsed) (hincr : ∀ e ∈ incr, e.Parsed)
    (hbody : body.Parsed) : (forLoop init cond incr body).Parsed := by
  have hcond' : (cond.getD (.literal (.bool true))).Parsed := by
    cases cond with
    | none => trivial
    | some e => exact hcond e rfl
  unfold forLoop
  cases init <;> cases incr <;> simp_all [Stmt.Parsed, Stmt.AllParsed]

theorem foldChain_parsed (logical : Bool) {first : Expr} {pairs : List (Token × Expr)}
    (hfirst : first.Parsed) (hpairs : ∀ p ∈ pairs, p.1.IsTerminal ∧ p.2.Parsed) :
    (foldChain logical first pairs).Parsed := by
  -- the fold keeps a parsed accumulator: each step puts it under one more operator
  induction pairs generalizing first with
  | nil => exact hfirst
  | cons p rest ih =>
    obtain ⟨hp, hrest⟩ := List.forall_mem_cons.mp hpairs
    apply ih _ hrest
    cases logical
    · exact ⟨hfirst, hp.1, hp.2⟩
    · exact ⟨hfirst, hp.1, hp.2⟩

theorem functionOf_parsed {name : Token} {params : List Token} {body : Stmt}
    (hname : name.IsTerminal) (hparams : ∀ p ∈ params, p.IsTerminal) (hbody : body.Parsed) :
    (functionOf name params body).1.Parsed := by
  refine ⟨hname, hparams, ?_⟩
  cases body
  case block b => exact hbody
  all_goals exact ⟨hbody, trivial⟩

theorem assignTo_parsed {target value : Expr} (equals : Token) (htarget : target.Parsed)
    (hvalue : value.Parsed) : (assignTo target equals value).1.Parsed := by
  unfold assignTo
  split
  · exact ⟨htarget.1, hvalue, rfl⟩
  · exact ⟨htarget.1, htarget.2, hvalue⟩
  · exact htarget

theorem callOf_parsed {callee : Expr} {paren : Token} {args : List Expr}
    (hcallee : callee.Parsed) (hparen : paren.IsTerminal) (hargs : ∀ a ∈ args, a.Parsed) :
    (callOf callee paren args).1.Parsed :=
  ⟨hcallee, hparen, Expr.allParsed_iff.mpr hargs⟩

/-- Every reduction builds a parsed value from parsed values. -/
theorem build_parsed (p : Production) (args : List Fragment) (h : ∀ f ∈ args, f.Parsed) :
    (p.build args).1.Parsed := by
  cases p
  -- the productions that build through a helper of their own
  case functionParams =>
    simp only [Production.build]
    split
    · simp only [List.mem_cons, List.not_mem_nil, or_false, forall_eq_or_imp, forall_eq] at h
      exact functionOf_parsed h.1 (fun x hx => h.2.2.1 x (List.mem_reverse.mp hx)) h.2.2.2.2
    · trivial
  case functionPlain =>
    simp only [Production.build]
    split
    · simp only [List.mem_cons, List.not_mem_nil, or_false, forall_eq_or_imp, forall_eq] at h
      exact functionOf_parsed h.1 (by simp) h.2.2.2
    · trivial
  case assignmentTarget =>
    simp only [Production.build]
    split
    · simp only [List.mem_cons, List.not_mem_nil, or_false, forall_eq_or_imp, forall_eq] at h
      exact assignTo_parsed _ h.1 h.2.2
    · trivial
  case chainLong =>
    simp only [Production.build]
    split
    · simp only [List.mem_cons, List.not_mem_nil, or_false, forall_eq_or_imp, forall_eq] at h
      exact foldChain_parsed _ h.1 fun x hx => h.2 x (List.mem_reverse.mp hx)
    · trivial
  case callArgs =>
    simp only [Production.build]
    split
    · simp only [List.mem_cons, List.not_mem_nil, or_false, forall_eq_or_imp, forall_eq] at h
      exact callOf_parsed h.1 h.2.2.2 fun x hx => h.2.2.1 x (List.mem_reverse.mp hx)
    · trivial
  case callEmpty =>
    simp only [Production.build]
    split
    · simp only [List.mem_cons, List.not_mem_nil, or_false, forall_eq_or_imp, forall_eq] at h
      exact callOf_parsed h.1 h.2.2 (by simp)
    · trivial
  case forStmt =>
    simp only [Production.build]
    split
    · simp only [List.mem_cons, List.not_mem_nil, or_false, forall_eq_or_imp, forall_eq] at h
      exact forLoop_parsed h.2.2.1 h.2.2.2.1 h.2.2.2.2.2.1 h.2.2.2.2.2.2.2
    · trivial
  -- every other production assembles its value from its arguments directly
  all_goals
    simp only [Production.build]
    split
    · simp only [List.forall_mem_cons, List.not_mem_nil, false_imp_iff, implies_true, and_true,
        Fragment.parsed_token, Fragment.parsed_expr, Fragment.parsed_stmt, Fragment.parsed_stmts,
        Fragment.parsed_function, Fragment.parsed_functions, Fragment.parsed_tokens,
        Fragment.parsed_exprs, Fragment.parsed_pairs, Fragment.parsed_optionalExpr,
        Fragment.parsed_initializer, clean] at h ⊢
      all_goals simp_all [Stmt.Parsed, Expr.Parsed, constantOf_writable, Stmt.allParsed_iff,
        FunDecl.allParsed_iff, List.forall_mem_append, -List.mem_append]
      all_goals first | trivial | exact h.1
    · trivial

theorem buildNumbered_parsed (p : Nat) (args : List Fragment) (h : ∀ f ∈ args, f.Parsed) :
    (buildNumbered p args).1.Parsed := by
  unfold buildNumbered
  split
  · exact build_parsed _ args h
  · trivial

end Syntax

namespace Table

section Invariant

variable {α ε : Type} {P : α → Prop}

/-- Every value on the stack satisfies `P`. -/
def Config.All (P : α → Prop) (c : Config α ε) : Prop := ∀ x ∈ c.stack, P x.2

/-- What feeding a terminal leaves satisfies `P`: every value on a shifted stack, or the value
accepted. -/
def Fed.All (P : α → Prop) : Fed α ε → Prop
  | .shifted c => c.All P
  | .accepted w _ => P w
  | .rejected _ => True

/-- Every value on the stack left after a whole word satisfies `P`. -/
def Reading.All (P : α → Prop) : Reading α ε → Prop
  | .consumed c => c.All P
  | .stopped _ _ => True

variable (tbl : Table) {build : Nat → List α → α × List ε}
  (hbuild : ∀ p args, (∀ a ∈ args, P a) → P (build p args).1)
include hbuild

/-- Feeding one terminal whose value satisfies `P` keeps `P` of every value on the stack. -/
theorem feedWith_all (t : Nat) {v : α} (hv : P v) (atEnd : Bool) :
    ∀ (fuel : Nat) (c : Config α ε), c.All P → (tbl.feedWith build t v atEnd fuel c).All P := by
  intro fuel
  induction fuel with
  | zero => intro c _; trivial
  | succ fuel ih =>
    intro c hc
    rw [feedWith]
    split
    · trivial
    · intro x hx
      rcases List.mem_cons.mp hx with rfl | hx
      · exact hv
      · exact hc x hx
    · -- a reduction: the value it builds is made of values taken off the stack
      rename_i p _
      split
      rename_i lhs n _
      have hw : P (build p ((c.stack.take n).reverse.map (·.2))).1 := hbuild _ _ fun a ha => by
        obtain ⟨x, hx, rfl⟩ := List.mem_map.mp ha
        exact hc x (List.mem_of_mem_take (List.mem_reverse.mp hx))
      split
      rename_i w notes hbuilt
      rw [hbuilt] at hw
      dsimp only
      split
      · trivial
      · split
        · exact hw
        · apply ih
          intro x hx
          rcases List.mem_cons.mp hx with rfl | hx
          · exact hw
          · exact hc x (List.mem_of_mem_drop hx)

theorem feed_all (t : Nat) {v : α} (hv : P v) (atEnd : Bool) {c : Config α ε} (hc : c.All P) :
    (tbl.feed build t v atEnd c).All P :=
  feedWith_all tbl hbuild t hv atEnd _ c hc

/-- Feeding a word of values that satisfy `P` keeps `P` of every value on the stack. -/
theorem feedWord_all (word : List (Nat × α)) (hword : ∀ x ∈ word, P x.2) :
    ∀ (i : Nat) (c : Config α ε), c.All P → (tbl.feedWord build i word c).All P := by
  induction word with
  | nil => intro i c hc; exact hc
  | cons x rest ih =>
    intro i c hc
    obtain ⟨t, v⟩ := x
    have hfed := feed_all tbl hbuild t (hword (t, v) List.mem_cons_self) false hc
    rw [feedWord]
    split
    · rename_i c' hshift
      rw [hshift] at hfed
      exact ih (fun x hx => hword x (List.mem_cons_of_mem _ hx)) (i + 1) c' hfed
    · trivial
    · trivial

end Invariant

end Table

theorem Lexer.scanFrom_terminal (fuel : Nat) : ∀ (cs : List Char) (line column : Nat)
    (acc : List Token), (∀ tok ∈ acc, tok.IsTerminal) →
    ∀ tok ∈ (Lexer.scanFrom fuel cs line column acc).tokens, tok.IsTerminal := by
  induction fuel with
  | zero => intro cs line column acc hacc; simpa [Lexer.scanFrom] using hacc
  | succ fuel ih =>
    intro cs line column acc hacc
    cases cs with
    | nil => simpa [Lexer.scanFrom] using hacc
    | cons c cs =>
      rw [Lexer.scanFrom]
      split
      · simpa using hacc
      · split
        split
        · exact ih _ _ _ _ hacc
        · rename_i t _ _
          refine ih _ _ _ _ fun tok htok => ?_
          rcases List.mem_cons.mp htok with rfl | htok
          · exact ⟨t, rfl⟩
          · exact hacc tok htok

theorem Token.scan_terminal (source : String) :
    ∀ tok ∈ (Token.scan source).tokens, tok.IsTerminal :=
  Lexer.scanFrom_terminal _ _ _ _ _ (by simp)

open Syntax in
/-- Every program the parser returns is `Parsed`. -/
theorem parseProgram_parsed {source : String} {S : Program} (h : parseProgram source = .ok S) :
    ∀ s ∈ S, s.Parsed := by
  have hword : ∀ x ∈ (Token.scan source).tokens.map
      (fun tok => (terminalOf tok, Fragment.token tok)), x.2.Parsed := by
    intro x hx
    obtain ⟨tok, htok, rfl⟩ := List.mem_map.mp hx
    exact Token.scan_terminal source tok htok
  have hread := Table.feedWord_all table buildNumbered_parsed _ hword 0 Table.Config.initial
    (by intro x hx; simp [Table.Config.initial] at hx)
  unfold parseProgram at h
  dsimp only at h
  split at h
  · cases h
  · rename_i c hc
    rw [hc] at hread
    split at h
    · cases h
    · -- the end marker is fed last, and only an accepted list of statements is a program
      have hend : (Fragment.token (Token.endOfInput (Token.scan source).tokens)).Parsed :=
        ⟨.eof, rfl⟩
      have hfed := Table.feed_all table buildNumbered_parsed Terminal.eof.index hend true hread
      split at h
      · rename_i r issues hacc
        rw [hacc] at hfed
        split at h
        · cases h
          intro s hs
          exact hfed s (List.mem_reverse.mp hs)
        · cases h
      · split at h
        · cases h
          intro s hs
          cases hs
        · cases h
      · cases h
      · cases h

end Lox
