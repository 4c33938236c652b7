import Lox.Syntax.Parse
import Lox.Proofs.MaximalMunch
import Lox.Proofs.ViablePrefix

/-!
# What only the grammar can build

A program the parser returns has shapes that no reduction could give it on its own: the names
that declarations bind are identifiers, never the keywords `this` and `super`; the branches of a
conditional and the body of a loop are statements, which declare nothing in the scope they stand
in; and `this` and `super` are spelled as their keywords. `Stmt.Shaped` says this.

`parseProgram_shaped` proves it of every program the parser returns. Where `Syntax.Fragment.Typed`
gives each grammar symbol the values its reductions can build, every reduction keeps the types
(`build_typed`), and the runner keeps a stack that reads the grammar's symbols
(`Table.feedWord_reads`), so the accepted value has the type of a nonterminal
(`parseProgram_accepts`, for any such typing). The tokens enter
typed because the lexer spells each token as its terminal (`Lexer.Scanned.spelt`).
-/
namespace Lox

/-- A name a declaration may bind: neither of the two keywords that scopes reserve. -/
def Token.Declarable (tok : Token) : Prop := tok.lexeme ≠ "this" ∧ tok.lexeme ≠ "super"

/-- The name a statement declares in the scope it stands in: that of a variable, a function or a
class. -/
def Stmt.declared? : Stmt → Option Token
  | .varDecl n _ => some n
  | .funDecl f => some f.name
  | .classDecl n _ _ => some n
  | _ => none

mutual

/-- An expression as only the grammar can build it: `this` and `super` are spelled so. -/
def Expr.Shaped : Expr → Prop
  | .literal _ => True
  | .grouping e => e.Shaped
  | .var _ _ => True
  | .assign _ v _ => v.Shaped
  | .unary _ e => e.Shaped
  | .binary l _ r => l.Shaped ∧ r.Shaped
  | .logical l _ r => l.Shaped ∧ r.Shaped
  | .call c _ args => c.Shaped ∧ Expr.AllShaped args
  | .get o _ => o.Shaped
  | .set o _ v => o.Shaped ∧ v.Shaped
  | .thisRef k _ => k.lexeme = "this"
  | .superMethod k _ _ => k.lexeme = "super"

/-- Expressions as only the grammar can build them. -/
def Expr.AllShaped : List Expr → Prop
  | [] => True
  | e :: rest => e.Shaped ∧ Expr.AllShaped rest

end

mutual

/-- A statement as only the grammar can build it: declared names are declarable, the branches
of a conditional and the body of a loop declare nothing, and a superclass is a variable. -/
def Stmt.Shaped : Stmt → Prop
  | .expr e => e.Shaped
  | .print e => e.Shaped
  | .varDecl n i => n.Declarable ∧ ∀ e ∈ i, e.Shaped
  | .block b => Stmt.AllShaped b
  | .ifElse c t e =>
    c.Shaped ∧ t.Shaped ∧ t.declared? = none ∧
      match e with
      | some e => e.Shaped ∧ e.declared? = none
      | none => True
  | .whileLoop c b => c.Shaped ∧ b.Shaped ∧ b.declared? = none
  | .funDecl f => f.Shaped
  | .returnStmt _ v => ∀ e ∈ v, e.Shaped
  | .classDecl n s ms => n.Declarable ∧ (∀ e ∈ s, ∃ m, e = .var m none) ∧ FunDecl.AllShaped ms

/-- Statements as only the grammar can build them. -/
def Stmt.AllShaped : List Stmt → Prop
  | [] => True
  | s :: rest => s.Shaped ∧ Stmt.AllShaped rest

/-- A function as only the grammar can build it. -/
def FunDecl.Shaped : FunDecl → Prop
  | .mk n ps b => n.Declarable ∧ (∀ p ∈ ps, p.Declarable) ∧ Stmt.AllShaped b

/-- Functions as only the grammar can build them. -/
def FunDecl.AllShaped : List FunDecl → Prop
  | [] => True
  | f :: rest => f.Shaped ∧ FunDecl.AllShaped rest

end

theorem Expr.allShaped_iff {es : List Expr} : Expr.AllShaped es ↔ ∀ e ∈ es, e.Shaped := by
  induction es with
  | nil => simp [Expr.AllShaped]
  | cons e rest ih => simp [Expr.AllShaped, ih]

theorem Stmt.allShaped_iff {ss : List Stmt} : Stmt.AllShaped ss ↔ ∀ s ∈ ss, s.Shaped := by
  induction ss with
  | nil => simp [Stmt.AllShaped]
  | cons s rest ih => simp [Stmt.AllShaped, ih]

theorem FunDecl.allShaped_iff {fs : List FunDecl} :
    FunDecl.AllShaped fs ↔ ∀ f ∈ fs, f.Shaped := by
  induction fs with
  | nil => simp [FunDecl.AllShaped]
  | cons f rest ih => simp [FunDecl.AllShaped, ih]

/-- A token spelled as its kind says: a token of a terminal with a fixed text has that text, and
an identifier spells no keyword. -/
def Token.Spelt (tok : Token) : Prop :=
  ∀ t, tok.kind = .terminal t →
    (∀ text, t.text? = some text → tok.lexeme = text) ∧
      (t = .identifier → Terminal.keyword? tok.lexeme = none)

theorem Terminal.all_index (t : Terminal) : Terminal.all[t.index]? = some t := by
  cases t <;> rfl

theorem Terminal.index_inj {t t' : Terminal} (h : t.index = t'.index) : t = t' := by
  have ht := Terminal.all_index t
  rw [h, Terminal.all_index] at ht
  exact (Option.some.inj ht).symm

theorem Token.kind_of_terminalOf {tok : Token} {t : Terminal}
    (h : Syntax.terminalOf tok = t.index) (ht : t ≠ .eof) : tok.kind = .terminal t := by
  unfold Syntax.terminalOf at h
  split at h
  · next t' hk => rw [hk, Terminal.index_inj h]
  · exact absurd (Terminal.index_inj h).symm ht

theorem Token.lexeme_of_terminalOf {tok : Token} {t : Terminal} {text : String}
    (h : Syntax.terminalOf tok = t.index) (hs : tok.Spelt) (htext : t.text? = some text) :
    tok.lexeme = text := by
  have ht : t ≠ .eof := by
    rintro rfl
    cases htext
  exact (hs t (Token.kind_of_terminalOf h ht)).1 text htext

/-- An identifier the parser reads is declarable: `this` and `super` are keywords. -/
theorem Token.declarable_of_terminalOf {tok : Token}
    (h : Syntax.terminalOf tok = Terminal.identifier.index) (hs : tok.Spelt) :
    tok.Declarable := by
  have hkw := (hs .identifier (Token.kind_of_terminalOf h (by decide))).2 rfl
  constructor
  · intro heq
    rw [heq] at hkw
    simp [Terminal.keyword?, Terminal.text?] at hkw
  · intro heq
    rw [heq] at hkw
    simp [Terminal.keyword?, Terminal.text?] at hkw

theorem Lexer.Spells.spelt {t : Terminal} {w : List Char} (h : Lexer.Spells t w) (literal : Json)
    (line column : Nat) : Token.Spelt ⟨.terminal t, String.ofList w, literal, line, column⟩ := by
  intro t' ht'
  cases ht'
  cases h with
  | fixed hfix =>
    refine ⟨fun text htext => ?_, fun hid => ?_⟩
    · rw [htext, Option.map_some, Option.some.injEq] at hfix
      simp [← hfix]
    · subst hid
      cases hfix
  | identifier _ hkw => exact ⟨fun text htext => (by cases htext), fun _ => hkw⟩
  | number _ => exact ⟨fun text htext => (by cases htext), fun hid => (by cases hid)⟩
  | string _ => exact ⟨fun text htext => (by cases htext), fun hid => (by cases hid)⟩

/-- Every token the lexer scans is spelled as its terminal. -/
theorem Lexer.Scanned.spelt {before cs : List Char} {tokens : List Token}
    {stop : Option LexError} (h : Lexer.Scanned before cs tokens stop) :
    ∀ tok ∈ tokens, tok.Spelt := by
  induction h with
  | finished => simp
  | stuck => simp
  | skip _ _ _ ih => exact ih
  | token hspells _ _ ih =>
    intro tok htok
    rcases List.mem_cons.mp htok with rfl | htok
    · exact hspells.spelt _ _ _
    · exact ih tok htok

theorem Token.scan_spelt (source : String) : ∀ tok ∈ (Token.scan source).tokens, tok.Spelt :=
  ((Token.scan_eq_iff source _ _).mp rfl).spelt

theorem Token.endOfInput_spelt (tokens : List Token) : (Token.endOfInput tokens).Spelt := by
  intro t ht
  cases ht
  exact ⟨fun text htext => (by cases htext), fun hid => (by cases hid)⟩

namespace Syntax

/-- The nonterminals whose statements may declare a name: a declaration and its three kinds. -/
def declaringIndices : List Nat :=
  [Nonterminal.declaration, .classDecl, .funDecl, .varDecl].map Nonterminal.index

/-- A fragment as only the grammar builds it: its trees are `Shaped`, and the parameters of a
function are declarable. -/
def Fragment.Shaped : Fragment → Prop
  | .token _ => True
  | .expr e => e.Shaped
  | .stmt s => s.Shaped
  | .stmts r => ∀ s ∈ r, s.Shaped
  | .function f => f.Shaped
  | .functions r => ∀ f ∈ r, f.Shaped
  | .tokens r => ∀ t ∈ r, t.Declarable
  | .exprs r => ∀ e ∈ r, e.Shaped
  | .pairs r => ∀ p ∈ r, p.2.Shaped
  | .optionalExpr e => ∀ x ∈ e, x.Shaped
  | .initializer s => ∀ x ∈ s, x.Shaped
  | .nothing => True

/-- `Fragment.Typed x v`: `v` is a value the reductions can give the grammar symbol `x`. The
token of a terminal is of that terminal and spelled as it; the value of a nonterminal is
`Shaped`, and its statement declares nothing unless the nonterminal is a declaration. -/
def Fragment.Typed : Grammar.Symbol → Fragment → Prop
  | .terminal i, .token tok => terminalOf tok = i ∧ tok.Spelt
  | .terminal _, _ => True
  | .nonterminal n, .stmt s => s.Shaped ∧ (n ∉ declaringIndices → s.declared? = none)
  | .nonterminal _, v => v.Shaped

/-! Unfolding `Fragment.Typed` one constructor at a time, so that a fragment a reduction ignores
stays folded. -/

section Typed

variable {i n : Nat}

@[simp] theorem Fragment.typed_token {tok : Token} :
    (Fragment.token tok).Typed (.terminal i) ↔ terminalOf tok = i ∧ tok.Spelt := Iff.rfl
@[simp] theorem Fragment.typed_nonterminal_token {tok : Token} :
    (Fragment.token tok).Typed (.nonterminal n) ↔ True := Iff.rfl
@[simp] theorem Fragment.typed_expr {e : Expr} :
    (Fragment.expr e).Typed (.nonterminal n) ↔ e.Shaped := Iff.rfl
@[simp] theorem Fragment.typed_stmt {s : Stmt} :
    (Fragment.stmt s).Typed (.nonterminal n) ↔
      s.Shaped ∧ (n ∉ declaringIndices → s.declared? = none) := Iff.rfl
@[simp] theorem Fragment.typed_stmts {r : List Stmt} :
    (Fragment.stmts r).Typed (.nonterminal n) ↔ ∀ s ∈ r, s.Shaped := Iff.rfl
@[simp] theorem Fragment.typed_function {f : FunDecl} :
    (Fragment.function f).Typed (.nonterminal n) ↔ f.Shaped := Iff.rfl
@[simp] theorem Fragment.typed_functions {r : List FunDecl} :
    (Fragment.functions r).Typed (.nonterminal n) ↔ ∀ f ∈ r, f.Shaped := Iff.rfl
@[simp] theorem Fragment.typed_tokens {r : List Token} :
    (Fragment.tokens r).Typed (.nonterminal n) ↔ ∀ t ∈ r, t.Declarable := Iff.rfl
@[simp] theorem Fragment.typed_exprs {r : List Expr} :
    (Fragment.exprs r).Typed (.nonterminal n) ↔ ∀ e ∈ r, e.Shaped := Iff.rfl
@[simp] theorem Fragment.typed_pairs {r : List (Token × Expr)} :
    (Fragment.pairs r).Typed (.nonterminal n) ↔ ∀ p ∈ r, p.2.Shaped := Iff.rfl
@[simp] theorem Fragment.typed_optionalExpr {e : Option Expr} :
    (Fragment.optionalExpr e).Typed (.nonterminal n) ↔ ∀ x ∈ e, x.Shaped := Iff.rfl
@[simp] theorem Fragment.typed_initializer {s : Option Stmt} :
    (Fragment.initializer s).Typed (.nonterminal n) ↔ ∀ x ∈ s, x.Shaped := Iff.rfl
@[simp] theorem Fragment.typed_nothing : Fragment.nothing.Typed (.nonterminal n) ↔ True :=
  Iff.rfl

/-- A value passed up from a nonterminal to one that declares no more than it keeps its type. -/
theorem Fragment.Typed.pass {m : Nat} {v : Fragment} (h : v.Typed (.nonterminal m))
    (hmn : n ∉ declaringIndices → m ∉ declaringIndices) : v.Typed (.nonterminal n) := by
  cases v
  case stmt s => exact ⟨h.1, fun hn => h.2 (hmn hn)⟩
  all_goals exact h

end Typed

theorem forLoop_shaped {init : Option Stmt} {cond incr : Option Expr} {body : Stmt}
    (hinit : ∀ s ∈ init, s.Shaped) (hcond : ∀ e ∈ cond, e.Shaped)
    (hincr : ∀ e ∈ incr, e.Shaped) (hbody : body.Shaped) (hquiet : body.declared? = none) :
    (forLoop init cond incr body).Shaped ∧ (forLoop init cond incr body).declared? = none := by
  have hcond' : (cond.getD (.literal (.bool true))).Shaped := by
    cases cond with
    | none => trivial
    | some e => exact hcond e rfl
  unfold forLoop
  cases init <;> cases incr <;> simp_all [Stmt.Shaped, Stmt.AllShaped, Stmt.declared?]

theorem foldChain_shaped (logical : Bool) {first : Expr} {pairs : List (Token × Expr)}
    (hfirst : first.Shaped) (hpairs : ∀ p ∈ pairs, p.2.Shaped) :
    (foldChain logical first pairs).Shaped := by
  -- the fold keeps a shaped accumulator: each step puts it under one more operator
  induction pairs generalizing first with
  | nil => exact hfirst
  | cons p rest ih =>
    obtain ⟨hp, hrest⟩ := List.forall_mem_cons.mp hpairs
    apply ih _ hrest
    cases logical
    · exact ⟨hfirst, hp⟩
    · exact ⟨hfirst, hp⟩

theorem functionOf_shaped {name : Token} {params : List Token} {body : Stmt}
    (hname : name.Declarable) (hparams : ∀ p ∈ params, p.Declarable) (hbody : body.Shaped) :
    (functionOf name params body).1.Typed (.nonterminal Nonterminal.function.index) := by
  refine ⟨hname, hparams, ?_⟩
  cases body
  case block b => exact hbody
  all_goals exact ⟨hbody, trivial⟩

theorem assignTo_shaped {target value : Expr} (equals : Token) (htarget : target.Shaped)
    (hvalue : value.Shaped) :
    (assignTo target equals value).1.Typed (.nonterminal Nonterminal.assignment.index) := by
  unfold assignTo
  split
  · exact hvalue
  · exact ⟨htarget, hvalue⟩
  · exact htarget

theorem callOf_shaped {callee : Expr} {paren : Token} {args : List Expr}
    (hcallee : callee.Shaped) (hargs : ∀ a ∈ args, a.Shaped) :
    (callOf callee paren args).1.Typed (.nonterminal Nonterminal.call.index) :=
  ⟨hcallee, Expr.allShaped_iff.mpr hargs⟩

/-- Every reduction builds a value of its left side's type from values of its right side's
types. -/
theorem build_typed (p : Production) (args : List Fragment)
    (h : List.Forall₂ Fragment.Typed (p.rhs.map Production.numbered) args) :
    (p.build args).1.Typed (.nonterminal p.lhs.index) := by
  cases p
  -- the productions that build through a helper of their own
  case functionParams =>
    simp only [Production.build]
    split
    · simp only [Production.rhs, List.map_cons, List.map_nil, Production.numbered,
        List.forall₂_cons, List.forall₂_nil_left_iff, and_true] at h
      obtain ⟨⟨hname, hspelt⟩, -, hparams, -, hbody, -⟩ := h
      exact functionOf_shaped (Token.declarable_of_terminalOf hname hspelt)
        (fun x hx => hparams x (List.mem_reverse.mp hx)) hbody
    · trivial
  case functionPlain =>
    simp only [Production.build]
    split
    · simp only [Production.rhs, List.map_cons, List.map_nil, Production.numbered,
        List.forall₂_cons, List.forall₂_nil_left_iff, and_true] at h
      obtain ⟨⟨hname, hspelt⟩, -, -, hbody, -⟩ := h
      exact functionOf_shaped (Token.declarable_of_terminalOf hname hspelt) (by simp) hbody
    · trivial
  case assignmentTarget =>
    simp only [Production.build]
    split
    · simp only [Production.rhs, List.map_cons, List.map_nil, Production.numbered,
        List.forall₂_cons, List.forall₂_nil_left_iff, and_true] at h
      exact assignTo_shaped _ h.1 h.2.2
    · trivial
  case chainLong =>
    simp only [Production.build]
    split
    · simp only [Production.rhs, List.map_cons, List.map_nil, Production.numbered,
        List.forall₂_cons, List.forall₂_nil_left_iff, and_true, Fragment.typed_expr,
        Fragment.typed_pairs] at h
      exact foldChain_shaped _ h.1 fun x hx => h.2 x (List.mem_reverse.mp hx)
    · trivial
  case callArgs =>
    simp only [Production.build]
    split
    · simp only [Production.rhs, List.map_cons, List.map_nil, Production.numbered,
        List.forall₂_cons, List.forall₂_nil_left_iff, and_true, Fragment.typed_expr,
        Fragment.typed_exprs] at h
      exact callOf_shaped h.1 fun x hx => h.2.2.1 x (List.mem_reverse.mp hx)
    · trivial
  case callEmpty =>
    simp only [Production.build]
    split
    · simp only [Production.rhs, List.map_cons, List.map_nil, Production.numbered,
        List.forall₂_cons, List.forall₂_nil_left_iff, and_true, Fragment.typed_expr] at h
      exact callOf_shaped h.1 (by simp)
    · trivial
  case forStmt =>
    simp only [Production.build]
    split
    · simp only [Production.rhs, List.map_cons, List.map_nil, Production.numbered,
        List.forall₂_cons, List.forall₂_nil_left_iff, and_true, Fragment.typed_initializer,
        Fragment.typed_optionalExpr, Fragment.typed_stmt] at h
      obtain ⟨-, -, hinit, hcond, -, hincr, -, hbody, hquiet⟩ := h
      have hloop := forLoop_shaped hinit hcond hincr hbody (hquiet (by decide))
      exact ⟨hloop.1, fun _ => hloop.2⟩
    · trivial
  -- `this` and `super` are the tokens of their keywords
  case primaryThis =>
    simp only [Production.build]
    split
    · simp only [Production.rhs, List.map_cons, List.map_nil, Production.numbered,
        List.forall₂_cons, List.forall₂_nil_left_iff, and_true, Fragment.typed_token] at h
      exact Token.lexeme_of_terminalOf h.1 h.2 rfl
    · trivial
  case primarySuper =>
    simp only [Production.build]
    split
    · simp only [Production.rhs, List.map_cons, List.map_nil, Production.numbered,
        List.forall₂_cons, List.forall₂_nil_left_iff, and_true, Fragment.typed_token] at h
      exact Token.lexeme_of_terminalOf h.1.1 h.1.2 rfl
    · trivial
  -- an operand passes its value up as the operand of the level above
  case chainShort l =>
    simp only [Production.build]
    split
    · simp only [Production.rhs, List.map_cons, List.map_nil, Production.numbered,
        List.forall₂_cons, List.forall₂_nil_left_iff, and_true] at h
      exact h.pass (by cases l <;> simp [declaringIndices, Nonterminal.index, Nonterminal.operand,
        Level.tighter?, Level.index, Production.lhs])
    · trivial
  -- every other production passes a value up or assembles its value directly
  all_goals
    simp only [Production.build]
    split
    · simp only [Production.rhs, List.map_cons, List.map_nil, Production.numbered,
        List.forall₂_cons, List.forall₂_nil_left_iff, and_true] at h
      first
        | exact h.pass (by simp [declaringIndices, Nonterminal.index, Production.lhs, Level.index])
        | simp_all [clean, Production.lhs, Stmt.Shaped, Expr.Shaped, Stmt.declared?,
            declaringIndices, Nonterminal.index, Stmt.allShaped_iff, FunDecl.allShaped_iff,
            Token.declarable_of_terminalOf, or_imp, -Prod.forall]
    · trivial

theorem grammar_production {p : Nat} {prod : Production} (h : productionArray[p]? = some prod) :
    grammar.production p = ⟨prod.lhs.index, prod.rhs.map Production.numbered⟩ := by
  simp only [productionArray, List.getElem?_toArray] at h
  simp [Grammar.production, grammar, h]

theorem buildNumbered_typed (p : Nat) (args : List Fragment)
    (h : List.Forall₂ Fragment.Typed (grammar.rhs p) args) :
    (buildNumbered p args).1.Typed (.nonterminal (grammar.production p).lhs) := by
  unfold buildNumbered
  split
  · next prod hprod =>
    rw [Grammar.rhs, grammar_production hprod] at h
    rw [grammar_production hprod]
    exact build_typed prod args h
  · trivial

end Syntax

open Syntax in
/-- A typing of the values of grammar symbols that the tokens of a source meet and every
reduction keeps holds of what the parser accepts: a program it returns is empty, or the
statements of a value of some nonterminal, in reverse. -/
theorem parseProgram_accepts {V : Grammar.Symbol → Fragment → Prop}
    (hbuild : ∀ p args, List.Forall₂ V (grammar.rhs p) args →
      V (.nonterminal (grammar.production p).lhs) (buildNumbered p args).1)
    (htok : ∀ tok : Token, tok.Spelt → V (.terminal (terminalOf tok)) (.token tok))
    {source : String} {P : Program} (h : parseProgram source = .ok P) :
    P = [] ∨ ∃ n r, P = r.reverse ∧ V (.nonterminal n) (.stmts r) := by
  have hword : ∀ x ∈ (Token.scan source).tokens.map
      (fun tok => (terminalOf tok, Fragment.token tok)), V (.terminal x.1) x.2 := by
    intro x hx
    obtain ⟨tok, htok', rfl⟩ := List.mem_map.mp hx
    exact htok tok (Token.scan_spelt source tok htok')
  have hread : (table.feedWord buildNumbered 0 _ Table.Config.initial).Reads
      (Automaton.ofAugmented grammar.augmented) V :=
    Table.feedWord_reads hbuild _ hword 0 Table.Config.initial ⟨[], .nil⟩
  unfold parseProgram at h
  dsimp only at h
  split at h
  · cases h
  · next c hc =>
    rw [hc] at hread
    split at h
    · cases h
    · -- the end marker is fed last, and only an accepted list of statements is a program
      have hend : V (.terminal Terminal.eof.index)
          (.token (Token.endOfInput (Token.scan source).tokens)) :=
        htok _ (Token.endOfInput_spelt _)
      have hfed : (table.feed buildNumbered _ _ true c).Reads
          (Automaton.ofAugmented grammar.augmented) V :=
        Table.feed_reads hbuild Terminal.eof.index hend true hread
      split at h
      · next r issues hacc =>
        rw [hacc] at hfed
        split at h
        · cases h
          obtain ⟨n, hr⟩ := hfed
          exact .inr ⟨n, r, rfl, hr⟩
        · cases h
      · split at h
        · cases h
          exact .inl rfl
        · cases h
      · cases h
      · cases h

open Syntax in
/-- Every program the parser returns has the shapes only the grammar builds. -/
theorem parseProgram_shaped {source : String} {P : Program} (h : parseProgram source = .ok P) :
    Stmt.AllShaped P := by
  rcases parseProgram_accepts buildNumbered_typed (fun _ hs => ⟨rfl, hs⟩) h
    with rfl | ⟨n, r, rfl, hr⟩
  · trivial
  · exact Stmt.allShaped_iff.mpr fun s hs => hr s (List.mem_reverse.mp hs)

end Lox
