import Lox.Session
import Lox.Proofs.ParserOutput

/-!
# Syntax-tree documents read back what they were written from

A tree written as a document (`Tree.toJson`) reads back as the same tree (`Tree.ofJson`) when
nothing in it is lost on the way: every token's kind is the one its name spells, and no constant
is an integer, which the reader turns into a double (`Tree.ReadsBack`). Every program the parser
returns is such a tree, and turning the tree back into statements gives the program itself, so
running a program's document is running its source.
-/

namespace Lox

theorem Terminal.ofName?_name (t : Terminal) : Terminal.ofName? t.name = some t := by
  cases t <;> rfl

/-- A token whose kind is the one its name spells, so that a document keeps it. -/
def Token.ReadsBack (tok : Token) : Prop := TokenKind.ofName tok.kind.name = tok.kind

theorem Token.IsTerminal.readsBack {tok : Token} (h : tok.IsTerminal) : tok.ReadsBack := by
  obtain ⟨t, ht⟩ := h
  simp [Token.ReadsBack, ht, TokenKind.name, TokenKind.ofName, Terminal.ofName?_name]

theorem Token.ofJson_toJson {tok : Token} (h : tok.ReadsBack) :
    Token.ofJson tok.toJson = .ok tok := by
  obtain ⟨kind, lexeme, literal, line, column⟩ := tok
  simp only [Token.ReadsBack] at h
  simp [Token.toJson, Token.ofJson, List.lookup_cons, bind, Except.bind, pure, Except.pure,
    Json.plainText, Token.positionOf, h]

theorem Token.mapM_ofJson_toJson : ∀ (ps : List Token), (∀ p ∈ ps, p.ReadsBack) →
    (ps.map Token.toJson).mapM Token.ofJson = .ok ps
  | [], _ => rfl
  | p :: rest, h => by
    obtain ⟨hp, hrest⟩ := List.forall_mem_cons.mp h
    simp [Token.ofJson_toJson hp, Token.mapM_ofJson_toJson rest hrest, bind, Except.bind, pure,
      Except.pure]

/-- A field's value nests less deeply than the object holding it. -/
theorem Json.depth_lt_of_mem_fields {fields : List (String × Json)} {k : String} {v : Json}
    {fuel : Nat} (hmem : (k, v) ∈ fields) (hd : (Json.obj fields).depth < fuel + 1) :
    v.depth < fuel := by
  have hle : v.depth ≤ Json.depthOfFields fields := by
    induction fields with
    | nil => simp at hmem
    | cons kv rest ih =>
      obtain ⟨k', v'⟩ := kv
      simp only [List.mem_cons, Prod.mk.injEq] at hmem
      simp only [Json.depthOfFields]
      rcases hmem with ⟨-, rfl⟩ | hmem
      · omega
      · have := ih hmem (by simp [Json.depth, Json.depthOfFields] at hd ⊢; omega)
        omega
  simp only [Json.depth] at hd
  omega

mutual

/-- A tree whose document reads back as itself: every token reads back, and no constant is an
integer. -/
def Tree.ReadsBack : Tree → Prop
  | .nothing => True
  | .list items => Tree.AllReadBack items
  | .block s => s.ReadsBack
  | .classDecl n s m => n.ReadsBack ∧ s.ReadsBack ∧ m.ReadsBack
  | .exprStmt e => e.ReadsBack
  | .functionDecl n ps b => n.ReadsBack ∧ (∀ p ∈ ps, p.ReadsBack) ∧ b.ReadsBack
  | .ifStmt c t e => c.ReadsBack ∧ t.ReadsBack ∧ e.ReadsBack
  | .printStmt v => v.ReadsBack
  | .returnStmt k v => k.ReadsBack ∧ v.ReadsBack
  | .varDecl n i => n.ReadsBack ∧ i.ReadsBack
  | .whileStmt c b => c.ReadsBack ∧ b.ReadsBack
  | .assign n v => n.ReadsBack ∧ v.ReadsBack
  | .binary l op r => l.ReadsBack ∧ op.ReadsBack ∧ r.ReadsBack
  | .call c p a => c.ReadsBack ∧ p.ReadsBack ∧ a.ReadsBack
  | .get o n => o.ReadsBack ∧ n.ReadsBack
  | .grouping e => e.ReadsBack
  | .literal v => ∀ n, v ≠ .int n
  | .logical l op r => l.ReadsBack ∧ op.ReadsBack ∧ r.ReadsBack
  | .set o n v => o.ReadsBack ∧ n.ReadsBack ∧ v.ReadsBack
  | .superExpr k m => k.ReadsBack ∧ m.ReadsBack
  | .thisExpr k => k.ReadsBack
  | .unary op r => op.ReadsBack ∧ r.ReadsBack
  | .varRef n => n.ReadsBack

/-- Trees that all read back. -/
def Tree.AllReadBack : List Tree → Prop
  | [] => True
  | t :: rest => t.ReadsBack ∧ Tree.AllReadBack rest

end

namespace Tree

theorem toJson_list (items : List Tree) : (Tree.list items).toJson = .arr (items.map toJson) := by
  simp [Tree.toJson]

mutual

/-- Reading a tree's document with more fuel than it nests gives the tree back. One case per
node kind: each child is read back by the recursive call, at one unit of fuel less. -/
theorem ofJsonWith_toJson : ∀ (t : Tree) (fuel : Nat), t.ReadsBack → t.toJson.depth < fuel →
    ofJsonWith fuel t.toJson = .ok t
  | _, 0, _, hd => absurd hd (Nat.not_lt_zero _)
  | .nothing, _ + 1, _, _ => by simp [Tree.toJson, ofJsonWith]
  | .list items, fuel + 1, h, hd => by
    rw [toJson_list] at hd ⊢
    simp only [ofJsonWith, mapM_ofJsonWith_toJson items fuel h hd]
    rfl
  | .block s, fuel + 1, h, hd => by
    simp only [Tree.ReadsBack] at h
    simp only [Tree.toJson] at hd ⊢
    have hs := ofJsonWith_toJson s fuel h
      (Json.depth_lt_of_mem_fields (k := "statements") (by simp) hd)
    simp [ofJsonWith, required, List.lookup_cons, bind, Except.bind, pure, Except.pure, hs]
  | .classDecl n s m, fuel + 1, h, hd => by
    simp only [Tree.ReadsBack] at h
    simp only [Tree.toJson] at hd ⊢
    have hs := ofJsonWith_toJson s fuel h.2.1
      (Json.depth_lt_of_mem_fields (k := "superclass") (by simp) hd)
    have hm := ofJsonWith_toJson m fuel h.2.2
      (Json.depth_lt_of_mem_fields (k := "methods") (by simp) hd)
    simp [ofJsonWith, required, optional, tokenField, List.lookup_cons, bind, Except.bind, pure,
      Except.pure, hs, hm, Token.ofJson_toJson h.1]
  | .exprStmt e, fuel + 1, h, hd => by
    simp only [Tree.ReadsBack] at h
    simp only [Tree.toJson] at hd ⊢
    have he := ofJsonWith_toJson e fuel h (Json.depth_lt_of_mem_fields (k := "expr") (by simp) hd)
    simp [ofJsonWith, required, List.lookup_cons, bind, Except.bind, pure, Except.pure, he]
  | .functionDecl n ps b, fuel + 1, h, hd => by
    simp only [Tree.ReadsBack] at h
    simp only [Tree.toJson] at hd ⊢
    have hb := ofJsonWith_toJson b fuel h.2.2
      (Json.depth_lt_of_mem_fields (k := "body") (by simp) hd)
    simp [ofJsonWith, required, tokenField, List.lookup_cons, bind, Except.bind, pure, Except.pure, hb,
      Token.ofJson_toJson h.1, Token.paramsOfJson, Token.mapM_ofJson_toJson ps h.2.1]
  | .ifStmt c t e, fuel + 1, h, hd => by
    simp only [Tree.ReadsBack] at h
    simp only [Tree.toJson] at hd ⊢
    have hc := ofJsonWith_toJson c fuel h.1
      (Json.depth_lt_of_mem_fields (k := "condition") (by simp) hd)
    have ht := ofJsonWith_toJson t fuel h.2.1
      (Json.depth_lt_of_mem_fields (k := "then_branch") (by simp) hd)
    have he := ofJsonWith_toJson e fuel h.2.2
      (Json.depth_lt_of_mem_fields (k := "else_branch") (by simp) hd)
    simp [ofJsonWith, required, optional, List.lookup_cons, bind, Except.bind, pure, Except.pure, hc, ht,
      he]
  | .printStmt v, fuel + 1, h, hd => by
    simp only [Tree.ReadsBack] at h
    simp only [Tree.toJson] at hd ⊢
    have hv := ofJsonWith_toJson v fuel h (Json.depth_lt_of_mem_fields (k := "value") (by simp) hd)
    simp [ofJsonWith, required, List.lookup_cons, bind, Except.bind, pure, Except.pure, hv]
  | .returnStmt k v, fuel + 1, h, hd => by
    simp only [Tree.ReadsBack] at h
    simp only [Tree.toJson] at hd ⊢
    have hv := ofJsonWith_toJson v fuel h.2
      (Json.depth_lt_of_mem_fields (k := "value") (by simp) hd)
    simp [ofJsonWith, required, optional, tokenField, List.lookup_cons, bind, Except.bind, pure,
      Except.pure, hv, Token.ofJson_toJson h.1]
  | .varDecl n i, fuel + 1, h, hd => by
    simp only [Tree.ReadsBack] at h
    simp only [Tree.toJson] at hd ⊢
    have hi := ofJsonWith_toJson i fuel h.2
      (Json.depth_lt_of_mem_fields (k := "initializer") (by simp) hd)
    simp [ofJsonWith, required, optional, tokenField, List.lookup_cons, bind, Except.bind, pure,
      Except.pure, hi, Token.ofJson_toJson h.1]
  | .whileStmt c b, fuel + 1, h, hd => by
    simp only [Tree.ReadsBack] at h
    simp only [Tree.toJson] at hd ⊢
    have hc := ofJsonWith_toJson c fuel h.1
      (Json.depth_lt_of_mem_fields (k := "condition") (by simp) hd)
    have hb := ofJsonWith_toJson b fuel h.2
      (Json.depth_lt_of_mem_fields (k := "body") (by simp) hd)
    simp [ofJsonWith, required, List.lookup_cons, bind, Except.bind, pure, Except.pure, hc, hb]
  | .assign n v, fuel + 1, h, hd => by
    simp only [Tree.ReadsBack] at h
    simp only [Tree.toJson] at hd ⊢
    have hv := ofJsonWith_toJson v fuel h.2
      (Json.depth_lt_of_mem_fields (k := "value") (by simp) hd)
    simp [ofJsonWith, required, tokenField, List.lookup_cons, bind, Except.bind, pure, Except.pure, hv,
      Token.ofJson_toJson h.1]
  | .binary l op r, fuel + 1, h, hd => by
    simp only [Tree.ReadsBack] at h
    simp only [Tree.toJson] at hd ⊢
    have hl := ofJsonWith_toJson l fuel h.1
      (Json.depth_lt_of_mem_fields (k := "left") (by simp) hd)
    have hr := ofJsonWith_toJson r fuel h.2.2
      (Json.depth_lt_of_mem_fields (k := "right") (by simp) hd)
    simp [ofJsonWith, required, tokenField, List.lookup_cons, bind, Except.bind, pure, Except.pure, hl,
      hr, Token.ofJson_toJson h.2.1]
  | .call c p a, fuel + 1, h, hd => by
    simp only [Tree.ReadsBack] at h
    simp only [Tree.toJson] at hd ⊢
    have hc := ofJsonWith_toJson c fuel h.1
      (Json.depth_lt_of_mem_fields (k := "callee") (by simp) hd)
    have ha := ofJsonWith_toJson a fuel h.2.2
      (Json.depth_lt_of_mem_fields (k := "arguments") (by simp) hd)
    simp [ofJsonWith, required, tokenField, List.lookup_cons, bind, Except.bind, pure, Except.pure, hc,
      ha, Token.ofJson_toJson h.2.1]
  | .get o n, fuel + 1, h, hd => by
    simp only [Tree.ReadsBack] at h
    simp only [Tree.toJson] at hd ⊢
    have ho := ofJsonWith_toJson o fuel h.1 (Json.depth_lt_of_mem_fields (k := "obj") (by simp) hd)
    simp [ofJsonWith, required, tokenField, List.lookup_cons, bind, Except.bind, pure, Except.pure, ho,
      Token.ofJson_toJson h.2]
  | .grouping e, fuel + 1, h, hd => by
    simp only [Tree.ReadsBack] at h
    simp only [Tree.toJson] at hd ⊢
    have he := ofJsonWith_toJson e fuel h
      (Json.depth_lt_of_mem_fields (k := "expression") (by simp) hd)
    simp [ofJsonWith, required, List.lookup_cons, bind, Except.bind, pure, Except.pure, he]
  | .literal v, fuel + 1, h, _ => by
    simp only [Tree.ReadsBack] at h
    -- only an integer constant is changed on reading, and `h` rules it out
    cases v <;> simp_all [Tree.toJson, ofJsonWith, required, constantOfJson, List.lookup_cons, bind,
      Except.bind, pure, Except.pure]
  | .logical l op r, fuel + 1, h, hd => by
    simp only [Tree.ReadsBack] at h
    simp only [Tree.toJson] at hd ⊢
    have hl := ofJsonWith_toJson l fuel h.1
      (Json.depth_lt_of_mem_fields (k := "left") (by simp) hd)
    have hr := ofJsonWith_toJson r fuel h.2.2
      (Json.depth_lt_of_mem_fields (k := "right") (by simp) hd)
    simp [ofJsonWith, required, tokenField, List.lookup_cons, bind, Except.bind, pure, Except.pure, hl,
      hr, Token.ofJson_toJson h.2.1]
  | .set o n v, fuel + 1, h, hd => by
    simp only [Tree.ReadsBack] at h
    simp only [Tree.toJson] at hd ⊢
    have ho := ofJsonWith_toJson o fuel h.1 (Json.depth_lt_of_mem_fields (k := "obj") (by simp) hd)
    have hv := ofJsonWith_toJson v fuel h.2.2
      (Json.depth_lt_of_mem_fields (k := "value") (by simp) hd)
    simp [ofJsonWith, required, tokenField, List.lookup_cons, bind, Except.bind, pure, Except.pure, ho,
      hv, Token.ofJson_toJson h.2.1]
  | .superExpr k m, _ + 1, h, _ => by
    simp only [Tree.ReadsBack] at h
    simp [Tree.toJson, ofJsonWith, required, tokenField, List.lookup_cons, bind, Except.bind, pure,
      Except.pure, Token.ofJson_toJson h.1, Token.ofJson_toJson h.2]
  | .thisExpr k, _ + 1, h, _ => by
    simp only [Tree.ReadsBack] at h
    simp [Tree.toJson, ofJsonWith, required, tokenField, List.lookup_cons, bind, Except.bind, pure,
      Except.pure, Token.ofJson_toJson h]
  | .unary op r, fuel + 1, h, hd => by
    simp only [Tree.ReadsBack] at h
    simp only [Tree.toJson] at hd ⊢
    have hr := ofJsonWith_toJson r fuel h.2
      (Json.depth_lt_of_mem_fields (k := "right") (by simp) hd)
    simp [ofJsonWith, required, tokenField, List.lookup_cons, bind, Except.bind, pure, Except.pure, hr,
      Token.ofJson_toJson h.1]
  | .varRef n, _ + 1, h, _ => by
    simp only [Tree.ReadsBack] at h
    simp [Tree.toJson, ofJsonWith, required, tokenField, List.lookup_cons, bind, Except.bind, pure,
      Except.pure, Token.ofJson_toJson h]

/-- Reading the documents of a list of trees item by item gives the trees back. -/
theorem mapM_ofJsonWith_toJson : ∀ (items : List Tree) (fuel : Nat), Tree.AllReadBack items →
    (Json.arr (items.map toJson)).depth < fuel + 1 →
    (items.map toJson).mapM (ofJsonWith fuel) = .ok items
  | [], _, _, _ => rfl
  | t :: rest, fuel, h, hd => by
    simp only [Tree.AllReadBack] at h
    simp only [List.map_cons, Json.depth, Json.depthOfItems] at hd
    have ht := ofJsonWith_toJson t fuel h.1 (by omega)
    have hrest := mapM_ofJsonWith_toJson rest fuel h.2 (by simp only [Json.depth]; omega)
    simp [ht, hrest, bind, Except.bind, pure, Except.pure]

end

/-- A tree that reads back is what its document reads as. -/
theorem ofJson_toJson {t : Tree} (h : t.ReadsBack) : Tree.ofJson t.toJson = .ok t :=
  ofJsonWith_toJson t _ h (by omega)

end Tree

theorem Constant.ofJson_toJson {c : Constant} (h : c.Writable) : Constant.ofJson c.toJson = c := by
  cases c <;> first | rfl | exact h.elim

theorem Constant.toJson_ne_int {c : Constant} (h : c.Writable) (n : Int) : c.toJson ≠ .int n := by
  cases c <;> first | exact h.elim | simp [Constant.toJson]

theorem Expr.toTree_call (c : Expr) (p : Token) (args : List Expr) :
    (Expr.call c p args).toTree = .call c.toTree p (.list (args.map Expr.toTree)) := by
  simp [Expr.toTree]

mutual

theorem Expr.toTree_readsBack : ∀ (e : Expr), e.Parsed → e.toTree.ReadsBack
  | .literal c, h => by
    simp only [Expr.toTree, Tree.ReadsBack]
    exact Constant.toJson_ne_int h
  | .grouping e, h => by
    simp only [Expr.toTree, Tree.ReadsBack]
    exact Expr.toTree_readsBack e h
  | .var _ _, h => by
    simp only [Expr.toTree, Tree.ReadsBack]
    exact h.1.readsBack
  | .assign _ v _, h => by
    simp only [Expr.toTree, Tree.ReadsBack]
    exact ⟨h.1.readsBack, Expr.toTree_readsBack v h.2.1⟩
  | .unary _ e, h => by
    simp only [Expr.toTree, Tree.ReadsBack]
    exact ⟨h.1.readsBack, Expr.toTree_readsBack e h.2⟩
  | .binary l _ r, h => by
    simp only [Expr.toTree, Tree.ReadsBack]
    exact ⟨Expr.toTree_readsBack l h.1, h.2.1.readsBack, Expr.toTree_readsBack r h.2.2⟩
  | .logical l _ r, h => by
    simp only [Expr.toTree, Tree.ReadsBack]
    exact ⟨Expr.toTree_readsBack l h.1, h.2.1.readsBack, Expr.toTree_readsBack r h.2.2⟩
  | .call c _ args, h => by
    rw [Expr.toTree_call]
    exact ⟨Expr.toTree_readsBack c h.1, h.2.1.readsBack, Expr.allToTree_readsBack args h.2.2⟩
  | .get o _, h => by
    simp only [Expr.toTree, Tree.ReadsBack]
    exact ⟨Expr.toTree_readsBack o h.1, h.2.readsBack⟩
  | .set o _ v, h => by
    simp only [Expr.toTree, Tree.ReadsBack]
    exact ⟨Expr.toTree_readsBack o h.1, h.2.1.readsBack, Expr.toTree_readsBack v h.2.2⟩
  | .thisRef _ _, h => by
    simp only [Expr.toTree, Tree.ReadsBack]
    exact h.1.readsBack
  | .superMethod _ _ _, h => by
    simp only [Expr.toTree, Tree.ReadsBack]
    exact ⟨h.1.readsBack, h.2.1.readsBack⟩

theorem Expr.allToTree_readsBack : ∀ (es : List Expr), Expr.AllParsed es →
    Tree.AllReadBack (es.map Expr.toTree)
  | [], _ => trivial
  | e :: rest, h => ⟨Expr.toTree_readsBack e h.1, Expr.allToTree_readsBack rest h.2⟩

end

mutual

theorem Stmt.toTree_readsBack : ∀ (s : Stmt), s.Parsed → s.toTree.ReadsBack
  | .expr e, h => Expr.toTree_readsBack e h
  | .print e, h => Expr.toTree_readsBack e h
  | .varDecl _ none, h => ⟨h.1.readsBack, trivial⟩
  | .varDecl _ (some e), h => ⟨h.1.readsBack, Expr.toTree_readsBack e (h.2 e rfl)⟩
  | .block b, h => Stmt.listToTree_readsBack b h
  | .ifElse c t none, h => ⟨Expr.toTree_readsBack c h.1, Stmt.toTree_readsBack t h.2.1, trivial⟩
  | .ifElse c t (some e), h =>
    ⟨Expr.toTree_readsBack c h.1, Stmt.toTree_readsBack t h.2.1, Stmt.toTree_readsBack e h.2.2⟩
  | .whileLoop c b, h => ⟨Expr.toTree_readsBack c h.1, Stmt.toTree_readsBack b h.2⟩
  | .funDecl f, h => FunDecl.toTree_readsBack f h
  | .returnStmt _ none, h => ⟨h.1.readsBack, trivial⟩
  | .returnStmt _ (some e), h => ⟨h.1.readsBack, Expr.toTree_readsBack e (h.2 e rfl)⟩
  | .classDecl _ none ms, h => ⟨h.1.readsBack, trivial, FunDecl.listToTree_readsBack ms h.2.2⟩
  | .classDecl _ (some e) ms, h =>
    ⟨h.1.readsBack, Expr.toTree_readsBack e (by obtain ⟨m, hm, rfl⟩ := h.2.1 e rfl; exact ⟨hm, rfl⟩),
      FunDecl.listToTree_readsBack ms h.2.2⟩

theorem Stmt.listToTree_readsBack : ∀ (ss : List Stmt), Stmt.AllParsed ss →
    Tree.AllReadBack (Stmt.listToTree ss)
  | [], _ => trivial
  | s :: rest, h => ⟨Stmt.toTree_readsBack s h.1, Stmt.listToTree_readsBack rest h.2⟩

theorem FunDecl.toTree_readsBack : ∀ (f : FunDecl), f.Parsed → f.toTree.ReadsBack
  | .mk _ _ b, h => ⟨h.1.readsBack, fun p hp => (h.2.1 p hp).readsBack,
    Stmt.listToTree_readsBack b h.2.2⟩

theorem FunDecl.listToTree_readsBack : ∀ (fs : List FunDecl), FunDecl.AllParsed fs →
    Tree.AllReadBack (FunDecl.listToTree fs)
  | [], _ => trivial
  | f :: rest, h => ⟨FunDecl.toTree_readsBack f h.1, FunDecl.listToTree_readsBack rest h.2⟩

end

mutual

theorem Expr.toExpr_toTree : ∀ (e : Expr), e.Parsed → e.toTree.toExpr = .ok e
  | .literal c, h => by simp [Expr.toTree, Tree.toExpr, Constant.ofJson_toJson h, pure, Except.pure]
  | .grouping e, h => by
    simp [Expr.toTree, Tree.toExpr, Expr.toExpr_toTree e h, bind, Except.bind, pure, Except.pure]
  | .var _ _, h => by
    obtain ⟨-, rfl⟩ := h
    simp [Expr.toTree, Tree.toExpr, pure, Except.pure]
  | .assign _ v _, h => by
    obtain ⟨-, hv, rfl⟩ := h
    simp [Expr.toTree, Tree.toExpr, Expr.toExpr_toTree v hv, bind, Except.bind, pure, Except.pure]
  | .unary _ e, h => by
    simp [Expr.toTree, Tree.toExpr, Expr.toExpr_toTree e h.2, bind, Except.bind, pure, Except.pure]
  | .binary l _ r, h => by
    simp [Expr.toTree, Tree.toExpr, Expr.toExpr_toTree l h.1, Expr.toExpr_toTree r h.2.2, bind, Except.bind, pure, Except.pure]
  | .logical l _ r, h => by
    simp [Expr.toTree, Tree.toExpr, Expr.toExpr_toTree l h.1, Expr.toExpr_toTree r h.2.2, bind, Except.bind, pure, Except.pure]
  | .call c _ args, h => by
    rw [Expr.toTree_call]
    simp [Tree.toExpr, Expr.toExpr_toTree c h.1, Expr.toExprs_toTree args h.2.2, bind, Except.bind, pure, Except.pure]
  | .get o _, h => by
    simp [Expr.toTree, Tree.toExpr, Expr.toExpr_toTree o h.1, bind, Except.bind, pure, Except.pure]
  | .set o _ v, h => by
    simp [Expr.toTree, Tree.toExpr, Expr.toExpr_toTree o h.1, Expr.toExpr_toTree v h.2.2, bind, Except.bind, pure, Except.pure]
  | .thisRef _ _, h => by
    obtain ⟨-, rfl⟩ := h
    simp [Expr.toTree, Tree.toExpr, pure, Except.pure]
  | .superMethod _ _ _, h => by
    obtain ⟨-, -, rfl⟩ := h
    simp [Expr.toTree, Tree.toExpr, pure, Except.pure]

theorem Expr.toExprs_toTree : ∀ (es : List Expr), Expr.AllParsed es →
    Tree.toExprs (es.map Expr.toTree) = .ok es
  | [], _ => rfl
  | e :: rest, h => by
    simp [Tree.toExprs, Expr.toExpr_toTree e h.1, Expr.toExprs_toTree rest h.2, bind, Except.bind, pure, Except.pure]

end

theorem Expr.toTree_ne_nothing (e : Expr) : e.toTree ≠ .nothing := by
  cases e <;> simp [Expr.toTree]

theorem Stmt.toTree_ne_nothing (s : Stmt) : s.toTree ≠ .nothing := by
  cases s
  case funDecl f => cases f; simp [Stmt.toTree, FunDecl.toTree]
  case ifElse e => cases e <;> simp [Stmt.toTree]
  all_goals simp [Stmt.toTree]

mutual

theorem Stmt.toStmt_toTree : ∀ (s : Stmt), s.Parsed → s.toTree.toStmt = .ok s
  | .expr e, h => by
    simp [Stmt.toTree, Tree.toStmt, Expr.toExpr_toTree e h, bind, Except.bind, pure, Except.pure]
  | .print e, h => by
    simp [Stmt.toTree, Tree.toStmt, Expr.toExpr_toTree e h, bind, Except.bind, pure, Except.pure]
  | .varDecl _ none, _ => by
    simp [Stmt.toTree, Tree.toStmt, pure, Except.pure]
  | .varDecl _ (some e), h => by
    simp [Stmt.toTree, Tree.toStmt, Expr.toTree_ne_nothing, Expr.toExpr_toTree e (h.2 e rfl), bind, Except.bind, pure, Except.pure]
  | .block b, h => by
    simp [Stmt.toTree, Tree.toStmt, Stmt.toStmts_listToTree b h, bind, Except.bind, pure, Except.pure]
  | .ifElse c t none, h => by
    simp [Stmt.toTree, Tree.toStmt, Expr.toExpr_toTree c h.1, Stmt.toStmt_toTree t h.2.1, bind, Except.bind, pure, Except.pure]
  | .ifElse c t (some e), h => by
    have he := Stmt.toStmt_toTree e h.2.2
    simp [Stmt.toTree, Tree.toStmt, Expr.toExpr_toTree c h.1, Stmt.toStmt_toTree t h.2.1, bind, Except.bind, pure, Except.pure]
    split
    · exact absurd ‹_› (Stmt.toTree_ne_nothing e)
    · simp [he]
  | .whileLoop c b, h => by
    simp [Stmt.toTree, Tree.toStmt, Expr.toExpr_toTree c h.1, Stmt.toStmt_toTree b h.2, bind, Except.bind, pure, Except.pure]
  | .funDecl f, h => by
    simp [Stmt.toTree, FunDecl.toStmt_toTree f h]
  | .returnStmt _ none, _ => by
    simp [Stmt.toTree, Tree.toStmt, pure, Except.pure]
  | .returnStmt _ (some e), h => by
    simp [Stmt.toTree, Tree.toStmt, Expr.toTree_ne_nothing, Expr.toExpr_toTree e (h.2 e rfl), bind, Except.bind, pure, Except.pure]
  | .classDecl _ none ms, h => by
    simp [Stmt.toTree, Tree.toStmt, FunDecl.toMethods_listToTree ms h.2.2, bind, Except.bind, pure, Except.pure]
  | .classDecl _ (some e) ms, h => by
    obtain ⟨m, hm, rfl⟩ := h.2.1 e rfl
    simp [Stmt.toTree, Tree.toStmt, Expr.toTree, Tree.name?, FunDecl.toMethods_listToTree ms h.2.2,
      Tree.toExpr, Functor.map, Except.map, bind, Except.bind, pure, Except.pure]

theorem Stmt.toStmts_listToTree : ∀ (ss : List Stmt), Stmt.AllParsed ss →
    Tree.toStmts (Stmt.listToTree ss) = .ok ss
  | [], _ => rfl
  | s :: rest, h => by
    simp [Stmt.listToTree, Tree.toStmts, Stmt.toStmt_toTree s h.1,
      Stmt.toStmts_listToTree rest h.2, bind, Except.bind, pure, Except.pure]

theorem FunDecl.toStmt_toTree : ∀ (f : FunDecl), f.Parsed →
    f.toTree.toStmt = .ok (.funDecl f)
  | .mk _ _ b, h => by
    simp [FunDecl.toTree, Tree.toStmt, Stmt.toStmts_listToTree b h.2.2, bind, Except.bind, pure, Except.pure]

theorem FunDecl.toMethods_listToTree : ∀ (fs : List FunDecl), FunDecl.AllParsed fs →
    Tree.toMethods (FunDecl.listToTree fs) = .ok fs
  | [], _ => rfl
  | .mk _ _ b :: rest, h => by
    simp [FunDecl.listToTree, FunDecl.toTree, Tree.toMethods, Stmt.toStmts_listToTree b h.1.2.2,
      FunDecl.toMethods_listToTree rest h.2, bind, Except.bind, pure, Except.pure]

end

theorem Program.toTree_readsBack {S : Program} (h : ∀ s ∈ S, s.Parsed) :
    (Program.toTree S).ReadsBack :=
  Stmt.listToTree_readsBack S (Stmt.allParsed_iff.mpr h)

theorem Program.toProgram_toTree {S : Program} (h : ∀ s ∈ S, s.Parsed) :
    (Program.toTree S).toProgram = .ok S :=
  Stmt.toStmts_listToTree S (Stmt.allParsed_iff.mpr h)

/-- The document written for a parsed program reads back as the same tree, so it prints the same,
and as the same program, so running the document is running the source: the same output, the
same diagnostics and the same session after. -/
theorem parsed_document_round_trip (source : String) :
    match parseProgram source with
    | .ok S =>
      Tree.ofJson (Program.toTree S).toJson = .ok (Program.toTree S) ∧
        (Program.toTree S).toProgram = .ok S ∧
        ∀ s : Session, s.runDocument (Program.toTree S).toJson = s.runSource source
    | .error _ => True := by
  split
  · rename_i S hS
    have hparsed := parseProgram_parsed hS
    have htree := Tree.ofJson_toJson (Program.toTree_readsBack hparsed)
    have hprog := Program.toProgram_toTree hparsed
    refine ⟨htree, hprog, fun s => ?_⟩
    simp [Session.runDocument, Session.runSource, hS, htree, bind, Except.bind]
    -- the decoding steps pass a read tree and program through unchanged
    delta Except.mapError
    simp [hprog]
  · trivial

end Lox
