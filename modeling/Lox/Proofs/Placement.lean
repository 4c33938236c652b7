import Lox.Proofs.FirstFault
import Lox.Proofs.DocumentRoundTrip
import Lox.Proofs.SourceHygiene

/-!
# A document runs as the tree it holds

Reading a document gives a tree whose places may hold anything the document put there: a
statement where an expression belongs, a list where a statement belongs, `null` anywhere. The
placement check (`Tree.toProgram`) reads each place as the interpreter treats it, a statement,
an expression, a list of them, a named superclass or methods, and builds the program from those
places alone. So the program it returns is the tree itself, with no place dropped and none read
as the other kind (`Tree.toProgram_rebuilds`), and resolution only fills in depths
(`Resolver.resolveStmts_toTree`): the program that runs is the document's tree. A tree with
anything else in a place is refused with the first misplaced part, before anything runs or
prints, resolution having walked only the part of the tree before it
(`placed_documents_run_as_read`).

The trees reading gives are a normal form: every token's kind is the one its name spells and no
constant is an integer (`Tree.ofJson_readsBack`), so a tree read from a document is read back
from its own document (`Tree.ofJson_rereads`).
-/

namespace Lox

section Yields

variable {ε α β : Type}

/-- Every value the step succeeds with has the property `P`. -/
def Yields (x : Except ε α) (P : α → Prop) : Prop := ∀ a, x = .ok a → P a

theorem Yields.pure {a : α} {P : α → Prop} (h : P a) : Yields (Pure.pure a : Except ε α) P := by
  intro b hb
  cases hb
  exact h

theorem Yields.error {e : ε} {P : α → Prop} : Yields (.error e : Except ε α) P := by
  intro _ h
  cases h

theorem Yields.bind {x : Except ε α} {f : α → Except ε β} {P : α → Prop} {Q : β → Prop}
    (hx : Yields x P) (hf : ∀ a, P a → Yields (f a) Q) : Yields (x >>= f) Q := by
  intro b hb
  cases hxa : x with
  | error e =>
    rw [hxa] at hb
    cases hb
  | ok a =>
    rw [hxa] at hb
    exact hf a (hx a hxa) b hb

/-- A step whose result the rest does not need. -/
theorem Yields.after {x : Except ε α} {f : α → Except ε β} {Q : β → Prop}
    (hf : ∀ a, Yields (f a) Q) : Yields (x >>= f) Q :=
  Yields.bind (P := fun _ => True) (fun _ _ => trivial) fun a _ => hf a

theorem Yields.map {x : Except ε α} {f : α → β} {P : α → Prop} {Q : β → Prop}
    (hx : Yields x P) (hf : ∀ a, P a → Q (f a)) : Yields (f <$> x) Q := by
  rw [← bind_pure_comp]
  exact hx.bind fun a ha => Yields.pure (hf a ha)

/-- Mapping a list gives values that all have the property each step gives. -/
theorem Yields.mapM {ι : Type} {f : ι → Except ε α} {P : α → Prop} (hf : ∀ i, Yields (f i) P) :
    ∀ items : List ι, Yields (items.mapM f) fun as => ∀ a ∈ as, P a
  | [] => Yields.pure (by simp)
  | i :: rest => by
    rw [List.mapM_cons]
    exact (hf i).bind fun _ ha => (Yields.mapM hf rest).bind fun _ has =>
      Yields.pure (List.forall_mem_cons.mpr ⟨ha, has⟩)

end Yields

theorem TokenKind.ofName_name_ofName (s : String) :
    TokenKind.ofName (TokenKind.ofName s).name = TokenKind.ofName s := by
  unfold TokenKind.ofName
  cases h : Terminal.ofName? s with
  | none => simp [TokenKind.name, h]
  | some t => simp [TokenKind.name, Terminal.ofName?_name]

theorem Token.ofJson_readsBack (j : Json) : Yields (Token.ofJson j) Token.ReadsBack := by
  cases j with
  | obj fields =>
    unfold Token.ofJson
    exact Yields.after fun _ => Yields.after fun _ =>
      Yields.pure (TokenKind.ofName_name_ofName _)
  | _ => exact Yields.error

theorem Token.paramsOfJson_readsBack (j : Json) :
    Yields (Token.paramsOfJson j) fun ps => ∀ p ∈ ps, p.ReadsBack := by
  cases j with
  | arr items => exact Yields.mapM Token.ofJson_readsBack items
  | obj fields => exact Yields.mapM (fun i => Token.ofJson_readsBack (.str i.1)) fields
  | str s =>
    exact Yields.mapM (fun c => Token.ofJson_readsBack (.str (String.ofList [c]))) s.toList
  | _ => exact Yields.error

theorem Tree.constantOfJson_ne_int (j : Json) :
    Yields (Tree.constantOfJson j) fun v => ∀ n, v ≠ .int n := by
  cases j with
  | int n =>
    by_cases hn : n.natAbs ≥ Nat.pow 2 1024 - Nat.pow 2 970
    · simp only [Tree.constantOfJson, if_pos hn]
      exact Yields.error
    · simp only [Tree.constantOfJson, if_neg hn]
      exact fun _ h => by cases h; simp
  | _ => exact fun _ h => by cases h; simp

theorem Tree.allReadBack_iff : ∀ ts : List Tree, Tree.AllReadBack ts ↔ ∀ t ∈ ts, t.ReadsBack
  | [] => by simp [Tree.AllReadBack]
  | t :: rest => by simp [Tree.AllReadBack, Tree.allReadBack_iff rest]

namespace Tree

/-- Every tree reading gives reads back: its tokens are read through their kind's name, and its
constants through `constantOfJson`, which turns integers into doubles. -/
theorem ofJsonWith_readsBack : ∀ (fuel : Nat) (j : Json), Yields (ofJsonWith fuel j) ReadsBack
  | 0, _ => Yields.error
  | _ + 1, .null => Yields.pure trivial
  | fuel + 1, .arr items => by
    rw [ofJsonWith]
    exact (Yields.mapM (ofJsonWith_readsBack fuel) items).map fun _ h =>
      (allReadBack_iff _).mpr h
  | fuel + 1, .obj fields => by
    have node : ∀ key, Yields (required fields key >>= ofJsonWith fuel) ReadsBack :=
      fun _ => Yields.after (ofJsonWith_readsBack fuel)
    have opt : ∀ key, Yields (ofJsonWith fuel (optional fields key)) ReadsBack :=
      fun _ => ofJsonWith_readsBack fuel _
    have tok : ∀ key, Yields (tokenField fields key) Token.ReadsBack :=
      fun _ => Yields.after Token.ofJson_readsBack
    cases hk : Json.kindOf (fields.lookup "type") with
    | error e =>
      rw [ofJsonWith_obj_of_kindOf hk]
      exact Yields.error
    | ok k =>
      have h := Json.kindOf_eq_ok hk
      -- one case per kind: the fields in the order they are read
      cases k <;> simp only [ofJsonWith, h, NodeKind.name]
      case block => exact (node _).bind fun _ hs => Yields.pure hs
      case classDecl =>
        exact (tok _).bind fun _ hn => (opt _).bind fun _ hs => (node _).bind fun _ hm =>
          Yields.pure ⟨hn, hs, hm⟩
      case exprStmt => exact (node _).bind fun _ he => Yields.pure he
      case functionDecl =>
        refine (tok _).bind fun _ hn => ?_
        rw [← bind_assoc]
        exact (Yields.after Token.paramsOfJson_readsBack).bind fun _ hps =>
          (node _).bind fun _ hb => Yields.pure ⟨hn, hps, hb⟩
      case ifStmt =>
        exact (node _).bind fun _ hc => (node _).bind fun _ ht => (opt _).bind fun _ he =>
          Yields.pure ⟨hc, ht, he⟩
      case printStmt => exact (node _).bind fun _ hv => Yields.pure hv
      case returnStmt =>
        exact (tok _).bind fun _ hk => (opt _).bind fun _ hv => Yields.pure ⟨hk, hv⟩
      case varDecl =>
        exact (tok _).bind fun _ hn => (opt _).bind fun _ hi => Yields.pure ⟨hn, hi⟩
      case whileStmt =>
        exact (node _).bind fun _ hc => (node _).bind fun _ hb => Yields.pure ⟨hc, hb⟩
      case assign =>
        exact (tok _).bind fun _ hn => (node _).bind fun _ hv => Yields.pure ⟨hn, hv⟩
      case binary =>
        exact (node _).bind fun _ hl => (tok _).bind fun _ hop => (node _).bind fun _ hr =>
          Yields.pure ⟨hl, hop, hr⟩
      case call =>
        exact (node _).bind fun _ hc => (tok _).bind fun _ hp => (node _).bind fun _ ha =>
          Yields.pure ⟨hc, hp, ha⟩
      case get =>
        exact (node _).bind fun _ ho => (tok _).bind fun _ hn => Yields.pure ⟨ho, hn⟩
      case grouping => exact (node _).bind fun _ he => Yields.pure he
      case literal =>
        rw [← bind_assoc]
        exact (Yields.after constantOfJson_ne_int).bind fun _ hv => Yields.pure hv
      case logical =>
        exact (node _).bind fun _ hl => (tok _).bind fun _ hop => (node _).bind fun _ hr =>
          Yields.pure ⟨hl, hop, hr⟩
      case set =>
        exact (node _).bind fun _ ho => (tok _).bind fun _ hn => (node _).bind fun _ hv =>
          Yields.pure ⟨ho, hn, hv⟩
      case superExpr =>
        exact (tok _).bind fun _ hk => (tok _).bind fun _ hm => Yields.pure ⟨hk, hm⟩
      case thisExpr => exact (tok _).bind fun _ hk => Yields.pure hk
      case unary =>
        exact (tok _).bind fun _ hop => (node _).bind fun _ hr => Yields.pure ⟨hop, hr⟩
      case varRef => exact (tok _).bind fun _ hn => Yields.pure hn
  | _ + 1, .bool _ | _ + 1, .int _ | _ + 1, .float _ | _ + 1, .str _ => Yields.error

theorem ofJson_readsBack {j : Json} {t : Tree} (h : ofJson j = .ok t) : t.ReadsBack :=
  ofJsonWith_readsBack _ j t h

/-- Reading is a normal form: a tree read from a document is read back from its own document. -/
theorem ofJson_rereads {j : Json} {t : Tree} (h : ofJson j = .ok t) : ofJson t.toJson = .ok t :=
  ofJson_toJson (ofJson_readsBack h)

theorem constant_toJson_ofJson {j : Json} (h : ∀ n, j ≠ .int n) :
    (Constant.ofJson j).toJson = j := by
  cases j with
  | int n => exact absurd rfl (h n)
  | _ => rfl

mutual

/-- An expression the check reads from a tree is the tree: each place read as an expression is
that expression's child. -/
theorem toExpr_rebuilds : ∀ t : Tree, t.ReadsBack → Yields t.toExpr fun e => e.toTree = t
  | .varRef _, _ => by
    rw [toExpr]
    exact Yields.pure (by rw [Expr.toTree])
  | .assign _ v, ⟨_, hv⟩ => by
    rw [toExpr]
    exact (toExpr_rebuilds v hv).bind fun _ hv' => Yields.pure (by rw [Expr.toTree, hv'])
  | .binary l _ r, ⟨hl, _, hr⟩ => by
    rw [toExpr]
    exact (toExpr_rebuilds l hl).bind fun _ hl' => (toExpr_rebuilds r hr).bind fun _ hr' =>
      Yields.pure (by rw [Expr.toTree, hl', hr'])
  | .logical l _ r, ⟨hl, _, hr⟩ => by
    rw [toExpr]
    exact (toExpr_rebuilds l hl).bind fun _ hl' => (toExpr_rebuilds r hr).bind fun _ hr' =>
      Yields.pure (by rw [Expr.toTree, hl', hr'])
  | .call c _ a, ⟨hc, _, ha⟩ => by
    cases a with
    | list args =>
      rw [toExpr]
      exact (toExpr_rebuilds c hc).bind fun _ hc' => (toExprs_rebuilds args ha).bind
        fun _ hargs => Yields.pure (by rw [Expr.toTree_call, hc', hargs])
    | _ =>
      simp only [toExpr]
      exact Yields.after fun _ => Yields.error
  | .get o _, ⟨ho, _⟩ => by
    rw [toExpr]
    exact (toExpr_rebuilds o ho).bind fun _ ho' => Yields.pure (by rw [Expr.toTree, ho'])
  | .set o _ v, ⟨ho, _, hv⟩ => by
    rw [toExpr]
    exact (toExpr_rebuilds v hv).bind fun _ hv' => (toExpr_rebuilds o ho).bind fun _ ho' =>
      Yields.pure (by rw [Expr.toTree, ho', hv'])
  | .grouping e, he => by
    rw [toExpr]
    exact (toExpr_rebuilds e he).bind fun _ he' => Yields.pure (by rw [Expr.toTree, he'])
  | .unary _ r, ⟨_, hr⟩ => by
    rw [toExpr]
    exact (toExpr_rebuilds r hr).bind fun _ hr' => Yields.pure (by rw [Expr.toTree, hr'])
  | .literal _, hv => by
    rw [toExpr]
    exact Yields.pure (by rw [Expr.toTree, constant_toJson_ofJson hv])
  | .thisExpr _, _ => by
    rw [toExpr]
    exact Yields.pure (by rw [Expr.toTree])
  | .superExpr _ _, _ => by
    rw [toExpr]
    exact Yields.pure (by rw [Expr.toTree])
  | .nothing, _ | .list _, _ | .block _, _ | .classDecl .., _ | .exprStmt _, _
  | .functionDecl .., _ | .ifStmt .., _ | .printStmt _, _ | .returnStmt .., _ | .varDecl .., _
  | .whileStmt .., _ => by
    simp only [toExpr]
    exact Yields.error

theorem toExprs_rebuilds : ∀ ts : List Tree, AllReadBack ts →
    Yields (toExprs ts) fun es => es.map Expr.toTree = ts
  | [], _ => by
    rw [toExprs]
    exact Yields.pure rfl
  | t :: rest, ⟨ht, hrest⟩ => by
    rw [toExprs]
    exact (toExpr_rebuilds t ht).bind fun _ ht' => (toExprs_rebuilds rest hrest).bind
      fun _ hrest' => Yields.pure (by rw [List.map_cons, ht', hrest'])

end

mutual

/-- A statement the check reads from a tree is the tree: each place is read as the statement,
expression, list, superclass or methods the statement has there. -/
theorem toStmt_rebuilds : ∀ t : Tree, t.ReadsBack → Yields t.toStmt fun s => s.toTree = t
  | .block b, hb => by
    cases b with
    | list items =>
      rw [toStmt]
      exact (toStmts_rebuilds items hb).bind fun _ h => Yields.pure (by rw [Stmt.toTree, h])
    | _ =>
      simp only [toStmt]
      exact Yields.error
  | .varDecl _ i, ⟨_, hi⟩ => by
    by_cases hnil : i = .nothing
    · subst hnil
      rw [toStmt]
      exact Yields.pure (by simp only [Stmt.toTree])
    · simp only [toStmt]
      exact (toExpr_rebuilds i hi).bind fun _ h => Yields.pure (by simp only [Stmt.toTree, h])
  | .functionDecl _ _ b, ⟨_, _, hb⟩ => by
    cases b with
    | list body =>
      rw [toStmt]
      exact (toStmts_rebuilds body hb).bind fun _ h =>
        Yields.pure (by rw [Stmt.toTree, FunDecl.toTree, h])
    | _ =>
      simp only [toStmt]
      exact Yields.error
  | .classDecl n sup methods, ⟨_, hsup, hms⟩ => by
    cases methods with
    | list ms =>
      -- whichever superclass is read, the methods are read after it
      have rest : ∀ sc, (∀ fs, Stmt.toTree (.classDecl n sc fs) =
          .classDecl n sup (.list (FunDecl.listToTree fs))) →
          Yields (toMethods ms >>= fun fs => pure (Stmt.classDecl n sc fs))
            fun s => s.toTree = .classDecl n sup (.list ms) := fun _ hsc =>
        (toMethods_rebuilds ms hms).bind fun _ h => Yields.pure (by rw [hsc, h])
      unfold toStmt
      dsimp only
      split
      · exact (Yields.pure fun _ => by simp only [Stmt.toTree]).bind rest
      · split
        · exact ((toExpr_rebuilds _ hsup).map fun _ h _ => by simp only [Stmt.toTree, h]).bind rest
        · exact Yields.error
    | _ =>
      unfold toStmt
      dsimp only
      split
      · exact Yields.after fun _ => Yields.error
      · split <;> exact Yields.after fun _ => Yields.error
  | .exprStmt e, he => by
    rw [toStmt]
    exact (toExpr_rebuilds e he).bind fun _ h => Yields.pure (by rw [Stmt.toTree, h])
  | .ifStmt c t e, ⟨hc, ht, he⟩ => by
    rw [toStmt]
    refine (toExpr_rebuilds c hc).bind fun _ hc' => (toStmt_rebuilds t ht).bind fun _ ht' => ?_
    split
    · exact Yields.pure (by simp only [Stmt.toTree, hc', ht'])
    · exact (toStmt_rebuilds _ he).bind fun _ he' =>
        Yields.pure (by simp only [Stmt.toTree, hc', ht', he'])
  | .printStmt v, hv => by
    rw [toStmt]
    exact (toExpr_rebuilds v hv).bind fun _ h => Yields.pure (by rw [Stmt.toTree, h])
  | .returnStmt _ v, ⟨_, hv⟩ => by
    by_cases hnil : v = .nothing
    · subst hnil
      rw [toStmt]
      exact Yields.pure (by simp only [Stmt.toTree])
    · simp only [toStmt]
      exact (toExpr_rebuilds v hv).bind fun _ h => Yields.pure (by simp only [Stmt.toTree, h])
  | .whileStmt c b, ⟨hc, hb⟩ => by
    rw [toStmt]
    exact (toExpr_rebuilds c hc).bind fun _ hc' => (toStmt_rebuilds b hb).bind fun _ hb' =>
      Yields.pure (by rw [Stmt.toTree, hc', hb'])
  | .nothing, _ | .list _, _ | .assign .., _ | .binary .., _ | .call .., _ | .get .., _
  | .grouping _, _ | .literal _, _ | .logical .., _ | .set .., _ | .superExpr .., _
  | .thisExpr _, _ | .unary .., _ | .varRef _, _ => by
    simp only [toStmt]
    exact Yields.error

theorem toStmts_rebuilds : ∀ ts : List Tree, AllReadBack ts →
    Yields (toStmts ts) fun ss => Stmt.listToTree ss = ts
  | [], _ => by
    rw [toStmts]
    exact Yields.pure rfl
  | t :: rest, ⟨ht, hrest⟩ => by
    rw [toStmts]
    exact (toStmt_rebuilds t ht).bind fun _ ht' => (toStmts_rebuilds rest hrest).bind
      fun _ hrest' => Yields.pure (by rw [Stmt.listToTree, ht', hrest'])

theorem toMethods_rebuilds : ∀ ts : List Tree, AllReadBack ts →
    Yields (toMethods ts) fun fs => FunDecl.listToTree fs = ts
  | [], _ => by
    rw [toMethods]
    exact Yields.pure rfl
  | t :: rest, ⟨ht, hrest⟩ => by
    -- a method is a function declaration whose body is a list
    cases t with
    | functionDecl _ _ b =>
      cases b with
      | list body =>
        rw [toMethods]
        exact (toStmts_rebuilds body ht.2.2).bind fun _ hb => (toMethods_rebuilds rest hrest).bind
          fun _ hrest' => Yields.pure (by rw [FunDecl.listToTree, FunDecl.toTree, hb, hrest'])
      | _ =>
        simp only [toMethods]
        exact Yields.error
    | _ =>
      simp only [toMethods]
      split <;> exact Yields.error

end

/-- The program the check reads from a tree is the tree. -/
theorem toProgram_rebuilds {t : Tree} (h : t.ReadsBack) :
    Yields t.toProgram fun p => Program.toTree p = t := by
  cases t with
  | list items =>
    intro p hp
    rw [Program.toTree, toStmts_rebuilds items h p hp]
  | _ => exact Yields.error

mutual

/-- A place the check reads as an expression is walked whole, with no stop. -/
theorem walkedExpr_of_toExpr : ∀ t : Tree, Yields t.toExpr fun e => t.walkedExpr = (e, false)
  | .varRef _ => by
    rw [toExpr]
    exact Yields.pure (by rw [walkedExpr])
  | .assign _ v => by
    rw [toExpr]
    exact (walkedExpr_of_toExpr v).bind fun _ h =>
      Yields.pure (by simp [walkedExpr, Prod.map, h])
  | .binary l _ r => by
    rw [toExpr]
    exact (walkedExpr_of_toExpr l).bind fun _ hl => (walkedExpr_of_toExpr r).bind fun _ hr =>
      Yields.pure (by simp [walkedExpr, walkOn, Prod.map, hl, hr])
  | .logical l _ r => by
    rw [toExpr]
    exact (walkedExpr_of_toExpr l).bind fun _ hl => (walkedExpr_of_toExpr r).bind fun _ hr =>
      Yields.pure (by simp [walkedExpr, walkOn, Prod.map, hl, hr])
  | .call c _ a => by
    cases a with
    | list args =>
      rw [toExpr]
      exact (walkedExpr_of_toExpr c).bind fun _ hc => (walkedExprs_of_toExprs args).bind
        fun _ hargs => Yields.pure (by simp [walkedExpr, walkOn, Prod.map, hc, hargs])
    | _ =>
      simp only [toExpr]
      exact Yields.after fun _ => Yields.error
  | .get o _ => by
    rw [toExpr]
    exact (walkedExpr_of_toExpr o).bind fun _ h =>
      Yields.pure (by simp [walkedExpr, Prod.map, h])
  | .set o _ v => by
    rw [toExpr]
    exact (walkedExpr_of_toExpr v).bind fun _ hv => (walkedExpr_of_toExpr o).bind fun _ ho =>
      Yields.pure (by simp [walkedExpr, walkOn, Prod.map, ho, hv])
  | .grouping e => by
    rw [toExpr]
    exact (walkedExpr_of_toExpr e).bind fun _ h =>
      Yields.pure (by simp [walkedExpr, Prod.map, h])
  | .unary _ r => by
    rw [toExpr]
    exact (walkedExpr_of_toExpr r).bind fun _ h =>
      Yields.pure (by simp [walkedExpr, Prod.map, h])
  | .literal _ => by
    rw [toExpr]
    exact Yields.pure (by rw [walkedExpr])
  | .thisExpr _ => by
    rw [toExpr]
    exact Yields.pure (by rw [walkedExpr])
  | .superExpr _ _ => by
    rw [toExpr]
    exact Yields.pure (by rw [walkedExpr])
  | .nothing | .list _ | .block _ | .classDecl .. | .exprStmt _ | .functionDecl ..
  | .ifStmt .. | .printStmt _ | .returnStmt .. | .varDecl .. | .whileStmt .. => by
    simp only [toExpr]
    exact Yields.error

theorem walkedExprs_of_toExprs : ∀ ts : List Tree,
    Yields (toExprs ts) fun es => walkedExprs ts = (es, false)
  | [] => by
    rw [toExprs]
    exact Yields.pure (by rw [walkedExprs])
  | t :: rest => by
    rw [toExprs]
    exact (walkedExpr_of_toExpr t).bind fun _ ht => (walkedExprs_of_toExprs rest).bind
      fun _ hrest => Yields.pure (by simp [walkedExprs, walkOn, Prod.map, ht, hrest])

end

mutual

/-- A place the check reads as a statement is walked whole, with no stop. -/
theorem walkedStmt_of_toStmt : ∀ t : Tree, Yields t.toStmt fun s => t.walkedStmt = (s, false)
  | .block b => by
    cases b with
    | list items =>
      rw [toStmt]
      exact (walkedStmts_of_toStmts items).bind fun _ h =>
        Yields.pure (by simp [walkedStmt, Prod.map, h])
    | _ =>
      simp only [toStmt]
      exact Yields.error
  | .varDecl _ i => by
    by_cases hnil : i = .nothing
    · subst hnil
      rw [toStmt]
      exact Yields.pure (by rw [walkedStmt])
    · simp only [toStmt]
      exact (walkedExpr_of_toExpr i).bind fun _ h =>
        Yields.pure (by simp [walkedStmt, Prod.map, h])
  | .functionDecl _ _ b => by
    cases b with
    | list body =>
      rw [toStmt]
      exact (walkedStmts_of_toStmts body).bind fun _ h =>
        Yields.pure (by simp [walkedStmt, Prod.map, h])
    | _ =>
      simp only [toStmt]
      exact Yields.error
  | .classDecl n sup methods => by
    cases methods with
    | list ms =>
      unfold toStmt walkedStmt
      dsimp only
      split
      · exact (Yields.pure (P := fun sc => sc = none) rfl).bind fun _ hsc =>
          (walkedMethods_of_toMethods ms).bind fun _ h =>
            Yields.pure (by rw [hsc]; simp [walkOn, Prod.map, h])
      · split
        · refine ((walkedExpr_of_toExpr _).map
            (Q := fun sc => ∃ e, sc = some e ∧ walkedExpr _ = (e, false))
            fun e he => ⟨e, rfl, he⟩).bind fun _ hsc => ?_
          obtain ⟨e, rfl, he⟩ := hsc
          exact (walkedMethods_of_toMethods ms).bind fun _ h =>
            Yields.pure (by simp [walkOn, Prod.map, he, h])
        · exact (Yields.error (P := fun _ => False)).bind fun _ h => h.elim
    | _ =>
      unfold toStmt
      dsimp only
      split
      · exact Yields.after fun _ => Yields.error
      · split <;> exact Yields.after fun _ => Yields.error
  | .exprStmt e => by
    rw [toStmt]
    exact (walkedExpr_of_toExpr e).bind fun _ h =>
      Yields.pure (by simp [walkedStmt, Prod.map, h])
  | .ifStmt c t e => by
    rw [toStmt]
    refine (walkedExpr_of_toExpr c).bind fun _ hc => (walkedStmt_of_toStmt t).bind fun _ ht => ?_
    split
    · exact Yields.pure (by simp [walkedStmt, walkOn, hc, ht])
    · exact (walkedStmt_of_toStmt _).bind fun _ he =>
        Yields.pure (by simp [walkedStmt, walkOn, Prod.map, hc, ht, he])
  | .printStmt v => by
    rw [toStmt]
    exact (walkedExpr_of_toExpr v).bind fun _ h =>
      Yields.pure (by simp [walkedStmt, Prod.map, h])
  | .returnStmt _ v => by
    by_cases hnil : v = .nothing
    · subst hnil
      rw [toStmt]
      exact Yields.pure (by rw [walkedStmt])
    · simp only [toStmt]
      exact (walkedExpr_of_toExpr v).bind fun _ h =>
        Yields.pure (by simp [walkedStmt, Prod.map, h])
  | .whileStmt c b => by
    rw [toStmt]
    exact (walkedExpr_of_toExpr c).bind fun _ hc => (walkedStmt_of_toStmt b).bind fun _ hb =>
      Yields.pure (by simp [walkedStmt, walkOn, Prod.map, hc, hb])
  | .nothing | .list _ | .assign .. | .binary .. | .call .. | .get .. | .grouping _
  | .literal _ | .logical .. | .set .. | .superExpr .. | .thisExpr _ | .unary .. | .varRef _ => by
    simp only [toStmt]
    exact Yields.error

theorem walkedStmts_of_toStmts : ∀ ts : List Tree,
    Yields (toStmts ts) fun ss => walkedStmts ts = (ss, false)
  | [] => by
    rw [toStmts]
    exact Yields.pure (by rw [walkedStmts])
  | t :: rest => by
    rw [toStmts]
    exact (walkedStmt_of_toStmt t).bind fun _ ht => (walkedStmts_of_toStmts rest).bind
      fun _ hrest => Yields.pure (by simp [walkedStmts, walkOn, Prod.map, ht, hrest])

theorem walkedMethods_of_toMethods : ∀ ts : List Tree,
    Yields (toMethods ts) fun fs => walkedMethods ts = (fs, false)
  | [] => by
    rw [toMethods]
    exact Yields.pure (by rw [walkedMethods])
  | t :: rest => by
    cases t with
    | functionDecl _ _ b =>
      cases b with
      | list body =>
        rw [toMethods]
        exact (walkedStmts_of_toStmts body).bind fun _ hb =>
          (walkedMethods_of_toMethods rest).bind fun _ hrest =>
            Yields.pure (by simp [walkedMethods, walkOn, Prod.map, hb, hrest])
      | _ =>
        simp only [toMethods]
        exact Yields.error
    | _ =>
      simp only [toMethods]
      split <;> exact Yields.error

end

/-- A tree the check reads as a program is walked whole: resolution meets no misplaced part. -/
theorem walkedProgram_of_toProgram {t : Tree} {p : Program} (h : t.toProgram = .ok p) :
    t.walkedProgram = p := by
  cases t with
  | list items =>
    rw [walkedProgram, walkedStmts_of_toStmts items p h]
  | _ => cases h

end Tree

namespace Resolver

mutual

/-- Resolving an expression keeps its tree: a reference gets a depth, which the tree does not
hold. -/
theorem resolveExpr_toTree : ∀ e : Expr, Gives (resolveExpr e) fun e' => e'.toTree = e.toTree
  | .literal _ => by
    rw [resolveExpr]
    exact Gives.pure rfl
  | .grouping e => by
    rw [resolveExpr]
    exact (resolveExpr_toTree e).bind fun _ h => Gives.pure (by simp only [Expr.toTree, h])
  | .var _ _ => by
    rw [resolveExpr]
    refine Gives.after fun _ => ?_
    dsimp only
    split
    · split
      · exact Gives.after fun _ => Gives.after fun _ => Gives.pure (by simp only [Expr.toTree])
      · exact Gives.after fun _ => Gives.pure (by simp only [Expr.toTree])
    · exact Gives.after fun _ => Gives.pure (by simp only [Expr.toTree])
  | .assign _ v _ => by
    rw [resolveExpr]
    exact (resolveExpr_toTree v).bind fun _ h => Gives.after fun _ =>
      Gives.pure (by simp only [Expr.toTree, h])
  | .unary _ e => by
    rw [resolveExpr]
    exact (resolveExpr_toTree e).bind fun _ h => Gives.pure (by simp only [Expr.toTree, h])
  | .binary l _ r => by
    rw [resolveExpr]
    exact (resolveExpr_toTree l).bind fun _ hl => (resolveExpr_toTree r).bind fun _ hr =>
      Gives.pure (by simp only [Expr.toTree, hl, hr])
  | .logical l _ r => by
    rw [resolveExpr]
    exact (resolveExpr_toTree l).bind fun _ hl => (resolveExpr_toTree r).bind fun _ hr =>
      Gives.pure (by simp only [Expr.toTree, hl, hr])
  | .call c _ args => by
    rw [resolveExpr, mapM_attach_resolveExpr]
    exact (resolveExpr_toTree c).bind fun _ hc => (resolveExprs_toTree args).bind fun _ hargs =>
      Gives.pure (by rw [Expr.toTree_call, Expr.toTree_call, hc, hargs])
  | .get o _ => by
    rw [resolveExpr]
    exact (resolveExpr_toTree o).bind fun _ h => Gives.pure (by simp only [Expr.toTree, h])
  | .set o _ v => by
    rw [resolveExpr]
    exact (resolveExpr_toTree v).bind fun _ hv => (resolveExpr_toTree o).bind fun _ ho =>
      Gives.pure (by simp only [Expr.toTree, ho, hv])
  | .thisRef _ _ => by
    rw [resolveExpr]
    refine Gives.after fun _ => ?_
    split
    · exact Gives.after fun _ => Gives.pure (by simp only [Expr.toTree])
    · exact Gives.after fun _ => Gives.pure (by simp only [Expr.toTree])
  | .superMethod _ _ _ => by
    rw [resolveExpr]
    refine Gives.after fun _ => ?_
    dsimp only
    split
    · exact Gives.after fun _ => Gives.after fun _ => Gives.pure (by simp only [Expr.toTree])
    · split
      · exact Gives.after fun _ => Gives.after fun _ => Gives.pure (by simp only [Expr.toTree])
      · exact Gives.after fun _ => Gives.pure (by simp only [Expr.toTree])

theorem resolveExprs_toTree : ∀ es : List Expr,
    Gives (es.mapM resolveExpr) fun es' => es'.map Expr.toTree = es.map Expr.toTree
  | [] => by
    rw [List.mapM_nil]
    exact Gives.pure rfl
  | e :: rest => by
    rw [List.mapM_cons]
    exact (resolveExpr_toTree e).bind fun _ he => (resolveExprs_toTree rest).bind fun _ hrest =>
      Gives.pure (by rw [List.map_cons, List.map_cons, he, hrest])

end

mutual

/-- Resolving a statement keeps its tree: it declares, resolves and returns the parts it was
given, in their places. -/
theorem resolveStmt_toTree : ∀ s : Stmt, Gives (resolveStmt s) fun s' => s'.toTree = s.toTree
  | .expr e => by
    rw [resolveStmt]
    exact (resolveExpr_toTree e).bind fun _ h => Gives.pure (by simp only [Stmt.toTree, h])
  | .print e => by
    rw [resolveStmt]
    exact (resolveExpr_toTree e).bind fun _ h => Gives.pure (by simp only [Stmt.toTree, h])
  | .varDecl _ i => by
    rw [resolveStmt]
    refine Gives.after fun _ => ?_
    cases i with
    | none =>
      simp only [pure_bind]
      exact Gives.after fun _ => Gives.pure rfl
    | some e =>
      exact (resolveExpr_toTree e).map.bind fun _ ⟨_, he, hinit⟩ => Gives.after fun _ =>
        Gives.pure (by simp only [hinit, Stmt.toTree, he])
  | .block b => by
    rw [resolveStmt]
    exact Gives.after fun _ => (resolveStmts_toTree b).bind fun _ hb => Gives.after fun _ =>
      Gives.pure (by simp only [Stmt.toTree, hb])
  | .ifElse c t e => by
    rw [resolveStmt]
    refine (resolveExpr_toTree c).bind fun _ hc => (resolveStmt_toTree t).bind fun _ ht => ?_
    cases e with
    | none => exact Gives.pure (by simp only [Stmt.toTree, hc, ht])
    | some e =>
      exact (resolveStmt_toTree e).bind fun _ he =>
        Gives.pure (by simp only [Stmt.toTree, hc, ht, he])
  | .whileLoop c b => by
    rw [resolveStmt]
    exact (resolveExpr_toTree c).bind fun _ hc => (resolveStmt_toTree b).bind fun _ hb =>
      Gives.pure (by simp only [Stmt.toTree, hc, hb])
  | .funDecl f => by
    rw [resolveStmt]
    exact Gives.after fun _ => Gives.after fun _ => (resolveFunction_toTree f .function).bind
      fun _ hf => Gives.pure (by simp only [Stmt.toTree, hf])
  | .returnStmt _ v => by
    rw [resolveStmt]
    refine Gives.after fun _ => ?_
    dsimp only
    refine Gives.ite_report ?_
    cases v with
    | none => exact Gives.pure rfl
    | some e =>
      dsimp only
      refine Gives.ite_report ?_
      exact (resolveExpr_toTree e).bind fun _ he => Gives.pure (by simp only [Stmt.toTree, he])
  | .classDecl n sup ms => by
    -- only the superclass expression and the methods are resolved; the rest moves scopes
    have hmethods := resolveMethods_toTree ms
    cases sup with
    | none =>
      rw [resolveStmt_classDecl_none]
      exact Gives.after fun _ => Gives.after fun _ => Gives.after fun _ => Gives.after fun _ =>
        Gives.after fun _ => hmethods.bind fun _ hms => Gives.after fun _ => Gives.after fun _ =>
          Gives.pure (by simp only [Stmt.toTree, hms])
    | some s =>
      rw [resolveStmt_classDecl_some]
      exact Gives.after fun _ => Gives.after fun _ => Gives.after fun _ => Gives.after fun _ =>
        Gives.after fun _ => Gives.after fun _ => (resolveExpr_toTree s).bind
          fun _ hs => Gives.after fun _ => Gives.after fun _ => hmethods.bind fun _ hms =>
            Gives.after fun _ => Gives.after fun _ => Gives.after fun _ =>
              Gives.pure (by simp only [Stmt.toTree, hs, hms])

theorem resolveStmts_toTree : ∀ ss : List Stmt,
    Gives (resolveStmts ss) fun ss' => Stmt.listToTree ss' = Stmt.listToTree ss
  | [] => by
    rw [resolveStmts]
    exact Gives.pure rfl
  | s :: rest => by
    rw [resolveStmts]
    exact (resolveStmt_toTree s).bind fun _ hs => (resolveStmts_toTree rest).bind fun _ hrest =>
      Gives.pure (by simp only [Stmt.listToTree, hs, hrest])

theorem resolveFunction_toTree : ∀ (f : FunDecl) (kind : FunctionKind),
    Gives (resolveFunction f kind) fun f' => f'.toTree = f.toTree
  | .mk _ _ b, kind => by
    rw [resolveFunction]
    exact Gives.withFunction kind <| Gives.after fun _ => Gives.after fun _ =>
      (resolveStmts_toTree b).bind fun _ hb => Gives.after fun _ =>
        Gives.pure (by simp only [FunDecl.toTree, hb])

theorem resolveMethods_toTree : ∀ fs : List FunDecl,
    Gives (resolveMethods fs) fun fs' => FunDecl.listToTree fs' = FunDecl.listToTree fs
  | [] => by
    rw [resolveMethods]
    exact Gives.pure rfl
  | f :: rest => by
    rw [resolveMethods]
    exact (resolveFunction_toTree f _).bind fun _ hf => (resolveMethods_toTree rest).bind
      fun _ hrest => Gives.pure (by simp only [FunDecl.listToTree, hf, hrest])

end

end Resolver

/-- Resolution keeps a program's tree, whatever errors it reports. -/
theorem Program.resolve_toTree (p : Program) : Program.toTree p.resolve.program = p.toTree :=
  congrArg Tree.list (Resolver.resolveStmts_toTree p {})

/-- A document runs as the tree it holds, or not at all. When the placement check reads a
program from the tree, that program is the tree, resolution keeps it so, and running the
document runs that program: no place of the tree is skipped, and each is run as the kind the
check read it as. When the check finds a misplaced part (a statement, a list or an empty place
where an expression belongs, or the other way round), running the document fails with that part
in every session, before anything runs or prints: resolution stops there, having walked only the
part of the tree before it. -/
theorem placed_documents_run_as_read (j : Json) (t : Tree) (hj : Tree.ofJson j = .ok t) :
    (∀ p, t.toProgram = .ok p →
      Program.toTree p = t ∧ Program.toTree p.resolve.program = t ∧
        ∀ s : Session, s.runDocument j = s.runProgram p) ∧
    (∀ e, t.toProgram = .error e → ∀ s : Session,
      s.runDocument j = .error (.misplaced e t.walkedProgram)) := by
  have hread := Tree.ofJson_readsBack hj
  refine ⟨fun p hp => ⟨Tree.toProgram_rebuilds hread p hp, ?_, fun s => ?_⟩, fun e he s => ?_⟩
  · rw [Program.resolve_toTree, Tree.toProgram_rebuilds hread p hp]
  · simp only [Session.runDocument, hj, hp, Except.mapError, bind, Except.bind]
  · simp only [Session.runDocument, hj, he, Except.mapError, bind, Except.bind]

/-- A `return` at the top level, then a block where a printed value belongs. -/
def returnThenBlock : Json :=
  .arr [.obj [("type", .str "ReturnStmt"),
      ("keyword", .obj [("type", .str "RETURN"), ("lexeme", .str "return"), ("line", .int 1),
        ("column", .int 1)])],
    .obj [("type", .str "PrintStmt"),
      ("value", .obj [("type", .str "Block"), ("statements", .arr [])])]]

/-- The block is refused before anything runs, after resolution walked the `return` before it
and reported it. -/
theorem return_before_misplaced_block_is_reported :
    Tree.ofJson returnThenBlock =
      .ok (.list [.returnStmt ⟨TokenKind.ofName "RETURN", "return", .null, 1, 1⟩ .nothing,
        .printStmt (.block (.list []))]) ∧
    (∀ s : Session, s.runDocument returnThenBlock =
      .error (.misplaced (.unexpected (.node .block))
        [.returnStmt ⟨TokenKind.ofName "RETURN", "return", .null, 1, 1⟩ none,
          .print (.literal .nil)])) ∧
    Escape.diagnostics (.misplaced (.unexpected (.node .block))
        [.returnStmt ⟨TokenKind.ofName "RETURN", "return", .null, 1, 1⟩ none,
          .print (.literal .nil)]) =
      ["[line 1] Error at 'return': Can't return from top-level code."] := by
  have hread : Tree.ofJson returnThenBlock =
      .ok (.list [.returnStmt ⟨TokenKind.ofName "RETURN", "return", .null, 1, 1⟩ .nothing,
        .printStmt (.block (.list []))]) := rfl
  refine ⟨hread, (placed_documents_run_as_read _ _ hread).2 _ rfl, ?_⟩
  have hres : (Program.resolve
      [.returnStmt ⟨TokenKind.ofName "RETURN", "return", .null, 1, 1⟩ none,
        .print (.literal .nil)]).errors =
      [.topLevelReturn ⟨TokenKind.ofName "RETURN", "return", .null, 1, 1⟩] := by
    simp [Program.resolve, Resolver.resolveStmts, Resolver.resolveStmt, Resolver.resolveExpr,
      Resolver.report]
    rfl
  rw [Escape.diagnostics, hres]
  decide

end Lox
