import Lox.Scope.Resolve
import Lox.Proofs.GrammarShape

/-!
# What scope resolution establishes

The resolver gives every reference the number of scopes between it and the innermost scope
declaring its name, or leaves it to the globals. `Stmt.ResolvedIn Γ` says what that means for a
resolved tree in the scopes `Γ`, innermost first: each depth is where `Refers` says (the innermost
declaring scope, or none at all), every read of a variable and of `this` finds a complete
declaration there, and `super` at depth `k` finds a complete `super` with a complete `this` one
scope in. Statements thread the scopes: a declaration completes its name in the innermost scope,
a block and a function body open a scope, and the methods of a class run in `methodScopes`.

`Program.resolve_resolvedIn` proves this of every program that resolves without an error and has
the shapes only the grammar builds. The proof follows each resolution step with `Resolver.Spec`,
which tracks the scopes a step leaves and what its result satisfies when it reports nothing new;
the invariant `ScopesSettled` on the scopes between statements is what makes a found declaration
complete.
-/

namespace Lox

open Resolver

/-- Whether the scope `k` out declares a name, and whether completely. -/
def declaredAt (Γ : List Scope) (k : Nat) (name : String) : Option Bool :=
  Γ[k]?.bind (·.lookup name)

@[simp] theorem declaredAt_nil (k : Nat) (name : String) : declaredAt [] k name = none := rfl

@[simp] theorem declaredAt_zero (sc : Scope) (Γ : List Scope) (name : String) :
    declaredAt (sc :: Γ) 0 name = sc.lookup name := rfl

@[simp] theorem declaredAt_succ (sc : Scope) (Γ : List Scope) (k : Nat) (name : String) :
    declaredAt (sc :: Γ) (k + 1) name = declaredAt Γ k name := rfl

/-- Where a reference to a name points: `some k` is the innermost scope declaring the name,
`k` out; `none` says no scope declares it. -/
def Refers (Γ : List Scope) (name : String) : Option Nat → Prop
  | none => ∀ k, declaredAt Γ k name = none
  | some k => (declaredAt Γ k name).isSome ∧ ∀ j < k, declaredAt Γ j name = none

theorem Scope.any_eq_isSome_lookup (sc : Scope) (name : String) :
    sc.any (·.1 == name) = (sc.lookup name).isSome := by
  rw [Bool.eq_iff_iff, List.any_eq_true, List.lookup_isSome_iff]
  simp only [beq_iff_eq]
  exact ⟨fun ⟨p, hp, h⟩ => ⟨p, hp, h.symm⟩, fun ⟨p, hp, h⟩ => ⟨p, hp, h.symm⟩⟩

theorem Scope.lookup_map_set (sc : Scope) (name key : String) (b : Bool) :
    (sc.map fun p => (p.1, if p.1 = name then b else p.2)).lookup key =
      if key = name then (sc.lookup key).map fun _ => b else sc.lookup key := by
  induction sc with
  | nil => by_cases h : key = name <;> simp [h]
  | cons p rest ih =>
    obtain ⟨k, v⟩ := p
    by_cases h : key = k
    · subst h
      by_cases hk : key = name <;> simp [hk]
    · have hb : (key == k) = false := by simpa using h
      simp only [List.map_cons, List.lookup_cons, hb, ih]

theorem Scope.lookup_put (sc : Scope) (name key : String) (b : Bool) :
    (Scope.put sc name b).lookup key = if key = name then some b else sc.lookup key := by
  have hset : (fun (p : String × Bool) => if p.1 == name then (p.1, b) else (p.1, p.2)) =
      fun p => (p.1, if p.1 = name then b else p.2) := by
    funext p
    by_cases h : p.1 = name <;> simp [h]
  unfold Scope.put
  cases hany : sc.any (·.1 == name) with
  | true =>
    have hsome : (sc.lookup name).isSome := by rw [← Scope.any_eq_isSome_lookup]; exact hany
    simp only [if_true]
    rw [hset, Scope.lookup_map_set]
    by_cases h : key = name
    · subst h
      obtain ⟨c, hc⟩ := Option.isSome_iff_exists.mp hsome
      simp [hc]
    · simp [h]
  | false =>
    have hnone : sc.lookup name = none := by
      rw [Scope.any_eq_isSome_lookup] at hany; simpa using hany
    simp only [Bool.false_eq_true, if_false, List.lookup_append]
    by_cases h : key = name
    · subst h
      simp [hnone]
    · have hb : (key == name) = false := by simpa using h
      simp [h, List.lookup_cons, hb]

/-- The depth the resolver computes is where the reference points. -/
theorem depthIn_refers (name : String) (Γ : List Scope) (d : Nat) :
    depthIn name Γ d = (depthIn name Γ 0).map (· + d) ∧ Refers Γ name (depthIn name Γ 0) := by
  induction Γ generalizing d with
  | nil => exact ⟨rfl, fun k => rfl⟩
  | cons sc rest ih =>
    cases hl : sc.lookup name with
    | some b =>
      have hany : sc.any (·.1 == name) = true := by rw [Scope.any_eq_isSome_lookup, hl]; rfl
      simp only [depthIn, hany, if_true, Option.map_some]
      refine ⟨by simp, by simp [hl], fun j hj => absurd hj (Nat.not_lt_zero j)⟩
    | none =>
      have hany : sc.any (·.1 == name) = false := by rw [Scope.any_eq_isSome_lookup, hl]; rfl
      obtain ⟨hd, hrefers⟩ := ih (d + 1)
      obtain ⟨h1, -⟩ := ih 1
      simp only [depthIn, hany, Bool.false_eq_true, if_false]
      refine ⟨?_, ?_⟩
      · rw [hd, h1, Option.map_map]
        congr 1
        funext x
        simp only [Function.comp]
        omega
      rw [h1]
      cases hk : depthIn name rest 0 with
      | none =>
        rw [hk] at hrefers
        intro k
        cases k with
        | zero => simpa using hl
        | succ k => simpa using hrefers k
      | some k =>
        rw [hk] at hrefers
        simp only [Option.map_some]
        refine ⟨by simpa using hrefers.1, fun j hj => ?_⟩
        cases j with
        | zero => simpa using hl
        | succ j => simpa using hrefers.2 j (by omega)

/-- Sets a name in the innermost scope; with no local scope, at the globals, nothing changes. -/
def putInnermost (Γ : List Scope) (name : String) (done : Bool) : List Scope :=
  match Γ with
  | [] => []
  | sc :: rest => Scope.put sc name done :: rest

theorem declaredAt_putInnermost (Γ : List Scope) (name key : String) (done : Bool) (k : Nat) :
    declaredAt (putInnermost Γ name done) k key =
      if k = 0 ∧ key = name ∧ Γ ≠ [] then some done else declaredAt Γ k key := by
  cases Γ with
  | nil => simp [putInnermost]
  | cons sc rest =>
    cases k with
    | zero => simp [putInnermost, Scope.lookup_put]
    | succ k => simp [putInnermost]

/-- The scope of a function's parameters, each declared completely, in order. -/
def paramScope (params : List Token) : Scope :=
  params.foldl (fun sc p => Scope.put sc p.lexeme true) []

/-- The scopes the methods of a class are resolved in: one holding `this`, inside one holding
`super` when the class has a superclass, inside the scopes of the class declaration with its
name declared. -/
def methodScopes (Γ : List Scope) (name : String) (hasSuper : Bool) : List Scope :=
  let outer := putInnermost Γ name true
  [("this", true)] :: if hasSuper then [("super", true)] :: outer else outer

/-- The scopes after a statement: a declaration declares its name completely in the innermost
scope; anything else leaves the scopes as they were. -/
def Stmt.after (s : Stmt) (Γ : List Scope) : List Scope :=
  match s.declared? with
  | some n => putInnermost Γ n.lexeme true
  | none => Γ

mutual

/-- An expression resolved in the scopes `Γ`: every reference points where `Refers` says, and a
read of a variable or of `this` finds a complete declaration there; `super` at depth `k` finds a
complete `super` there and a complete `this` one scope in. -/
def Expr.ResolvedIn (Γ : List Scope) : Expr → Prop
  | .literal _ => True
  | .grouping e => e.ResolvedIn Γ
  | .var n d => Refers Γ n.lexeme d ∧ ∀ k ∈ d, declaredAt Γ k n.lexeme = some true
  | .assign n v d => Refers Γ n.lexeme d ∧ v.ResolvedIn Γ
  | .unary _ e => e.ResolvedIn Γ
  | .binary l _ r => l.ResolvedIn Γ ∧ r.ResolvedIn Γ
  | .logical l _ r => l.ResolvedIn Γ ∧ r.ResolvedIn Γ
  | .call c _ args => c.ResolvedIn Γ ∧ Expr.AllResolvedIn Γ args
  | .get o _ => o.ResolvedIn Γ
  | .set o _ v => o.ResolvedIn Γ ∧ v.ResolvedIn Γ
  | .thisRef k d => Refers Γ k.lexeme d ∧ ∀ j ∈ d, declaredAt Γ j k.lexeme = some true
  | .superMethod k _ d =>
    Refers Γ k.lexeme d ∧ ∀ j ∈ d,
      declaredAt Γ j "super" = some true ∧ 0 < j ∧ declaredAt Γ (j - 1) "this" = some true

/-- Expressions resolved in the scopes `Γ`. -/
def Expr.AllResolvedIn (Γ : List Scope) : List Expr → Prop
  | [] => True
  | e :: rest => e.ResolvedIn Γ ∧ Expr.AllResolvedIn Γ rest

end

mutual

/-- A statement resolved in the scopes `Γ`. A block resolves its body in a new scope, a function
its body in the scope of its parameters, and the methods of a class in `methodScopes`; the
branches of a conditional and the body of a loop declare nothing. -/
def Stmt.ResolvedIn (Γ : List Scope) : Stmt → Prop
  | .expr e => e.ResolvedIn Γ
  | .print e => e.ResolvedIn Γ
  | .varDecl n i => ∀ e ∈ i, e.ResolvedIn (putInnermost Γ n.lexeme false)
  | .block b => Stmt.ListResolvedIn ([] :: Γ) b
  | .ifElse c t e =>
    c.ResolvedIn Γ ∧ t.ResolvedIn Γ ∧ t.declared? = none ∧
      match e with
      | some e => e.ResolvedIn Γ ∧ e.declared? = none
      | none => True
  | .whileLoop c b => c.ResolvedIn Γ ∧ b.ResolvedIn Γ ∧ b.declared? = none
  | .funDecl f => f.ResolvedIn (putInnermost Γ f.name.lexeme true)
  | .returnStmt _ v => ∀ e ∈ v, e.ResolvedIn Γ
  | .classDecl n s ms =>
    (∀ e ∈ s, e.ResolvedIn Γ) ∧ FunDecl.AllResolvedIn (methodScopes Γ n.lexeme s.isSome) ms

/-- Statements resolved one after another from the scopes `Γ`, each in the scopes the ones
before it leave. -/
def Stmt.ListResolvedIn (Γ : List Scope) : List Stmt → Prop
  | [] => True
  | s :: rest => s.ResolvedIn Γ ∧ Stmt.ListResolvedIn (s.after Γ) rest

/-- A function resolved in the scopes `Γ`: its body in the scope of its parameters. -/
def FunDecl.ResolvedIn (Γ : List Scope) : FunDecl → Prop
  | .mk _ ps b => Stmt.ListResolvedIn (paramScope ps :: Γ) b

/-- Functions resolved in the scopes `Γ`. -/
def FunDecl.AllResolvedIn (Γ : List Scope) : List FunDecl → Prop
  | [] => True
  | f :: rest => f.ResolvedIn Γ ∧ FunDecl.AllResolvedIn Γ rest

end

namespace Resolver

/-- A resolution step from the scopes `Γ` to the scopes `Γ'`, keeping every error reported
before it, whose result satisfies `ok` when it reports no new error. -/
structure Spec {α : Type} (x : M α) (Γ Γ' : List Scope) (ok : α → Prop) : Prop where
  scopes : ∀ r : Resolver, r.scopes = Γ → (x.run r).2.scopes = Γ'
  errors : ∀ r : Resolver, r.scopes = Γ → r.errors.size ≤ (x.run r).2.errors.size
  sound : ∀ r : Resolver, r.scopes = Γ → (x.run r).2.errors.size = r.errors.size → ok (x.run r).1

variable {α β : Type} {Γ Γ₁ Γ₂ : List Scope}

theorem run_bind (x : M α) (f : α → M β) (r : Resolver) :
    (x >>= f).run r = (f (x.run r).1).run (x.run r).2 := rfl

theorem Spec.bind {x : M α} {f : α → M β} {P : α → Prop} {Q : β → Prop}
    (hx : Spec x Γ Γ₁ P) (hf : ∀ a, Spec (f a) Γ₁ Γ₂ fun b => P a → Q b) :
    Spec (x >>= f) Γ Γ₂ Q := by
  constructor
  · intro r hr
    rw [run_bind]
    exact (hf _).scopes _ (hx.scopes r hr)
  · intro r hr
    rw [run_bind]
    exact Nat.le_trans (hx.errors r hr) ((hf _).errors _ (hx.scopes r hr))
  · intro r hr hsize
    rw [run_bind] at hsize ⊢
    have h₁ := hx.errors r hr
    have h₂ := (hf (x.run r).1).errors _ (hx.scopes r hr)
    exact (hf _).sound _ (hx.scopes r hr) (by omega) (hx.sound r hr (by omega))

theorem Spec.pure {a : α} {Q : α → Prop} (h : Q a) : Spec (Pure.pure a : M α) Γ Γ Q :=
  ⟨fun _ hr => hr, fun _ _ => Nat.le_refl _, fun _ _ _ => h⟩

theorem Spec.mono {x : M α} {P Q : α → Prop} (hx : Spec x Γ Γ₁ P) (h : ∀ a, P a → Q a) :
    Spec x Γ Γ₁ Q :=
  ⟨hx.scopes, hx.errors, fun r hr hsize => h _ (hx.sound r hr hsize)⟩

theorem Spec.map {x : M α} {f : α → β} {P : α → Prop} (hx : Spec x Γ Γ₁ P) :
    Spec (f <$> x) Γ Γ₁ fun b => ∃ a, P a ∧ b = f a :=
  ⟨hx.scopes, hx.errors, fun r hr hsize => ⟨_, hx.sound r hr hsize, rfl⟩⟩

theorem Spec.of_scopes_eq {x : M α} {P : α → Prop} {Γ' : List Scope} (hx : Spec x Γ Γ₁ P)
    (h : Γ₁ = Γ') : Spec x Γ Γ' P := h ▸ hx

theorem modify_spec {f : Resolver → Resolver} (hscopes : ∀ r, r.scopes = Γ → (f r).scopes = Γ₁)
    (herrors : ∀ r, (f r).errors = r.errors) : Spec (modify f : M Unit) Γ Γ₁ fun _ => True :=
  ⟨fun r hr => hscopes r hr, fun r _ => Nat.le_of_eq (congrArg Array.size (herrors r)).symm,
    fun _ _ _ => trivial⟩

theorem Spec.get_bind {f : Resolver → M α} {Q : α → Prop}
    (h : ∀ r : Resolver, r.scopes = Γ → Spec (f r) Γ Γ₁ Q) : Spec (get >>= f) Γ Γ₁ Q :=
  ⟨fun r hr => (h r hr).scopes r hr, fun r hr => (h r hr).errors r hr,
    fun r hr hsize => (h r hr).sound r hr hsize⟩

theorem Spec.modify_bind {f : Resolver → Resolver} {k : PUnit → M α} {Q : α → Prop}
    (hf : ∀ r, (f r).scopes = r.scopes ∧ (f r).errors = r.errors) (hk : Spec (k ⟨⟩) Γ Γ₁ Q) :
    Spec (modify f >>= k) Γ Γ₁ Q :=
  ⟨fun r hr => hk.scopes _ ((hf r).1.trans hr),
    fun r hr => by
      have := hk.errors _ ((hf r).1.trans hr)
      change r.errors.size ≤ ((k ⟨⟩).run (f r)).2.errors.size
      rwa [(hf r).2] at this,
    fun r hr hsize => hk.sound _ ((hf r).1.trans hr) (by
      rw [(hf r).2]
      exact hsize)⟩

/-- A report is an error: nothing after it counts as resolved. -/
theorem report_spec (e : ScopeError) : Spec (report e) Γ Γ fun _ => False := by
  refine ⟨fun _ hr => hr, fun r _ => ?_, fun r _ hsize => ?_⟩
  · show r.errors.size ≤ (r.errors.push e).size
    simp
  · change (r.errors.push e).size = r.errors.size at hsize
    simp at hsize

theorem Spec.ite_report {c : Prop} [Decidable c] {e : ScopeError} {k : M α} {Q : α → Prop}
    (hk : Spec k Γ Γ₁ Q) : Spec (if c then report e >>= fun _ => k else k) Γ Γ₁ Q := by
  split
  · exact (report_spec e).bind fun _ => hk.mono fun _ h _ => h
  · exact hk

theorem beginScope_spec (names : Scope) : Spec (beginScope names) Γ (names :: Γ) fun _ => True :=
  ⟨fun _ hr => by subst hr; rfl, fun _ _ => Nat.le_refl _, fun _ _ _ => trivial⟩

theorem endScope_spec : Spec endScope Γ Γ.tail fun _ => True :=
  ⟨fun _ hr => by subst hr; rfl, fun _ _ => Nat.le_refl _, fun _ _ _ => trivial⟩

theorem resolveLocal_spec (name : Token) :
    Spec (resolveLocal name) Γ Γ fun d => d = depthIn name.lexeme Γ 0 := by
  refine ⟨fun r hr => ?_, fun r _ => ?_, fun r hr _ => ?_⟩ <;>
    simp only [resolveLocal, run_bind] <;> split
  · exact hr
  · exact hr
  · exact Nat.le_refl _
  · exact Nat.le_refl _
  · next d hd => subst hr; exact hd.symm
  · next hd => subst hr; exact hd.symm

/-- The scopes after declaring a name: unchanged when the innermost scope declares it already,
which is reported, and otherwise with the name declared incompletely. -/
def declaredScopes (Γ : List Scope) (name : String) : List Scope :=
  match Γ with
  | [] => []
  | sc :: rest => if sc.any (·.1 == name) then sc :: rest else Scope.put sc name false :: rest

theorem declare_spec (name : Token) :
    Spec (declare name) Γ (declaredScopes Γ name.lexeme)
      fun _ => declaredScopes Γ name.lexeme = putInnermost Γ name.lexeme false := by
  unfold declare
  refine Spec.get_bind fun r hr => ?_
  rw [hr]
  cases Γ with
  | nil => exact Spec.pure rfl
  | cons sc rest =>
    by_cases h : sc.any (·.1 == name.lexeme) = true
    · simp only [h, if_true, declaredScopes]
      exact (report_spec _).mono fun _ hf => hf.elim
    · simp only [h, Bool.false_eq_true, if_false, declaredScopes]
      refine (modify_spec ?_ ?_).mono fun _ _ => rfl <;> intros <;> rfl

theorem define_spec (name : Token) :
    Spec (define name) Γ (putInnermost Γ name.lexeme true) fun _ => True := by
  unfold define
  refine Spec.get_bind fun r hr => ?_
  rw [hr]
  cases Γ with
  | nil => exact Spec.pure trivial
  | cons sc rest => apply modify_spec <;> intros <;> rfl

end Resolver

theorem Scope.put_put (sc : Scope) (name : String) (b c : Bool) :
    Scope.put (Scope.put sc name b) name c = Scope.put sc name c := by
  have hset : ∀ d : Bool, (fun (p : String × Bool) => if p.1 == name then (p.1, d) else (p.1, p.2)) =
      fun p => (p.1, if p.1 = name then d else p.2) := by
    intro d
    funext p
    by_cases h : p.1 = name <;> simp [h]
  cases hany : sc.any (·.1 == name) with
  | true =>
    have hany' : (Scope.put sc name b).any (·.1 == name) = true := by
      rw [Scope.any_eq_isSome_lookup, Scope.lookup_put]; simp
    simp only [Scope.put, hany, if_true] at hany' ⊢
    rw [if_pos hany']
    simp only [hset, List.map_map]
    congr 1
    funext p
    by_cases h : p.1 = name <;> simp [h]
  | false =>
    have hkeep : ∀ p ∈ sc, p.1 ≠ name := by
      intro p hp heq
      have : sc.any (·.1 == name) = true := List.any_eq_true.mpr ⟨p, hp, by simp [heq]⟩
      rw [hany] at this
      exact Bool.false_ne_true this
    have h1 : Scope.put sc name b = sc ++ [(name, b)] := by simp [Scope.put, hany]
    have h2 : Scope.put sc name c = sc ++ [(name, c)] := by simp [Scope.put, hany]
    have hany2 : (sc ++ [(name, b)]).any (·.1 == name) = true := by simp
    rw [h1, h2]
    simp only [Scope.put, hany2, hset, List.map_append, List.map_cons, List.map_nil, if_pos]
    congr 1
    conv => rhs; rw [← List.map_id sc]
    apply List.map_congr_left
    intro p hp
    simp [hkeep p hp]

theorem putInnermost_declaredScopes (Γ : List Scope) (name : String) :
    putInnermost (Resolver.declaredScopes Γ name) name true = putInnermost Γ name true := by
  cases Γ with
  | nil => rfl
  | cons sc rest =>
    by_cases h : sc.any (·.1 == name) = true
    · simp [Resolver.declaredScopes, h, putInnermost]
    · simp [Resolver.declaredScopes, h, putInnermost, Scope.put_put]

/-- What the resolver's scopes satisfy while it resolves an expression: outside the innermost
scope every declaration is complete, `this` is only ever declared complete, and a scope that
declares `super` declares it complete, right outside a scope that declares `this`. -/
structure ScopesSound (Γ : List Scope) : Prop where
  outer : ∀ k, 0 < k → ∀ name b, declaredAt Γ k name = some b → b = true
  this : ∀ k b, declaredAt Γ k "this" = some b → b = true
  super : ∀ k, (declaredAt Γ k "super").isSome →
    declaredAt Γ k "super" = some true ∧ 0 < k ∧ declaredAt Γ (k - 1) "this" = some true

/-- What they satisfy between statements: every declaration is complete, and a scope that
declares `super` sits right outside a scope that declares `this`. -/
structure ScopesSettled (Γ : List Scope) : Prop where
  complete : ∀ k name b, declaredAt Γ k name = some b → b = true
  super : ∀ k, (declaredAt Γ k "super").isSome → 0 < k ∧ (declaredAt Γ (k - 1) "this").isSome

theorem ScopesSettled.isSome_eq {Γ : List Scope} (h : ScopesSettled Γ) {k : Nat} {name : String}
    (hk : (declaredAt Γ k name).isSome) : declaredAt Γ k name = some true := by
  obtain ⟨b, hb⟩ := Option.isSome_iff_exists.mp hk
  rw [hb, h.complete k name b hb]

theorem ScopesSettled.sound {Γ : List Scope} (h : ScopesSettled Γ) : ScopesSound Γ where
  outer k _ name b hb := h.complete k name b hb
  this k b hb := h.complete k "this" b hb
  super k hk := by
    obtain ⟨hpos, hthis⟩ := h.super k hk
    exact ⟨h.isSome_eq hk, hpos, h.isSome_eq hthis⟩

theorem ScopesSettled.nil : ScopesSettled [] := ⟨fun _ _ _ h => by simp at h, fun _ h => by simp at h⟩

/-- While a variable's initializer is resolved, its name is declared incompletely. -/
theorem ScopesSettled.declare {Γ : List Scope} (h : ScopesSettled Γ) {name : String}
    (hthis : name ≠ "this") (hsuper : name ≠ "super") :
    ScopesSound (putInnermost Γ name false) := by
  have hkeep : ∀ k key, key ≠ name → declaredAt (putInnermost Γ name false) k key = declaredAt Γ k key := by
    intro k key hne
    simp [declaredAt_putInnermost, hne]
  refine ⟨fun k hk key b hb => ?_, fun k b hb => ?_, fun k hk => ?_⟩
  · rw [declaredAt_putInnermost, if_neg (by omega)] at hb
    exact h.complete k key b hb
  · rw [hkeep k _ (Ne.symm hthis)] at hb
    exact h.complete k _ b hb
  · rw [hkeep k _ (Ne.symm hsuper)] at hk ⊢
    rw [hkeep (k - 1) _ (Ne.symm hthis)]
    exact h.sound.super k hk

/-- Declaring a name other than `super` completely keeps the scopes settled. -/
theorem ScopesSettled.complete_name {Γ : List Scope} (h : ScopesSettled Γ) {name : String}
    (hsuper : name ≠ "super") : ScopesSettled (putInnermost Γ name true) := by
  refine ⟨fun k key b hb => ?_, fun k hk => ?_⟩
  · rw [declaredAt_putInnermost] at hb
    split at hb
    · exact (Option.some.inj hb).symm
    · exact h.complete k key b hb
  · rw [declaredAt_putInnermost, if_neg (by simp [Ne.symm hsuper])] at hk
    obtain ⟨hpos, hthis⟩ := h.super k hk
    refine ⟨hpos, ?_⟩
    rw [declaredAt_putInnermost]
    split
    · rfl
    · exact hthis

/-- A scope with only complete declarations and no `super`, opened inside settled scopes. -/
theorem ScopesSettled.push {Γ : List Scope} (h : ScopesSettled Γ) {sc : Scope}
    (hcomplete : ∀ name b, sc.lookup name = some b → b = true) (hsuper : sc.lookup "super" = none) :
    ScopesSettled (sc :: Γ) := by
  refine ⟨fun k key b hb => ?_, fun k hk => ?_⟩
  · cases k with
    | zero => exact hcomplete key b hb
    | succ k => exact h.complete k key b hb
  · cases k with
    | zero => simp [hsuper] at hk
    | succ k =>
      obtain ⟨hpos, hthis⟩ := h.super k hk
      refine ⟨Nat.succ_pos k, ?_⟩
      obtain ⟨j, rfl⟩ := Nat.exists_eq_add_of_lt hpos
      simpa using hthis

theorem ScopesSettled.pushEmpty {Γ : List Scope} (h : ScopesSettled Γ) : ScopesSettled ([] :: Γ) :=
  h.push (fun _ _ hb => nomatch hb) rfl

theorem paramScope_lookup (params : List Token) (name : String) :
    (paramScope params).lookup name = if name ∈ params.map (·.lexeme) then some true else none := by
  suffices h : ∀ sc : Scope, (params.foldl (fun sc p => Scope.put sc p.lexeme true) sc).lookup name =
      if name ∈ params.map (·.lexeme) then some true else sc.lookup name by
    simpa [paramScope] using h []
  induction params with
  | nil => intro sc; simp
  | cons p rest ih =>
    intro sc
    rw [List.foldl_cons, ih, Scope.lookup_put]
    by_cases h : name = p.lexeme <;> by_cases hr : name ∈ rest.map (·.lexeme) <;> simp [h, hr]

theorem ScopesSettled.params {Γ : List Scope} (h : ScopesSettled Γ) {params : List Token}
    (hparams : ∀ p ∈ params, p.Declarable) : ScopesSettled (paramScope params :: Γ) := by
  refine h.push (fun name b hb => ?_) ?_
  · rw [paramScope_lookup] at hb
    split at hb
    · exact (Option.some.inj hb).symm
    · cases hb
  · rw [paramScope_lookup, if_neg]
    simp only [List.mem_map, not_exists, not_and]
    exact fun p hp heq => (hparams p hp).2 heq

theorem lookup_singleton (k key : String) (b : Bool) :
    List.lookup key [(k, b)] = if key = k then some b else none := by
  by_cases h : key = k
  · simp [h]
  · have hb : (key == k) = false := by simpa using h
    simp [h, List.lookup_cons, hb]

theorem ScopesSettled.methodScopes {Γ : List Scope} (h : ScopesSettled Γ) {name : String}
    (hsuper : name ≠ "super") (hasSuper : Bool) :
    ScopesSettled (methodScopes Γ name hasSuper) := by
  have hout := h.complete_name hsuper
  have hsingle : ∀ (k key : String) (b : Bool), List.lookup key [(k, true)] = some b → b = true := by
    intro k key b hb
    rw [lookup_singleton] at hb
    split at hb
    · exact (Option.some.inj hb).symm
    · cases hb
  cases hasSuper with
  | false => exact hout.push (hsingle "this") (by simp [lookup_singleton])
  | true =>
    refine ⟨fun k key b hb => ?_, fun k hk => ?_⟩
    · match k with
      | 0 => exact hsingle "this" key b hb
      | 1 => exact hsingle "super" key b hb
      | k + 2 => exact hout.complete k key b hb
    · match k with
      | 0 => simp [Lox.methodScopes, lookup_singleton] at hk
      | 1 => exact ⟨Nat.one_pos, by simp [Lox.methodScopes]⟩
      | k + 2 =>
        obtain ⟨hpos, hthis⟩ := hout.super k hk
        obtain ⟨j, rfl⟩ := Nat.exists_eq_add_of_lt hpos
        exact ⟨by omega, by simpa [Lox.methodScopes] using hthis⟩

/-- A variable read that is not in its own initializer finds a complete declaration. -/
theorem ScopesSound.var {Γ : List Scope} (hΓ : ScopesSound Γ) (name : String)
    (hown : ∀ sc rest, Γ = sc :: rest → sc.lookup name ≠ some false) :
    Refers Γ name (depthIn name Γ 0) ∧ ∀ k ∈ depthIn name Γ 0, declaredAt Γ k name = some true := by
  have hrefers := (depthIn_refers name Γ 0).2
  refine ⟨hrefers, fun k hk => ?_⟩
  rw [Option.mem_def] at hk
  rw [hk] at hrefers
  obtain ⟨b, hb⟩ := Option.isSome_iff_exists.mp hrefers.1
  rw [hb]
  cases k with
  | zero =>
    cases Γ with
    | nil => simp at hb
    | cons sc rest =>
      cases b with
      | false => exact absurd hb (hown sc rest rfl)
      | true => rfl
  | succ k => rw [hΓ.outer (k + 1) (Nat.succ_pos k) name b hb]

theorem ScopesSound.thisRef {Γ : List Scope} (hΓ : ScopesSound Γ) :
    ∀ k ∈ depthIn "this" Γ 0, declaredAt Γ k "this" = some true := by
  intro k hk
  have hrefers := (depthIn_refers "this" Γ 0).2
  rw [Option.mem_def] at hk
  rw [hk] at hrefers
  obtain ⟨b, hb⟩ := Option.isSome_iff_exists.mp hrefers.1
  rw [hb, hΓ.this k b hb]

/-- `super` is found complete, right outside a complete `this`. -/
theorem ScopesSound.superMethod {Γ : List Scope} (hΓ : ScopesSound Γ) :
    ∀ k ∈ depthIn "super" Γ 0,
      declaredAt Γ k "super" = some true ∧ 0 < k ∧ declaredAt Γ (k - 1) "this" = some true := by
  intro k hk
  have hrefers := (depthIn_refers "super" Γ 0).2
  rw [Option.mem_def] at hk
  rw [hk] at hrefers
  exact hΓ.super k hrefers.1

namespace Resolver

theorem mapM_attach_resolveExpr (args : List Expr) :
    (args.attach.mapM fun x => resolveExpr x.val) = args.mapM resolveExpr := by
  rw [List.mapM_subtype (g := resolveExpr) (fun _ _ => rfl), List.unattach_attach]

mutual

/-- Resolving an expression keeps the scopes, and what it resolves without an error is resolved
in them. -/
theorem resolveExpr_spec : ∀ (e : Expr) {Γ : List Scope}, ScopesSound Γ → e.Shaped →
    Spec (resolveExpr e) Γ Γ (·.ResolvedIn Γ)
  | .literal _, _, _, _ => by
    rw [resolveExpr]
    exact Spec.pure trivial
  | .grouping e, _, hΓ, hs => by
    rw [resolveExpr]
    exact (resolveExpr_spec e hΓ hs).bind fun _ => Spec.pure id
  | .var n _, Γ, hΓ, _ => by
    rw [resolveExpr]
    refine Spec.get_bind fun r hr => ?_
    have hvar := hΓ.var n.lexeme
    rw [hr]
    cases Γ with
    | nil =>
      exact (resolveLocal_spec n).bind fun d => Spec.pure fun hd => hd ▸ hvar (by simp)
    | cons sc rest =>
      by_cases hown : (sc.lookup n.lexeme == some false) = true
      · simp only [hown, if_true]
        exact (report_spec _).bind fun _ =>
          (resolveLocal_spec n).bind fun _ => Spec.pure fun _ hf => hf.elim
      · simp only [hown, Bool.false_eq_true, if_false]
        have hne : sc.lookup n.lexeme ≠ some false := by simpa using hown
        exact (resolveLocal_spec n).bind fun d => Spec.pure fun hd =>
          hd ▸ hvar fun sc' rest' heq => by cases heq; exact hne
  | .assign n v _, _, hΓ, hs => by
    rw [resolveExpr]
    exact (resolveExpr_spec v hΓ hs).bind fun _ => (resolveLocal_spec n).bind fun _ =>
      Spec.pure fun hd hv => ⟨hd ▸ (depthIn_refers _ _ 0).2, hv⟩
  | .unary _ e, _, hΓ, hs => by
    rw [resolveExpr]
    exact (resolveExpr_spec e hΓ hs).bind fun _ => Spec.pure id
  | .binary l _ r, _, hΓ, hs => by
    rw [resolveExpr]
    exact (resolveExpr_spec l hΓ hs.1).bind fun _ => (resolveExpr_spec r hΓ hs.2).bind fun _ =>
      Spec.pure fun hr hl => ⟨hl, hr⟩
  | .logical l _ r, _, hΓ, hs => by
    rw [resolveExpr]
    exact (resolveExpr_spec l hΓ hs.1).bind fun _ => (resolveExpr_spec r hΓ hs.2).bind fun _ =>
      Spec.pure fun hr hl => ⟨hl, hr⟩
  | .call c _ args, _, hΓ, hs => by
    rw [resolveExpr, mapM_attach_resolveExpr]
    exact (resolveExpr_spec c hΓ hs.1).bind fun _ => (resolveExprs_spec args hΓ hs.2).bind fun _ =>
      Spec.pure fun ha hc => ⟨hc, ha⟩
  | .get o _, _, hΓ, hs => by
    rw [resolveExpr]
    exact (resolveExpr_spec o hΓ hs).bind fun _ => Spec.pure id
  | .set o _ v, _, hΓ, hs => by
    rw [resolveExpr]
    exact (resolveExpr_spec v hΓ hs.2).bind fun _ => (resolveExpr_spec o hΓ hs.1).bind fun _ =>
      Spec.pure fun ho hv => ⟨ho, hv⟩
  | .thisRef k _, Γ, hΓ, hs => by
    rw [resolveExpr]
    refine Spec.get_bind fun r _ => ?_
    split
    · exact (report_spec _).bind fun _ => Spec.pure fun hf => hf.elim
    · have hk : k.lexeme = "this" := hs
      exact (resolveLocal_spec k).bind fun d => Spec.pure fun hd =>
        ⟨hd ▸ (depthIn_refers _ _ 0).2, by rw [hd, hk]; exact hΓ.thisRef⟩
  | .superMethod k m _, Γ, hΓ, hs => by
    rw [resolveExpr]
    have hk : k.lexeme = "super" := hs
    have hlocal : Spec (resolveLocal k) Γ Γ fun d => (Expr.superMethod k m d).ResolvedIn Γ :=
      (resolveLocal_spec k).mono fun d hd =>
        ⟨hd ▸ (depthIn_refers _ _ 0).2, by rw [hd, hk]; exact hΓ.superMethod⟩
    refine Spec.get_bind fun r _ => ?_
    dsimp only
    split
    · exact (report_spec _).bind fun _ => (resolveLocal_spec k).bind fun _ =>
        Spec.pure fun _ hf => hf.elim
    · split
      · exact (report_spec _).bind fun _ => (resolveLocal_spec k).bind fun _ =>
          Spec.pure fun _ hf => hf.elim
      · exact hlocal.bind fun _ => Spec.pure id

theorem resolveExprs_spec : ∀ (es : List Expr) {Γ : List Scope}, ScopesSound Γ →
    Expr.AllShaped es → Spec (es.mapM resolveExpr) Γ Γ (Expr.AllResolvedIn Γ)
  | [], _, _, _ => by
    rw [List.mapM_nil]
    exact Spec.pure trivial
  | e :: rest, _, hΓ, hs => by
    rw [List.mapM_cons]
    exact (resolveExpr_spec e hΓ hs.1).bind fun _ => (resolveExprs_spec rest hΓ hs.2).bind fun _ =>
      Spec.pure fun hr he => ⟨he, hr⟩

end

end Resolver

theorem Stmt.after_of_declared_none {s : Stmt} (h : s.declared? = none) (Γ : List Scope) :
    s.after Γ = Γ := by
  simp [Stmt.after, h]

theorem Stmt.after_congr {s s' : Stmt} (h : s'.declared? = s.declared?) (Γ : List Scope) :
    s'.after Γ = s.after Γ := by
  simp [Stmt.after, h]

/-- The scopes after statements one after another. -/
def Stmt.afterList (ss : List Stmt) (Γ : List Scope) : List Scope :=
  ss.foldl (fun Γ s => s.after Γ) Γ

theorem putInnermost_tail (Γ : List Scope) (name : String) (done : Bool) :
    (putInnermost Γ name done).tail = Γ.tail := by
  cases Γ <;> rfl

theorem Stmt.afterList_tail (ss : List Stmt) (Γ : List Scope) :
    (Stmt.afterList ss Γ).tail = Γ.tail := by
  induction ss generalizing Γ with
  | nil => rfl
  | cons s rest ih =>
    simp only [Stmt.afterList, List.foldl_cons] at ih ⊢
    rw [ih]
    unfold Stmt.after
    split
    · exact putInnermost_tail _ _ _
    · rfl

theorem FunDecl.Shaped.name {f : FunDecl} (h : f.Shaped) : f.name.Declarable := by
  cases f with
  | mk n ps b => exact h.1

/-- A statement's declaration keeps settled scopes settled. -/
theorem ScopesSettled.after {Γ : List Scope} (h : ScopesSettled Γ) {s : Stmt} (hs : s.Shaped) :
    ScopesSettled (s.after Γ) := by
  have hname : ∀ n, s.declared? = some n → n.lexeme ≠ "super" := by
    intro n hn
    cases s <;> simp only [Stmt.declared?, Option.some.injEq, reduceCtorEq] at hn <;> subst hn
    · exact hs.1.2
    · exact (FunDecl.Shaped.name hs).2
    · exact hs.1.2
  unfold Stmt.after
  split
  · next n hn => exact h.complete_name (hname n hn)
  · exact h

theorem ScopesSettled.afterList {Γ : List Scope} (h : ScopesSettled Γ) {ss : List Stmt}
    (hs : Stmt.AllShaped ss) : ScopesSettled (Stmt.afterList ss Γ) := by
  induction ss generalizing Γ with
  | nil => exact h
  | cons s rest ih => exact ih (h.after hs.1) hs.2

theorem ScopesSettled.declaredScopes {Γ : List Scope} (h : ScopesSettled Γ) {name : String}
    (hthis : name ≠ "this") (hsuper : name ≠ "super") :
    ScopesSound (Resolver.declaredScopes Γ name) := by
  cases Γ with
  | nil => exact h.sound
  | cons sc rest =>
    by_cases hany : sc.any (·.1 == name) = true
    · simp only [Resolver.declaredScopes, hany, if_true]
      exact h.sound
    · simp only [Resolver.declaredScopes, hany, Bool.false_eq_true, if_false]
      exact h.declare hthis hsuper

theorem Expr.resolvedIn_var_of_putInnermost {Γ : List Scope} {tok : Token} {d : Option Nat}
    {name : String} {done : Bool} (hne : tok.lexeme ≠ name)
    (h : (Expr.var tok d).ResolvedIn (putInnermost Γ name done)) : (Expr.var tok d).ResolvedIn Γ := by
  have hsame : ∀ k, declaredAt (putInnermost Γ name done) k tok.lexeme = declaredAt Γ k tok.lexeme := by
    intro k
    simp [declaredAt_putInnermost, hne]
  obtain ⟨hrefers, hcomplete⟩ := h
  refine ⟨?_, fun k hk => (hsame k).symm.trans (hcomplete k hk)⟩
  cases d with
  | none => exact fun k => (hsame k).symm.trans (hrefers k)
  | some k =>
    exact ⟨(hsame k) ▸ hrefers.1, fun j hj => (hsame j).symm.trans (hrefers.2 j hj)⟩

namespace Resolver

variable {α : Type} {Γ Γ₁ : List Scope}

theorem Spec.and {x : M α} {P Q : α → Prop} (hP : Spec x Γ Γ₁ P) (hQ : Spec x Γ Γ₁ Q) :
    Spec x Γ Γ₁ fun a => P a ∧ Q a :=
  ⟨hP.scopes, hP.errors, fun r hr hsize => ⟨hP.sound r hr hsize, hQ.sound r hr hsize⟩⟩

theorem resolveExpr_var_form (m : Token) (d : Option Nat) :
    Spec (resolveExpr (.var m d)) Γ Γ fun e => ∃ d', e = .var m d' := by
  rw [resolveExpr]
  refine Spec.get_bind fun r hr => ?_
  rw [hr]
  have hlocal : Spec (resolveLocal m >>= fun d' => (pure (Expr.var m d') : M Expr)) Γ Γ
      fun e => ∃ d', e = .var m d' :=
    (resolveLocal_spec m).bind fun d' => Spec.pure fun _ => ⟨d', rfl⟩
  cases Γ with
  | nil => exact hlocal
  | cons sc rest =>
    dsimp only
    split
    · exact (report_spec _).bind fun _ => hlocal.mono fun _ h _ => h
    · exact hlocal

/-- The check that a class does not inherit from itself. -/
def selfCheck (name : Token) (s : Expr) : M Unit :=
  match nameOf? s with
  | some n => if n.lexeme == name.lexeme then report (.selfInheritance n) else pure ()
  | none => pure ()

theorem selfCheck_spec (name m : Token) (d : Option Nat) :
    Spec (selfCheck name (.var m d)) Γ Γ fun _ => m.lexeme ≠ name.lexeme := by
  simp only [selfCheck, nameOf?]
  split
  · exact (report_spec _).mono fun _ hf => hf.elim
  · next h => exact Spec.pure (by simpa using h)

theorem resolveStmt_classDecl_some (n : Token) (s : Expr) (ms : List FunDecl) :
    resolveStmt (.classDecl n (some s) ms) = (do
      let saved := (← get).klass
      modify fun r => { r with klass := .plain }
      declare n
      define n
      selfCheck n s
      modify fun r => { r with klass := .subclass }
      let s ← resolveExpr s
      beginScope [("super", true)]
      beginScope [("this", true)]
      let methods ← resolveMethods ms
      endScope
      endScope
      modify fun r => { r with klass := saved }
      return .classDecl n (some s) methods) := by
  rw [resolveStmt]
  simp only [selfCheck]
  cases nameOf? s with
  | none => rfl
  | some m =>
    by_cases h : (m.lexeme == n.lexeme) = true
    · simp only [h, if_true]
      rfl
    · simp only [h]
      rfl

theorem resolveStmt_classDecl_none (n : Token) (ms : List FunDecl) :
    resolveStmt (.classDecl n none ms) = (do
      let saved := (← get).klass
      modify fun r => { r with klass := .plain }
      declare n
      define n
      beginScope [("this", true)]
      let methods ← resolveMethods ms
      endScope
      modify fun r => { r with klass := saved }
      return .classDecl n none methods) := by
  rw [resolveStmt]
  rfl

theorem withFunction_spec {x : M α} {P : α → Prop} (kind : FunctionKind) (hx : Spec x Γ Γ₁ P) :
    Spec (withFunction kind x) Γ Γ₁ P := by
  unfold withFunction
  refine Spec.get_bind fun r _ => ?_
  dsimp only
  refine Spec.modify_bind (fun _ => ⟨rfl, rfl⟩) (hx.bind fun _ => ?_)
  exact Spec.modify_bind (fun _ => ⟨rfl, rfl⟩) (Spec.pure id)

theorem params_spec (params : List Token) (sc : Scope) :
    Spec (forIn params PUnit.unit fun p _ => do
        declare p
        define p
        pure (ForInStep.yield PUnit.unit))
      (sc :: Γ) (params.foldl (fun sc p => Scope.put sc p.lexeme true) sc :: Γ) fun _ => True := by
  induction params generalizing sc with
  | nil => exact Spec.pure trivial
  | cons p rest ih =>
    simp only [List.forIn_cons, bind_assoc, pure_bind, List.foldl_cons]
    exact (declare_spec p).bind fun _ =>
      ((define_spec p).of_scopes_eq (putInnermost_declaredScopes _ _)).bind fun _ =>
        (ih _).mono fun _ _ _ _ => trivial

end Resolver

namespace Resolver

mutual

/-- Resolving a statement leaves the scopes its declaration makes, and what it resolves without
an error is resolved in the scopes it started from and declares the same name. -/
theorem resolveStmt_spec : ∀ (s : Stmt) {Γ : List Scope}, ScopesSettled Γ → s.Shaped →
    Spec (resolveStmt s) Γ (s.after Γ) fun s' => s'.ResolvedIn Γ ∧ s'.declared? = s.declared?
  | .expr e, _, hΓ, hs => by
    rw [resolveStmt]
    exact (resolveExpr_spec e hΓ.sound hs).bind fun _ => Spec.pure fun he => ⟨he, rfl⟩
  | .print e, _, hΓ, hs => by
    rw [resolveStmt]
    exact (resolveExpr_spec e hΓ.sound hs).bind fun _ => Spec.pure fun he => ⟨he, rfl⟩
  | .varDecl n i, Γ, hΓ, hs => by
    obtain ⟨hn, hi⟩ := hs
    have hsound := hΓ.declaredScopes hn.1 hn.2
    have hdefine := (define_spec (Γ := declaredScopes Γ n.lexeme) n).of_scopes_eq
      (putInnermost_declaredScopes _ _)
    rw [resolveStmt]
    refine (declare_spec n).bind fun _ => ?_
    cases i with
    | none => exact hdefine.bind fun _ => Spec.pure fun _ _ => ⟨fun _ h => (nomatch h), rfl⟩
    | some e =>
      exact (resolveExpr_spec e hsound (hi e rfl)).map.bind fun _ => hdefine.bind fun _ =>
        Spec.pure fun _ ⟨e', he', hinit⟩ hdecl =>
          ⟨fun x hx => by
            rw [hinit] at hx
            cases hx
            rw [← hdecl]
            exact he', rfl⟩
  | .block b, Γ, hΓ, hs => by
    rw [resolveStmt]
    have hbody := resolveStmts_spec b hΓ.pushEmpty hs
    exact (beginScope_spec []).bind fun _ => hbody.bind fun _ =>
      (endScope_spec.of_scopes_eq (Stmt.afterList_tail b ([] :: Γ))).bind fun _ =>
        Spec.pure fun _ hb _ => ⟨hb, rfl⟩
  | .ifElse c t e, Γ, hΓ, hs => by
    rw [resolveStmt]
    cases e with
    | none =>
      obtain ⟨hc, ht, htd, -⟩ : c.Shaped ∧ t.Shaped ∧ t.declared? = none ∧ True := hs
      have hthen := (resolveStmt_spec t hΓ ht).of_scopes_eq (Stmt.after_of_declared_none htd Γ)
      exact (resolveExpr_spec c hΓ.sound hc).bind fun _ => hthen.bind fun _ =>
        Spec.pure fun ⟨ht', htd'⟩ hc' => ⟨⟨hc', ht', htd'.trans htd, trivial⟩, rfl⟩
    | some e =>
      obtain ⟨hc, ht, htd, he, hed⟩ : c.Shaped ∧ t.Shaped ∧ t.declared? = none ∧ e.Shaped ∧
        e.declared? = none := hs
      have hthen := (resolveStmt_spec t hΓ ht).of_scopes_eq (Stmt.after_of_declared_none htd Γ)
      have helse := (resolveStmt_spec e hΓ he).of_scopes_eq (Stmt.after_of_declared_none hed Γ)
      exact (resolveExpr_spec c hΓ.sound hc).bind fun _ => hthen.bind fun _ =>
        helse.bind fun _ => Spec.pure fun ⟨he', hed'⟩ ⟨ht', htd'⟩ hc' =>
          ⟨⟨hc', ht', htd'.trans htd, he', hed'.trans hed⟩, rfl⟩
  | .whileLoop c b, Γ, hΓ, hs => by
    obtain ⟨hc, hb, hbd⟩ : c.Shaped ∧ b.Shaped ∧ b.declared? = none := hs
    rw [resolveStmt]
    have hbody := (resolveStmt_spec b hΓ hb).of_scopes_eq (Stmt.after_of_declared_none hbd Γ)
    exact (resolveExpr_spec c hΓ.sound hc).bind fun _ => hbody.bind fun _ =>
      Spec.pure fun ⟨hb', hbd'⟩ hc' => ⟨⟨hc', hb', hbd'.trans hbd⟩, rfl⟩
  | .funDecl f, Γ, hΓ, hs => by
    rw [resolveStmt]
    have hname := FunDecl.Shaped.name hs
    exact (declare_spec f.name).bind fun _ =>
      ((define_spec f.name).of_scopes_eq (putInnermost_declaredScopes _ _)).bind fun _ =>
        (resolveFunction_spec f .function (hΓ.complete_name hname.2) hs).bind fun _ =>
          Spec.pure fun ⟨hf, hname'⟩ _ _ =>
            ⟨show FunDecl.ResolvedIn _ _ by rw [hname']; exact hf, by simp [Stmt.declared?, hname']⟩
  | .returnStmt k v, Γ, hΓ, hs => by
    rw [resolveStmt]
    refine Spec.get_bind fun r _ => ?_
    dsimp only
    refine Spec.ite_report ?_
    cases v with
    | none => exact Spec.pure ⟨fun _ h => (nomatch h), rfl⟩
    | some e =>
      dsimp only
      refine Spec.ite_report ?_
      exact (resolveExpr_spec e hΓ.sound (hs e rfl)).bind fun _ =>
        Spec.pure fun he => ⟨fun x hx => by cases hx; exact he, rfl⟩
  | .classDecl n sup ms, Γ, hΓ, hs => by
    obtain ⟨hn, hsup, hms⟩ := hs
    have hout := hΓ.complete_name hn.2
    cases sup with
    | none =>
      rw [resolveStmt_classDecl_none]
      refine Spec.get_bind fun r _ => ?_
      dsimp only
      refine Spec.modify_bind (fun _ => ⟨rfl, rfl⟩) ?_
      exact (declare_spec n).bind fun _ =>
        ((define_spec n).of_scopes_eq (putInnermost_declaredScopes _ _)).bind fun _ =>
          (beginScope_spec _).bind fun _ =>
            (resolveMethods_spec ms (hΓ.methodScopes hn.2 false) hms).bind fun _ =>
              endScope_spec.bind fun _ => Spec.modify_bind (fun _ => ⟨rfl, rfl⟩)
                (Spec.pure fun _ hms' _ _ _ => ⟨⟨fun _ h => (nomatch h), hms'⟩, rfl⟩)
    | some s =>
      obtain ⟨m, rfl⟩ := hsup s rfl
      rw [resolveStmt_classDecl_some]
      refine Spec.get_bind fun r _ => ?_
      dsimp only
      refine Spec.modify_bind (fun _ => ⟨rfl, rfl⟩) ?_
      exact (declare_spec n).bind fun _ =>
        ((define_spec n).of_scopes_eq (putInnermost_declaredScopes _ _)).bind fun _ =>
          (selfCheck_spec n m none).bind fun _ => Spec.modify_bind (fun _ => ⟨rfl, rfl⟩) <|
            ((resolveExpr_spec (.var m none) hout.sound trivial).and (resolveExpr_var_form m none)).bind
              fun _ => (beginScope_spec _).bind fun _ => (beginScope_spec _).bind fun _ =>
                (resolveMethods_spec ms (hΓ.methodScopes hn.2 true) hms).bind fun _ =>
                  endScope_spec.bind fun _ => endScope_spec.bind fun _ =>
                    Spec.modify_bind (fun _ => ⟨rfl, rfl⟩) <| Spec.pure
                      fun _ _ hms' _ _ ⟨hs', d', hd'⟩ hne _ _ =>
                        ⟨⟨fun x hx => by
                            cases hx
                            rw [hd'] at hs' ⊢
                            exact Expr.resolvedIn_var_of_putInnermost hne hs', hms'⟩, rfl⟩

/-- Resolving statements one after another. -/
theorem resolveStmts_spec : ∀ (ss : List Stmt) {Γ : List Scope}, ScopesSettled Γ →
    Stmt.AllShaped ss → Spec (resolveStmts ss) Γ (Stmt.afterList ss Γ) (Stmt.ListResolvedIn Γ)
  | [], _, _, _ => by
    rw [resolveStmts]
    exact Spec.pure trivial
  | s :: rest, Γ, hΓ, hs => by
    rw [resolveStmts]
    exact (resolveStmt_spec s hΓ hs.1).bind fun _ =>
      (resolveStmts_spec rest (hΓ.after hs.1) hs.2).bind fun _ =>
        Spec.pure fun hrest ⟨hs', hdecl⟩ => ⟨hs', by rw [Stmt.after_congr hdecl]; exact hrest⟩

/-- Resolving a function keeps the scopes, and resolves its body in the scope of its
parameters. -/
theorem resolveFunction_spec : ∀ (f : FunDecl) (kind : FunctionKind) {Γ : List Scope},
    ScopesSettled Γ → f.Shaped →
    Spec (resolveFunction f kind) Γ Γ fun f' => f'.ResolvedIn Γ ∧ f'.name = f.name
  | .mk n ps b, kind, Γ, hΓ, hs => by
    obtain ⟨_, hps, hb⟩ := hs
    rw [resolveFunction]
    refine withFunction_spec kind ?_
    have hbody := resolveStmts_spec b (hΓ.params hps) hb
    exact (beginScope_spec []).bind fun _ => (params_spec ps []).bind fun _ => hbody.bind fun _ =>
      (endScope_spec.of_scopes_eq (Stmt.afterList_tail b _)).bind fun _ =>
        Spec.pure fun _ hb' _ _ => ⟨hb', rfl⟩

theorem resolveMethods_spec : ∀ (fs : List FunDecl) {Γ : List Scope}, ScopesSettled Γ →
    FunDecl.AllShaped fs → Spec (resolveMethods fs) Γ Γ (FunDecl.AllResolvedIn Γ)
  | [], _, _, _ => by
    rw [resolveMethods]
    exact Spec.pure trivial
  | f :: rest, Γ, hΓ, hs => by
    rw [resolveMethods]
    exact (resolveFunction_spec f _ hΓ hs.1).bind fun _ =>
      (resolveMethods_spec rest hΓ hs.2).bind fun _ => Spec.pure fun hrest ⟨hf, _⟩ => ⟨hf, hrest⟩

end

end Resolver

/-- A program resolved without an error has every reference resolved: each points to the
innermost scope declaring its name, or to the globals when no scope does, and each read finds
a complete declaration there. -/
theorem Program.resolve_resolvedIn {p : Program} (hp : Stmt.AllShaped p)
    (h : p.resolve.errors = []) : Stmt.ListResolvedIn [] p.resolve.program := by
  have hspec := Resolver.resolveStmts_spec p ScopesSettled.nil hp
  rcases hrun : (Resolver.resolveStmts p).run {} with ⟨p', r⟩
  have hnone : r.errors.size = 0 := by
    simp only [Program.resolve, hrun] at h
    simpa using congrArg List.length h
  have hsound := hspec.sound {} rfl (by rw [hrun]; exact hnone)
  rw [hrun] at hsound
  simpa [Program.resolve, hrun] using hsound

end Lox
