import Lox.Proofs.Receivers

/-!
# Declarations stay in the frame they run in

The evaluator passes the frame it runs in down as an argument and never stores it, so a block, a
call or a class body that ends, by finishing, by returning or by failing, leaves the code around
it in the frame it had; `Run.program` runs each top-level statement in the globals. What can be
seen of that is the globals frame: running resolved code, it only gains the names that statements
run in the globals declare, whichever way each statement ends (`Run.confinedAt`). A block and a
call run their statements in a frame made for them, which is nested in another and so is never
the globals of a rooted store (`Store.Rooted`); an assignment by depth stands for a local scope,
whose frame is nested in another too (`Store.Realizes.ancestor_ne_globals`); and an assignment
among the globals only changes a name they bind already. So nothing declared inside a block, a
function or a class body lands in the globals, and a session running line after line adds to
its globals only the names its lines declare at top level (`Session.runLines_confined`).
-/

namespace Lox

/-- A statement declares a name: that of its variable, function or class. -/
def Stmt.Declares (st : Stmt) (x : String) : Prop := ∃ n, st.declared? = some n ∧ n.lexeme = x

theorem Stmt.not_declares {st : Stmt} (h : st.declared? = none) (x : String) :
    ¬ st.Declares x := by
  rintro ⟨n, hn, -⟩
  rw [h] at hn
  cases hn

namespace Store

/-- The globals frame exists and is nested in no other frame. -/
structure Rooted (s : Store) : Prop where
  size : globals < s.frames.size
  parent : (s.frame globals).parent = none

/-- The globals of `s'` bind only names those of `s` bind, and names `A` allows. -/
def GlobalsWithin (s s' : Store) (A : String → Prop) : Prop :=
  ∀ x, ((s'.frame globals).slots.lookup x).isSome →
    ((s.frame globals).slots.lookup x).isSome ∨ A x

variable {s s' s₁ s₂ s₃ : Store} {A B : String → Prop}

theorem Rooted.grow (hg : s.Grows s') (h : s.Rooted) : s'.Rooted :=
  ⟨Nat.lt_of_lt_of_le h.size hg.size, (hg.parent globals h.size).trans h.parent⟩

/-- A frame nested in another is not the globals. -/
theorem Rooted.ne_of_parent (h : s.Rooted) {f p : Nat} (hp : (s.frame f).parent = some p) :
    f ≠ globals := by
  rintro rfl
  rw [h.parent] at hp
  cases hp

theorem rooted_initial : Store.initial.Rooted := ⟨Nat.zero_lt_one, rfl⟩

theorem GlobalsWithin.refl (s : Store) (A : String → Prop) : s.GlobalsWithin s A :=
  fun _ h => .inl h

theorem GlobalsWithin.trans (h₁ : s₁.GlobalsWithin s₂ A) (h₂ : s₂.GlobalsWithin s₃ A) :
    s₁.GlobalsWithin s₃ A :=
  fun x hx => (h₂ x hx).elim (h₁ x) .inr

theorem GlobalsWithin.mono (h : s.GlobalsWithin s' A) (hAB : ∀ x, A x → B x) :
    s.GlobalsWithin s' B :=
  fun x hx => (h x hx).imp_right (hAB x)

theorem globalsWithin_of_frames (h : s'.frames = s.frames) : s.GlobalsWithin s' A :=
  fun _ hx => .inl (by simpa [frame, h] using hx)

/-- Binding a name adds it to the globals only where it binds it there anew. -/
theorem globalsWithin_define {f : Nat} {name : String} {v : Value}
    (h : f ≠ globals ∨ ((s.frame f).slots.lookup name).isSome ∨ A name) :
    s.GlobalsWithin (s.define f name v) A := by
  intro x hx
  rw [lookup_define] at hx
  split at hx
  · next hfx =>
    obtain ⟨rfl, -, rfl⟩ := hfx
    rcases h with h | h | h
    · exact absurd rfl h
    · exact .inl h
    · exact .inr h
  · exact .inl hx

theorem binds_define_self {f : Nat} (h : f < s.frames.size) (name : String) (v : Value) :
    (((s.define f name v).frame f).slots.lookup name).isSome := by
  rw [lookup_define, if_pos ⟨rfl, h, rfl⟩]
  rfl

/-- A new frame is never the globals of a rooted store. -/
theorem globalsWithin_pushWith (hs : s.Rooted) (parent : Nat) (slots : List (String × Value)) :
    s.GlobalsWithin (s.pushWith parent slots).2 A := by
  intro x hx
  rw [frame_pushWith_ne s parent slots (Nat.ne_of_lt hs.size)] at hx
  exact .inl hx

/-- The frame `binder` finds binds the name. -/
theorem binder_binds {f b : Nat} {name : String} (h : s.binder f name = some b) :
    ((s.frame b).slots.lookup name).isSome := by
  obtain ⟨p, hp, hname⟩ := List.any_eq_true.mp (binderWith_binds h)
  rw [beq_iff_eq] at hname
  exact List.lookup_isSome_iff.mpr ⟨p, hp, beq_iff_eq.mpr hname.symm⟩

/-- A frame that stands for a local scope is nested in another, so in a rooted store no depth
within the scopes steps out to the globals. -/
theorem Realizes.ancestor_ne_globals (hs : s.Rooted) :
    ∀ {f : Nat} {Γ : List Scope} {d a : Nat}, s.Realizes f Γ → d < Γ.length →
      s.ancestor f d = .ok a → a ≠ globals
  | _, [], _, _, _, hd, _ => absurd hd (Nat.not_lt_zero _)
  | _, _ :: _, 0, _, ⟨_, _, _, hp, _⟩, _, h => by
    cases h
    exact hs.ne_of_parent hp
  | f, _ :: _, d + 1, a, ⟨_, _, p, hp, hrest⟩, hd, h => by
    rw [ancestor, hp] at h
    exact Realizes.ancestor_ne_globals hs hrest (Nat.lt_of_succ_lt_succ hd) h

end Store

namespace Run

variable {α β : Type} {P P' : Store → Prop} {A B : String → Prop}

/-- The machine a step ends in, normally or not. -/
def final : EStateM.Result Failure Machine α → Machine
  | .ok _ m => m
  | .error _ m => m

@[simp] theorem final_ok (a : α) (m : Machine) :
    final (.ok a m : EStateM.Result Failure Machine α) = m := rfl

@[simp] theorem final_error (e : Failure) (m : Machine) :
    final (.error e m : EStateM.Result Failure Machine α) = m := rfl

/-- Run from any fitting, rooted machine whose store satisfies `P`, the step ends, normally or
not, with globals that bind only the names they bound before and names `A` allows. -/
def Confined (P : Store → Prop) (x : Run α) (A : String → Prop) : Prop :=
  ∀ m : Machine, m.store.Fits → m.store.Rooted → P m.store →
    m.store.GlobalsWithin (final (x m)).store A

/-- A step that ends with the store it started from. -/
def Reads (x : Run α) : Prop := ∀ m : Machine, (final (x m)).store = m.store

/-- The first step is safe, so the second starts from a fitting, rooted store. -/
theorem Confined.bind {Q : α → Store → Prop} {x : Run α} {f : α → Run β} (hs : Safe P x Q)
    (hx : Confined P x A) (hf : ∀ a, Confined (Q a) (f a) A) : Confined P (x >>= f) A := by
  intro m hfit hroot hP
  have hends := hs m hfit hP
  have hglobals := hx m hfit hroot hP
  rw [run_bind]
  cases hr : x m with
  | ok a m' =>
    rw [hr] at hends hglobals
    exact hglobals.trans (hf a m' hends.2.1 (hroot.grow hends.1) hends.2.2)
  | error e m' =>
    rw [hr] at hglobals
    exact hglobals

/-- What follows a step that only reads adds nothing to the globals. -/
theorem Confined.bind_reads {x : Run α} {f : α → Run β} (hx : Confined P x A)
    (hf : ∀ a, Reads (f a)) : Confined P (x >>= f) A := by
  intro m hfit hroot hP
  have hglobals := hx m hfit hroot hP
  rw [run_bind]
  cases hr : x m with
  | ok a m' =>
    rw [hr] at hglobals
    show m.store.GlobalsWithin (final (f a m')).store A
    rw [hf a m']
    exact hglobals
  | error e m' =>
    rw [hr] at hglobals
    exact hglobals

theorem Confined.of_reads {x : Run α} (h : Reads x) : Confined P x A :=
  fun m _ _ _ => by
    rw [h m]
    exact Store.GlobalsWithin.refl _ _

theorem Confined.mono {x : Run α} (hx : Confined P x A) (h : ∀ x, A x → B x) :
    Confined P x B :=
  fun m hfit hroot hP => (hx m hfit hroot hP).mono h

theorem Confined.weaken {x : Run α} (hx : Confined P x A) (h : ∀ s, P' s → P s) :
    Confined P' x A :=
  fun m hfit hroot hP => hx m hfit hroot (h _ hP)

theorem Confined.pure_bind {a : β} {k : β → Run α} (h : Confined P (k a) A) :
    Confined P (Pure.pure a >>= k) A :=
  h

theorem Confined.fail_bind {err : RuntimeError} {k : β → Run α} :
    Confined P (Run.fail err >>= k) A :=
  Confined.of_reads fun _ => rfl

theorem Confined.ite_fail {c : Prop} [Decidable c] {err : RuntimeError} {k : PUnit → Run α}
    (hk : ¬c → Confined P (k ()) A) : Confined P (if c then Run.fail err >>= k else k ()) A := by
  split
  · exact Confined.fail_bind
  · next hc => exact hk hc

theorem Confined.get_bind_of {f : Machine → Run α}
    (h : ∀ m : Machine, m.store.Fits → P m.store → Confined (fun s => s = m.store) (f m) A) :
    Confined P (get >>= f) A :=
  fun m hfit hroot hP => h m hfit hP m hfit hroot rfl

theorem Confined.modify_bind {g : Machine → Machine} {k : PUnit → Run α}
    (hg : ∀ m, (g m).store = m.store) (hk : Confined P (k ⟨⟩) A) :
    Confined P (modify g >>= k) A := by
  intro m hfit hroot hP
  have h := hk (g m) (by rw [hg]; exact hfit) (by rw [hg]; exact hroot) (by rw [hg]; exact hP)
  rw [hg] at h
  exact h

theorem Confined.note_bind {level : Nat} {line : Unit → String} {k : PUnit → Run α}
    (hk : Confined P (k ⟨⟩) A) : Confined P (note level line >>= k) A :=
  Confined.modify_bind (fun m => by by_cases h : m.level ≥ level <;> simp [h]) hk

theorem Confined.emit_bind {text : String} {k : PUnit → Run α} (hk : Confined P (k ⟨⟩) A) :
    Confined P (emit text >>= k) A :=
  Confined.modify_bind (fun _ => rfl) hk

theorem Confined.change {g : Store → Store}
    (h : ∀ s, s.Fits → s.Rooted → P s → s.GlobalsWithin (g s) A) :
    Confined P (Run.change g) A :=
  fun m hfit hroot hP => h m.store hfit hroot hP

/-- A new frame is never the globals; what runs in it starts from a fitting store. -/
theorem Confined.pushFrame_bind {parent : Nat} {slots : List (String × Value)} {k : Nat → Run α}
    (hslots : ∀ s, P s → ∀ p ∈ slots, p.2.Fits s)
    (hk : ∀ f, Confined (fun s' => ∃ s, P s ∧ f = s.frames.size ∧
      s' = (s.pushWith parent slots).2) (k f) A) :
    Confined P (pushFrame parent slots >>= k) A := by
  intro m hfit hroot hP
  have hgrow := Store.Grows.pushWith m.store parent slots
  exact (Store.globalsWithin_pushWith hroot parent slots).trans
    (hk m.store.frames.size { m with store := (m.store.pushWith parent slots).2 }
      (hfit.pushWith (hslots _ hP)) (hroot.grow hgrow) ⟨m.store, hP, rfl, rfl⟩)

theorem Confined.newObject_bind {k : Nat → Run α}
    (hk : ∀ id, Confined (fun s' => ∃ s, P s ∧ s' = s.newObject.2) (k id) A) :
    Confined P ((modifyGet fun m =>
      let (id, s) := m.store.newObject
      (id, { m with store := s })) >>= k) A := by
  intro m hfit hroot hP
  have hgrow : m.store.Grows m.store.newObject.2 := Store.Grows.of_frames rfl
  exact (Store.globalsWithin_of_frames rfl).trans
    (hk m.store.objects.size { m with store := m.store.newObject.2 } hfit.newObject
      (hroot.grow hgrow) ⟨m.store, hP, rfl⟩)

theorem Confined.lift_bind {e : Except Fault β} {k : β → Run α}
    (hk : ∀ a, e = .ok a → Confined P (k a) A) : Confined P (lift e >>= k) A := by
  cases e with
  | ok a => exact hk a rfl
  | error f => exact Confined.of_reads fun _ => rfl

theorem Reads.pure {a : α} : Reads (Pure.pure a : Run α) := fun _ => rfl

theorem Reads.fail {err : RuntimeError} : Reads (Run.fail err : Run α) := fun _ => rfl

theorem Reads.lift {e : Except Fault α} : Reads (lift e) := by
  cases e <;> exact fun _ => rfl

theorem Reads.bind {x : Run β} {f : β → Run α} (hx : Reads x) (hf : ∀ a, Reads (f a)) :
    Reads (x >>= f) := by
  intro m
  have hxm := hx m
  rw [run_bind]
  cases hr : x m with
  | ok a m' =>
    rw [hr] at hxm
    exact (hf a m').trans hxm
  | error e m' =>
    rw [hr] at hxm
    exact hxm

theorem Reads.get_bind {f : Machine → Run α} (hf : ∀ m, Reads (f m)) : Reads (get >>= f) :=
  fun m => hf m m

theorem Reads.modify_bind {g : Machine → Machine} {k : PUnit → Run α}
    (hg : ∀ m, (g m).store = m.store) (hk : Reads (k ⟨⟩)) : Reads (modify g >>= k) := by
  intro m
  show (final (k ⟨⟩ (g m))).store = m.store
  rw [hk, hg]

theorem Reads.note_bind {level : Nat} {line : Unit → String} {k : PUnit → Run α}
    (hk : Reads (k ⟨⟩)) : Reads (note level line >>= k) :=
  Reads.modify_bind (fun m => by by_cases h : m.level ≥ level <;> simp [h]) hk

theorem Reads.emit_bind {text : String} {k : PUnit → Run α} (hk : Reads (k ⟨⟩)) :
    Reads (emit text >>= k) :=
  Reads.modify_bind (fun _ => rfl) hk

theorem lookUp_reads (name : Token) (d : Option Nat) (env : Nat) : Reads (lookUp name d env) := by
  unfold lookUp
  refine Reads.get_bind fun m => ?_
  cases d with
  | some k => exact Reads.lift
  | none =>
    dsimp only
    split
    · exact Reads.pure
    · exact Reads.fail

/-- An assignment changes a binding the globals have already, or one in the frame of a local
scope, which is never the globals. -/
theorem assignTo_confined {name : Token} {d : Option Nat} {env : Nat} {Γ : List Scope} {v : Value}
    (hd : Refers Γ name.lexeme d) :
    Confined (fun s => v.Fits s ∧ s.Realizes env Γ) (assignTo name d env v) A := by
  unfold assignTo bindingFrame
  rw [bind_assoc]
  refine Confined.get_bind_of fun m _ ⟨_, hR⟩ => ?_
  cases d with
  | some k =>
    refine Confined.lift_bind fun a ha => Confined.change fun s _ hroot hs => ?_
    subst hs
    exact Store.globalsWithin_define
      (.inl (hR.ancestor_ne_globals hroot (declaredAt_lt hd.1) ha))
  | none =>
    dsimp only
    split
    · next b hb =>
      refine Confined.pure_bind (Confined.change fun s _ _ hs => ?_)
      subst hs
      exact Store.globalsWithin_define (.inr (.inl (Store.binder_binds hb)))
    · exact Confined.fail_bind

theorem unaryOp_reads (op : Token) (v : Value) : Reads (unaryOp op v) := by
  unfold unaryOp
  split
  · exact Reads.pure
  · split
    · exact Reads.pure
    · exact Reads.fail
  · exact Reads.fail

theorem binaryOp_reads (op : Token) (a b : Value) : Reads (binaryOp op a b) := by
  have hnumeric : ∀ f : Float → Float → Value, Reads (numeric op a b f) := by
    intro f
    unfold numeric
    split
    · exact Reads.pure
    · exact Reads.fail
  unfold binaryOp
  split <;> first
    | exact hnumeric _
    | exact Reads.fail
    | split <;> first | exact Reads.pure | exact Reads.fail

theorem bindMethod_confined (c : Closure) (receiver : Value) :
    Confined P (bindMethod c receiver) A :=
  fun _ _ hroot _ => Store.globalsWithin_pushWith hroot _ _

theorem methodFrame_confined (env : Nat) (sup : Option Klass) :
    Confined P (methodFrame env sup) A := by
  cases sup with
  | none => exact Confined.of_reads Reads.pure
  | some k => exact fun _ _ hroot _ => Store.globalsWithin_pushWith hroot _ _

/-- Declaring a class binds its name in the frame of the declaration, and changes the binding
that `binder` then finds there: of the globals, only the class's own name, and only when the
declaration runs in them. -/
theorem defineClass_confined {env : Nat} {name : Token} {sup : Option Klass} {ms : List FunDecl} :
    Confined (fun s => ∀ k ∈ sup, k.Fits s) (defineClass env name sup ms)
      fun x => env = Store.globals ∧ x = name.lexeme := by
  unfold defineClass
  have hfirst : Safe (fun s => ∀ k ∈ sup, k.Fits s)
      (Run.change (·.define env name.lexeme .nil)) fun _ s =>
        s.Realizes env [] ∧ ∀ k ∈ sup, k.Fits s := by
    refine Safe.change fun s hfit hsup => ?_
    have hgrow := Store.Grows.define s env name.lexeme .nil
    exact ⟨hgrow, hfit.define trivial, trivial, fun k hk => (hsup k hk).grow hgrow⟩
  refine Confined.bind hfirst (Confined.change fun s _ _ _ => ?_) fun _ => ?_
  · by_cases henv : env = Store.globals
    · exact Store.globalsWithin_define (.inr (.inr ⟨henv, rfl⟩))
    · exact Store.globalsWithin_define (.inl henv)
  refine Confined.bind (methodFrame_safe sup) (methodFrame_confined env sup) fun methodEnv => ?_
  refine Confined.get_bind_of fun m _ _ => ?_
  split
  · next b hb =>
    -- the frame `binder` finds binds the name already
    refine Confined.bind_reads (Confined.change fun s _ _ hs => ?_) fun _ =>
      Reads.note_bind Reads.pure
    subst hs
    exact Store.globalsWithin_define (.inr (.inl (Store.binder_binds hb)))
  · exact Confined.fail_bind

/-- A declaration binds its name in the frame it runs in: a name of the globals only when it runs
in them. -/
theorem globalsWithin_declare {s : Store} {env : Nat} {st : Stmt} {name : Token}
    (hn : st.declared? = some name) (v : Value) :
    s.GlobalsWithin (s.define env name.lexeme v)
      fun x => env = Store.globals ∧ st.Declares x := by
  by_cases henv : env = Store.globals
  · exact Store.globalsWithin_define (.inr (.inr ⟨henv, name, hn, rfl⟩))
  · exact Store.globalsWithin_define (.inl henv)

/-- Every function of the evaluator, given `fuel` steps and run on resolved trees in frames that
stand for their scopes, from a fitting and rooted store, ends, normally or not, with globals that
gain no name, but the one a statement declares when it runs in the globals. -/
structure ConfinedAt (fuel : Nat) : Prop where
  eval : ∀ depth env (e : Expr) Γ, e.ResolvedIn Γ →
    Confined (·.Realizes env Γ) (Run.eval fuel depth env e) fun _ => False
  evalArgs : ∀ depth env es Γ, Expr.AllResolvedIn Γ es →
    Confined (·.Realizes env Γ) (Run.evalArgs fuel depth env es) fun _ => False
  invoke : ∀ depth paren (f : Value) (args : List Value),
    Confined (fun s => f.Fits s ∧ (∀ v ∈ args, v.Fits s) ∧ arity? f = some args.length)
      (Run.invoke fuel depth paren f args) fun _ => False
  callClosure : ∀ depth paren (c : Closure) (args : List Value),
    Confined (fun s => c.Fits s ∧ (∀ v ∈ args, v.Fits s) ∧
        args.length = c.decl.params.length)
      (Run.callClosure fuel depth paren c args) fun _ => False
  exec : ∀ depth env (st : Stmt) Γ, st.ResolvedIn Γ →
    Confined (·.Realizes env Γ) (Run.exec fuel depth env st)
      fun x => env = Store.globals ∧ st.Declares x
  execList : ∀ depth env ss Γ, Stmt.ListResolvedIn Γ ss →
    Confined (·.Realizes env Γ) (Run.execList fuel depth env ss)
      fun x => env = Store.globals ∧ ∃ st ∈ ss, st.Declares x
  loop : ∀ depth env cond (body : Stmt) Γ, cond.ResolvedIn Γ → body.ResolvedIn Γ →
    body.declared? = none →
    Confined (·.Realizes env Γ) (Run.loop fuel depth env cond body) fun _ => False

theorem confinedAt_zero : ConfinedAt 0 where
  eval _ _ _ _ _ := by rw [eval]; exact Confined.of_reads fun _ => rfl
  evalArgs _ _ _ _ _ := by rw [evalArgs]; exact Confined.of_reads fun _ => rfl
  invoke _ _ _ _ := by rw [invoke]; exact Confined.of_reads fun _ => rfl
  callClosure _ _ _ _ := by rw [callClosure]; exact Confined.of_reads fun _ => rfl
  exec _ _ _ _ _ := by rw [exec]; exact Confined.of_reads fun _ => rfl
  execList _ _ _ _ _ := by rw [execList]; exact Confined.of_reads fun _ => rfl
  loop _ _ _ _ _ _ _ _ := by rw [loop]; exact Confined.of_reads fun _ => rfl

variable {fuel : Nat}

theorem ConfinedAt.eval_succ (h : ConfinedAt fuel) (depth env : Nat) (e : Expr) (Γ : List Scope)
    (hr : e.ResolvedIn Γ) :
    Confined (·.Realizes env Γ) (Run.eval (fuel + 1) depth env e) fun _ => False := by
  have hR := realizes_stable env Γ
  have hsafe := safeAt fuel
  cases e with
  | literal c =>
    rw [Run.eval]
    exact Confined.of_reads Reads.pure
  | grouping inner =>
    rw [Run.eval]
    exact h.eval _ _ inner Γ hr
  | var name d =>
    rw [Run.eval]
    exact Confined.of_reads (lookUp_reads name d env)
  | assign name value d =>
    rw [Run.eval]
    refine Confined.bind ((hsafe.eval _ _ value Γ hr.2).keep hR) (h.eval _ _ value Γ hr.2)
      fun v => ?_
    exact Confined.bind_reads (assignTo_confined hr.1) fun _ => Reads.pure
  | unary op operand =>
    rw [Run.eval]
    exact Confined.bind_reads (h.eval _ _ operand Γ hr) fun v => unaryOp_reads op v
  | logical left op right =>
    rw [Run.eval]
    refine Confined.bind ((hsafe.eval _ _ left Γ hr.1).keep hR) (h.eval _ _ left Γ hr.1)
      fun l => ?_
    have hright : Confined (fun s => l.Fits s ∧ s.Realizes env Γ)
        (Run.eval fuel (depth + 1) env right) fun _ => False :=
      (h.eval _ _ right Γ hr.2).weaken fun _ h => h.2
    split <;> split
    all_goals first | exact Confined.of_reads Reads.pure | exact hright
  | binary left op right =>
    rw [Run.eval]
    refine Confined.bind ((hsafe.eval _ _ left Γ hr.1).keep hR) (h.eval _ _ left Γ hr.1)
      fun l => ?_
    exact Confined.bind_reads ((h.eval _ _ right Γ hr.2).weaken fun _ h => h.2) fun r =>
      binaryOp_reads op l r
  | call callee paren args =>
    rw [Run.eval]
    refine Confined.bind ((hsafe.eval _ _ callee Γ hr.1).keep hR) (h.eval _ _ callee Γ hr.1)
      fun f => ?_
    split
    · exact Confined.of_reads Reads.fail
    · next n hn =>
      refine Confined.bind
        ((hsafe.evalArgs _ _ args Γ hr.2).under (fits_stable f) fun _ h => ⟨h.2, h.1⟩)
        ((h.evalArgs _ _ args Γ hr.2).weaken fun _ h => h.2) fun vs => ?_
      dsimp only
      refine Confined.ite_fail fun hlen => Confined.note_bind ?_
      have hlen : vs.length = n := by simpa using hlen
      exact (h.invoke _ _ f vs).weaken fun _ h => ⟨h.2, h.1, by rw [hn, hlen]⟩
  | get object name =>
    rw [Run.eval]
    refine Confined.bind (hsafe.eval _ _ object Γ hr) (h.eval _ _ object Γ hr) fun o => ?_
    split
    · refine Confined.get_bind_of fun m _ _ => ?_
      split
      · exact Confined.of_reads Reads.pure
      · split
        · exact Confined.bind_reads (bindMethod_confined _ _) fun _ => Reads.pure
        · exact Confined.of_reads Reads.fail
    · exact Confined.of_reads Reads.fail
  | set object name value =>
    rw [Run.eval]
    refine Confined.bind ((hsafe.eval _ _ object Γ hr.1).keep hR) (h.eval _ _ object Γ hr.1)
      fun o => ?_
    split
    · refine Confined.bind ((hsafe.eval _ _ value Γ hr.2).weaken (fun _ h => h.2) fun _ _ h => h)
        ((h.eval _ _ value Γ hr.2).weaken fun _ h => h.2) fun v => ?_
      -- a field lives in an instance, not in a frame
      exact Confined.bind_reads (Confined.change fun _ _ _ _ => Store.globalsWithin_of_frames rfl)
        fun _ => Reads.pure
    · exact Confined.of_reads Reads.fail
  | thisRef keyword d =>
    rw [Run.eval]
    exact Confined.of_reads (lookUp_reads keyword d env)
  | superMethod keyword method d =>
    cases d with
    | none =>
      rw [Run.eval]
      exact Confined.of_reads Reads.fail
    | some k =>
      rw [Run.eval]
      refine Confined.get_bind_of fun m _ _ => ?_
      refine Confined.lift_bind fun sup _ => Confined.lift_bind fun receiver _ => ?_
      split
      · split
        · exact Confined.bind_reads (bindMethod_confined _ _) fun _ => Reads.pure
        · exact Confined.of_reads Reads.fail
      · exact Confined.of_reads fun _ => rfl

theorem ConfinedAt.evalArgs_succ (h : ConfinedAt fuel) (depth env : Nat) :
    ∀ (es : List Expr) (Γ : List Scope), Expr.AllResolvedIn Γ es →
      Confined (·.Realizes env Γ) (Run.evalArgs (fuel + 1) depth env es) fun _ => False
  | [], _, _ => by
    rw [Run.evalArgs]
    · exact Confined.of_reads Reads.pure
    · exact Nat.succ_ne_zero fuel
  | a :: rest, Γ, ⟨ha, hrest⟩ => by
    rw [Run.evalArgs]
    refine Confined.bind (((safeAt fuel).eval _ _ a Γ ha).keep (realizes_stable env Γ))
      (h.eval _ _ a Γ ha) fun v => ?_
    exact Confined.bind_reads ((h.evalArgs _ _ rest Γ hrest).weaken fun _ h => h.2) fun _ =>
      Reads.pure

/-- A call runs the body in a frame made for it, which is not the globals. -/
theorem ConfinedAt.callClosure_succ (h : ConfinedAt fuel) (depth : Nat) (paren : Token)
    (c : Closure) (args : List Value) :
    Confined (fun s => c.Fits s ∧ (∀ v ∈ args, v.Fits s) ∧
        args.length = c.decl.params.length)
      (Run.callClosure (fuel + 1) depth paren c args) fun _ => False := by
  obtain ⟨⟨fname, params, body⟩, cframe, init⟩ := c
  rw [Run.callClosure]
  refine Confined.ite_fail fun _ => ?_
  refine Confined.pushFrame_bind (fun s hs p hp => hs.2.1 _ (mem_params_zip hp)) fun f => ?_
  simp only [FunDecl.params, FunDecl.body]
  refine Confined.bind_reads ?_ fun r => ?_
  · rintro m hfit hroot ⟨s, ⟨hc, _, hlen⟩, hf, hs⟩
    obtain ⟨Γ, hΓ, hres⟩ := hc.1
    have hsc : ∀ name, (paramScope params).lookup name = some true →
        name ∈ ((params.zip args).map fun x => (x.1.lexeme, x.2)).map (·.1) := by
      intro name hname
      rw [names_params_zip hlen]
      rw [paramScope_lookup] at hname
      split at hname
      · assumption
      · cases hname
    have hR : m.store.Realizes f (paramScope params :: Γ) := by
      rw [hs, hf]
      exact hΓ.pushWith hsc
    -- the frame of the call is nested in the function's frame
    have hne : f ≠ Store.globals := by
      refine hroot.ne_of_parent (p := cframe) ?_
      rw [hs, hf, Store.frame_pushWith_self]
    exact (h.execList _ f body _ hres m hfit hroot hR).mono fun _ hx => hne hx.1
  · split
    · exact Reads.get_bind fun _ => Reads.lift
    · split <;> exact Reads.pure

theorem ConfinedAt.invoke_succ (h : ConfinedAt fuel) (depth : Nat) (paren : Token) (f : Value)
    (args : List Value) :
    Confined (fun s => f.Fits s ∧ (∀ v ∈ args, v.Fits s) ∧ arity? f = some args.length)
      (Run.invoke (fuel + 1) depth paren f args) fun _ => False := by
  cases f with
  | native n =>
    cases n
    rw [Run.invoke]
    exact Confined.of_reads (Reads.get_bind fun _ => Reads.pure)
  | function c =>
    rw [Run.invoke]
    exact (h.callClosure _ _ c args).weaken fun _ h =>
      ⟨h.1, h.2.1, (Option.some.inj h.2.2).symm⟩
  | klass k =>
    rw [Run.invoke]
    refine Confined.newObject_bind fun id m hfit hroot hm => ?_
    obtain ⟨s, ⟨hk, hargs, har⟩, hs⟩ := hm
    have har : k.arity = args.length := Option.some.inj har
    have hgrow : s.Grows m.store := hs ▸ Store.Grows.newObject s
    refine (?_ : Confined (fun s => k.Fits s ∧ ∀ v ∈ args, v.Fits s) _ _) m hfit hroot
      ⟨hk.grow hgrow, fun v hv => (hargs v hv).grow hgrow⟩
    split
    · next init hinit =>
      refine Confined.bind ((bindMethod_safe init (.object id k)).under
        ((klassFits_stable k).and (allFits_stable args))
        fun _ h => ⟨⟨h.1.findMethod hinit, h.1⟩, h.1, h.2⟩)
        (bindMethod_confined _ _) fun bound => ?_
      refine Confined.bind_reads ((h.callClosure _ _ bound args).weaken
        fun _ h => ⟨h.1.1, h.2.2, ?_⟩) fun _ => Reads.pure
      rw [h.1.2, ← Klass.arity_of_findMethod hinit, har]
    · exact Confined.of_reads Reads.pure
  | _ =>
    simp only [Run.invoke]
    exact Confined.of_reads Reads.fail

theorem ConfinedAt.exec_succ (h : ConfinedAt fuel) (depth env : Nat) (st : Stmt) (Γ : List Scope)
    (hr : st.ResolvedIn Γ) :
    Confined (·.Realizes env Γ) (Run.exec (fuel + 1) depth env st)
      fun x => env = Store.globals ∧ st.Declares x := by
  have hR := realizes_stable env Γ
  have hsafe := safeAt fuel
  cases st with
  | expr e =>
    rw [Run.exec]
    exact Confined.bind_reads ((h.eval _ _ e Γ hr).mono fun _ => False.elim) fun _ => Reads.pure
  | print e =>
    rw [Run.exec]
    exact Confined.bind_reads ((h.eval _ _ e Γ hr).mono fun _ => False.elim) fun _ =>
      Reads.emit_bind Reads.pure
  | varDecl name init =>
    have hdefine : ∀ v, Confined (fun _ => True)
        (Run.change (·.define env name.lexeme v) >>= fun _ =>
          note 2 (fun _ => "declare " ++ name.lexeme ++ " = " ++ v.text) >>= fun _ =>
            Pure.pure Completion.normal)
        fun x => env = Store.globals ∧ (Stmt.varDecl name init).Declares x := fun v =>
      Confined.bind_reads (Confined.change fun _ _ _ _ => globalsWithin_declare rfl v) fun _ =>
        Reads.note_bind Reads.pure
    cases init with
    | none =>
      rw [Run.exec]
      exact Confined.pure_bind ((hdefine .nil).weaken fun _ _ => trivial)
    | some e =>
      rw [Run.exec]
      -- the initializer runs while the name is declared but not yet complete
      refine Confined.bind ((hsafe.eval _ _ e _ (hr e rfl)).weaken
          (fun _ hs => hs.putInnermost_false _) fun _ _ h => h)
        (((h.eval _ _ e _ (hr e rfl)).weaken fun _ hs => hs.putInnermost_false _).mono
          fun _ => False.elim) fun v => ?_
      exact (hdefine v).weaken fun _ _ => trivial
  | block body =>
    rw [Run.exec]
    refine Confined.pushFrame_bind (fun _ _ p hp => absurd hp List.not_mem_nil) fun f => ?_
    rintro m hfit hroot ⟨s, hs, hf, hm⟩
    have hRf : m.store.Realizes f ([] :: Γ) := by
      rw [hm, hf]
      exact hs.pushWith fun _ h => by cases h
    -- the block's frame is nested in the frame it runs in
    have hne : f ≠ Store.globals := by
      refine hroot.ne_of_parent (p := env) ?_
      rw [hm, hf, Store.frame_pushWith_self]
    exact (h.execList _ f body _ hr m hfit hroot hRf).mono fun _ hx => absurd hx.1 hne
  | ifElse cond thenBranch elseBranch =>
    obtain ⟨hc, ht, htd, he⟩ := Stmt.resolvedIn_ifElse.mp hr
    -- the step's equations split on the else branch; unfold it whole instead
    rw [Run.exec.eq_def]
    dsimp only
    refine Confined.bind ((hsafe.eval _ _ cond Γ hc).keep hR)
      ((h.eval _ _ cond Γ hc).mono fun _ => False.elim) fun v => Confined.note_bind ?_
    split
    · exact ((h.exec _ _ thenBranch Γ ht).weaken fun _ h => h.2).mono fun _ hx =>
        absurd hx.2 (Stmt.not_declares htd _)
    · cases elseBranch with
      | none => exact Confined.of_reads Reads.pure
      | some e =>
        exact ((h.exec _ _ e Γ (he e rfl).1).weaken fun _ h => h.2).mono fun _ hx =>
          absurd hx.2 (Stmt.not_declares (he e rfl).2 _)
  | whileLoop cond body =>
    rw [Run.exec]
    exact (h.loop _ _ cond body Γ hr.1 hr.2.1 hr.2.2).mono fun _ => False.elim
  | funDecl f =>
    rw [Run.exec]
    exact Confined.bind_reads (Confined.change fun _ _ _ _ => globalsWithin_declare rfl _) fun _ =>
      Reads.note_bind Reads.pure
  | returnStmt keyword value =>
    cases value with
    | none =>
      rw [Run.exec]
      exact Confined.pure_bind (Confined.of_reads Reads.pure)
    | some e =>
      rw [Run.exec]
      exact Confined.bind_reads ((h.eval _ _ e Γ (hr e rfl)).mono fun _ => False.elim) fun _ =>
        Reads.pure
  | classDecl name superclass methods =>
    rw [Stmt.ResolvedIn] at hr
    have hclass : ∀ x, env = Store.globals ∧ x = name.lexeme →
        env = Store.globals ∧ (Stmt.classDecl name superclass methods).Declares x :=
      fun _ h => ⟨h.1, name, rfl, h.2.symm⟩
    cases superclass with
    | none =>
      rw [Run.exec]
      exact Confined.pure_bind ((defineClass_confined.weaken fun _ _ k hk =>
        absurd hk (Option.not_mem_none k)).mono hclass)
    | some e =>
      rw [Run.exec]
      refine Confined.bind ((hsafe.eval _ _ e Γ (hr.1 e rfl)).keep hR)
        ((h.eval _ _ e Γ (hr.1 e rfl)).mono fun _ => False.elim) fun v => ?_
      split
      · exact Confined.pure_bind ((defineClass_confined.weaken
          fun _ h _ hk => Option.some.inj hk ▸ h.1).mono hclass)
      · exact Confined.fail_bind

theorem ConfinedAt.execList_succ (h : ConfinedAt fuel) (depth env : Nat) :
    ∀ (ss : List Stmt) (Γ : List Scope), Stmt.ListResolvedIn Γ ss →
      Confined (·.Realizes env Γ) (Run.execList (fuel + 1) depth env ss)
        fun x => env = Store.globals ∧ ∃ st ∈ ss, st.Declares x := by
  intro ss Γ hss
  cases ss with
  | nil =>
    rw [Run.execList]
    · exact Confined.of_reads Reads.pure
    · exact Nat.succ_ne_zero fuel
  | cons st rest =>
    obtain ⟨hst, hrest⟩ := hss
    rw [Run.execList]
    refine Confined.bind ((safeAt fuel).exec _ _ st Γ hst)
      ((h.exec _ _ st Γ hst).mono fun _ h => ⟨h.1, st, List.mem_cons_self, h.2⟩)
      fun c => ?_
    split
    · exact ((h.execList _ _ rest _ hrest).weaken fun _ h => h.2).mono
        fun _ h => ⟨h.1, h.2.imp fun _ hst' => ⟨List.mem_cons_of_mem _ hst'.1, hst'.2⟩⟩
    · exact Confined.of_reads Reads.pure

theorem ConfinedAt.loop_succ (h : ConfinedAt fuel) (depth env : Nat) (cond : Expr) (body : Stmt)
    (Γ : List Scope) (hc : cond.ResolvedIn Γ) (hb : body.ResolvedIn Γ)
    (hd : body.declared? = none) :
    Confined (·.Realizes env Γ) (Run.loop (fuel + 1) depth env cond body) fun _ => False := by
  rw [Run.loop]
  refine Confined.bind (((safeAt fuel).eval _ _ cond Γ hc).keep (realizes_stable env Γ))
    (h.eval _ _ cond Γ hc) fun v => ?_
  split
  · refine Confined.bind (((safeAt fuel).exec _ _ body Γ hb).weaken (fun _ h => h.2)
        fun _ _ h => h)
      (((h.exec _ _ body Γ hb).weaken fun _ h => h.2).mono fun _ hx =>
        absurd hx.2 (Stmt.not_declares hd _)) fun c => ?_
    split
    · exact (h.loop _ _ cond body Γ hc hb hd).weaken fun _ h => (after_of_declared_none hd h).2
    · exact Confined.of_reads Reads.pure
  · exact Confined.of_reads Reads.pure

theorem ConfinedAt.succ (h : ConfinedAt fuel) : ConfinedAt (fuel + 1) where
  eval := h.eval_succ
  evalArgs := h.evalArgs_succ
  invoke := h.invoke_succ
  callClosure := h.callClosure_succ
  exec := h.exec_succ
  execList := h.execList_succ
  loop := h.loop_succ

/-- With any number of steps, resolved code adds to the globals only the names that statements
run in them declare. -/
theorem confinedAt : ∀ fuel, ConfinedAt fuel
  | 0 => confinedAt_zero
  | fuel + 1 => (confinedAt fuel).succ

/-- Top-level statements run in the globals, and whichever way the run ends, the globals gain
only names the statements declare. -/
theorem program_confined : ∀ ss : List Stmt, Stmt.ListResolvedIn [] ss →
    Confined (fun _ => True) (Run.program ss) fun x => ∃ st ∈ ss, st.Declares x := by
  intro ss hss
  induction ss with
  | nil =>
    rw [Run.program]
    exact Confined.of_reads Reads.pure
  | cons st rest ih =>
    obtain ⟨hst, hrest⟩ := hss
    rw [Run.program]
    rw [Stmt.after_nil] at hrest
    refine Confined.bind
      (((safeAt fuel).exec baseDepth Store.globals st [] hst).weaken (fun _ _ => trivial)
        fun _ _ _ => trivial)
      ((((confinedAt fuel).exec baseDepth Store.globals st [] hst).weaken
        fun _ _ => trivial).mono fun _ hx => ⟨st, List.mem_cons_self, hx.2⟩) fun _ => ?_
    exact (ih hrest).mono fun _ h =>
      h.imp fun _ hst' => ⟨List.mem_cons_of_mem _ hst'.1, hst'.2⟩

/-- A declaration's last steps, a change of the store and a debug line, end in the changed
store. -/
theorem change_note_store {g : Store → Store} {level : Nat} {line : Unit → String} {a c : α}
    {m m' : Machine}
    (h : (Run.change g >>= fun _ => note level line >>= fun _ => Pure.pure a) m = .ok c m') :
    m'.store = g m.store := by
  rw [run_bind, run_change] at h
  obtain ⟨m₁, hm₁, h₁⟩ := run_note_store h
  cases h₁
  exact hm₁

/-- A class declaration that ends normally has bound its name in the frame it ran in: the first
step binds it there, and every later step only grows the store. -/
theorem defineClass_binds {env : Nat} {name : Token} {sup : Option Klass} {ms : List FunDecl}
    {m m' : Machine} {c : Completion} (henv : env < m.store.frames.size)
    (h : defineClass env name sup ms m = .ok c m') :
    ((m'.store.frame env).slots.lookup name.lexeme).isSome := by
  obtain ⟨methodEnv, m₂, hm₂, hgrow⟩ : ∃ methodEnv m₂,
      methodFrame env sup { m with store := m.store.define env name.lexeme .nil } =
        .ok methodEnv m₂ ∧ (m.store.define env name.lexeme .nil).Grows m₂.store := by
    cases sup with
    | none => exact ⟨env, _, rfl, Store.Grows.refl _⟩
    | some k => exact ⟨_, _, rfl, Store.Grows.pushWith _ _ _⟩
  have hbound := hgrow.bound env _ (Store.binds_define_self henv name.lexeme .nil)
  unfold defineClass at h
  rw [run_bind, run_change] at h
  dsimp only at h
  rw [run_bind, hm₂] at h
  dsimp only at h
  rw [run_bind, run_get] at h
  dsimp only at h
  cases hb : m₂.store.binder env name.lexeme with
  | some b =>
    rw [hb] at h
    rw [change_note_store h]
    exact (Store.Grows.define _ _ _ _).bound env _ hbound
  | none =>
    rw [hb] at h
    nomatch h

/-- A declaration that ends normally has bound its name in the frame it ran in. -/
theorem exec_binds_declared {fuel depth env : Nat} {st : Stmt} {n : Token} {Γ : List Scope}
    (hr : st.ResolvedIn Γ) (hn : st.declared? = some n) {m m' : Machine} {c : Completion}
    (hfit : m.store.Fits) (hR : m.store.Realizes env Γ) (henv : env < m.store.frames.size)
    (h : Run.exec fuel depth env st m = .ok c m') :
    ((m'.store.frame env).slots.lookup n.lexeme).isSome := by
  cases fuel with
  | zero =>
    rw [Run.exec] at h
    cases h
  | succ fuel =>
  cases st with
  | varDecl name init =>
    cases hn
    cases init with
    | none =>
      rw [Run.exec, pure_bind] at h
      rw [change_note_store h]
      exact Store.binds_define_self henv _ _
    | some e =>
      rw [Run.exec, run_bind] at h
      -- the initializer runs first, and only grows the store
      have hends := (safeAt fuel).eval (depth + 1) env e _ (hr e rfl) m hfit
        (hR.putInnermost_false _)
      cases he : Run.eval fuel (depth + 1) env e m with
      | ok v m₁ =>
        rw [he] at h hends
        rw [change_note_store h]
        exact Store.binds_define_self (Nat.lt_of_lt_of_le henv hends.1.size) _ _
      | error e m₁ =>
        rw [he] at h
        cases h
  | funDecl f =>
    cases hn
    rw [Run.exec] at h
    rw [change_note_store h]
    exact Store.binds_define_self henv _ _
  | classDecl name superclass methods =>
    cases hn
    cases superclass with
    | none =>
      rw [Run.exec, pure_bind] at h
      exact defineClass_binds henv h
    | some e =>
      rw [Run.exec, run_bind] at h
      have hends := (safeAt fuel).eval (depth + 2) env e _ (hr.1 e rfl) m hfit hR
      cases he : Run.eval fuel (depth + 2) env e m with
      | ok v m₁ =>
        rw [he] at h hends
        dsimp only at h
        split at h
        · rw [pure_bind] at h
          exact defineClass_binds (Nat.lt_of_lt_of_le henv hends.1.size) h
        · cases h
      | error e m₁ =>
        rw [he] at h
        cases h
  | _ => cases hn

/-- Whichever way a confined, safe step ends, its store grows the first and its globals gain
only names `A` allows. -/
theorem Confined.final_of_run {Q : α → Store → Prop} {x : Run α} (hs : Safe P x Q)
    (hx : Confined P x A) {m : Machine} (hfit : m.store.Fits) (hroot : m.store.Rooted)
    (hP : P m.store) :
    m.store.Grows (final (x.run m)).store ∧ m.store.GlobalsWithin (final (x.run m)).store A := by
  refine ⟨?_, hx m hfit hroot hP⟩
  have hends := hs m hfit hP
  revert hends
  show Ends m.store Q (x m) → m.store.Grows (final (x m)).store
  cases x m with
  | ok a m' => exact fun h => h.1
  | error e m' => exact fun h => h.1

end Run

namespace Session

/-- A program with resolution errors leaves the store as it was; one without leaves the store its
statements leave, run in turn from the session's store, whether they end normally or with a
runtime error. -/
theorem runProgram_store {s s' : Session} {report : Report} {p : Program}
    (h : s.runProgram p = .ok (s', report)) :
    s'.machine.store = s.machine.store ∨ p.resolve.errors = [] ∧
      ∃ m : Machine, m.store = s.machine.store ∧
        s'.machine.store = (Run.final ((Run.program p.resolve.program).run m)).store := by
  unfold runProgram at h
  dsimp only at h
  by_cases herr : p.resolve.errors.isEmpty = true
  · rw [if_neg (by simp [herr])] at h
    refine .inr ⟨List.isEmpty_iff.mp herr, ?_⟩
    -- the run ends in a machine whose store the session keeps
    have hend : ∀ {r r' : EStateM.Result Failure Machine Unit}, r = r' →
        (Run.final r).store = (Run.final r').store := fun h => h ▸ rfl
    split at h
    · next m' heq =>
      cases h
      exact ⟨_, by simp [note_store, apply_ite Machine.store], (hend heq).symm⟩
    · next e m' heq =>
      cases h
      exact ⟨_, by simp [note_store, apply_ite Machine.store],
        (note_store m' 1 _).trans (hend heq).symm⟩
    all_goals cases h
  · rw [if_pos (by simp [herr])] at h
    cases h
    refine .inl ?_
    show (if _ then _ else s.machine).store = _
    split <;> rfl

/-- Running a resolved program grows the store, and the globals gain only names that the
program's top-level statements declare, whether it ends normally or with a runtime error. -/
theorem runProgram_confined {s s' : Session} {report : Report} (hs : s.machine.store.Fits)
    (hroot : s.machine.store.Rooted) {p : Program} (hp : Stmt.AllShaped p)
    (h : s.runProgram p = .ok (s', report)) :
    s.machine.store.Grows s'.machine.store ∧ s.machine.store.GlobalsWithin s'.machine.store
      fun x => ∃ st ∈ p.resolve.program, st.Declares x := by
  rcases runProgram_store h with hsame | ⟨herr, m, hm, hend⟩
  · rw [hsame]
    exact ⟨Store.Grows.refl _, Store.GlobalsWithin.refl _ _⟩
  · have hres := Program.resolve_resolvedIn hp herr
    rw [hend, ← hm]
    rw [← hm] at hs hroot
    exact Run.Confined.final_of_run (Run.program_safe _ hres) (Run.program_confined _ hres) hs hroot
      trivial

/-- A source that does not parse leaves the session as it was. -/
theorem runSource_confined {s s' : Session} {report : Report} (hs : s.machine.store.Fits)
    (hroot : s.machine.store.Rooted) {source : String}
    (h : s.runSource source = .ok (s', report)) :
    s.machine.store.Grows s'.machine.store ∧ s.machine.store.GlobalsWithin s'.machine.store
      fun x => ∃ p, parseProgram source = .ok p ∧
        ∃ st ∈ p.resolve.program, st.Declares x := by
  unfold runSource at h
  split at h
  · cases h
    exact ⟨Store.Grows.refl _, Store.GlobalsWithin.refl _ _⟩
  · next p hp =>
    exact (runProgram_confined hs hroot (parseProgram_shaped hp) h).imp_right fun hg =>
      hg.mono fun _ hx => ⟨p, hp, hx⟩

/-- A property of sessions that running each of the lines keeps, whatever the line does, holds
after the lines run one after another. -/
theorem runLines_preserves {I : Session → Prop} :
    ∀ (lines : List String), (∀ line ∈ lines, ∀ {s s' : Session} {report : Report}, I s →
      s.runSource line = .ok (s', report) → I s') →
    ∀ {s s' : Session} {reports : List Report}, I s → s.runLines lines = .ok (s', reports) →
      I s' := by
  intro lines hstep s s' reports hs h
  induction lines generalizing s s' reports with
  | nil =>
    cases h
    exact hs
  | cons line rest ih =>
    rw [runLines] at h
    cases hrun : s.runSource line with
    | error e =>
      rw [hrun] at h
      cases h
    | ok r =>
      obtain ⟨s₁, report⟩ := r
      rw [hrun] at h
      -- the rest of the lines run from the session this line left
      change (s₁.runLines rest >>= fun p => pure (p.1, report :: p.2)) = _ at h
      cases hnext : s₁.runLines rest with
      | error e =>
        rw [hnext] at h
        cases h
      | ok r' =>
        rw [hnext] at h
        cases h
        exact ih (fun l hl => hstep l (List.mem_cons_of_mem _ hl))
          (hstep line List.mem_cons_self hs hrun) hnext

/-- Running lines one after another, the globals gain only names that some line declares at top
level, whether each line ends normally, with a syntax or resolution error, or with a runtime
error. -/
theorem runLines_confined : ∀ {s : Session}, s.machine.store.Fits → s.machine.store.Rooted →
    ∀ lines {s' : Session} {reports : List Report}, s.runLines lines = .ok (s', reports) →
      s.machine.store.GlobalsWithin s'.machine.store fun x => ∃ line ∈ lines, ∃ p,
        parseProgram line = .ok p ∧ ∃ st ∈ p.resolve.program, st.Declares x := by
  intro s hs hroot lines s' reports h
  -- every session the lines pass through fits, has its globals, and has gained only names that
  -- the lines declare
  refine (runLines_preserves (I := fun t => t.machine.store.Fits ∧ t.machine.store.Rooted ∧
    s.machine.store.GlobalsWithin t.machine.store _) lines (fun line hline t t' _ ht hrun => ?_)
    ⟨hs, hroot, Store.GlobalsWithin.refl _ _⟩ h).2.2
  obtain ⟨hfit, hroot', hwithin⟩ := ht
  have hstep := runSource_confined hfit hroot' hrun
  have hsound := runSource_sound hfit line
  rw [hrun] at hsound
  exact ⟨hsound, hroot'.grow hstep.1,
    hwithin.trans (hstep.2.mono fun _ hx => ⟨line, hline, hx⟩)⟩

end Session

/-- The frame a statement runs in is an argument of the evaluator, so every way a block, a call or
a class body ends, by finishing, by returning or by failing, stack overflow included, leaves the
code around it in its own frame, and every top-level statement runs in the globals. Running
resolved code from a fitting store whose globals frame is nested in none, a statement adds to the
globals, whichever way it ends, at most the name it declares, and that only when it runs in the
globals; an expression, a call or a block adds none, so nothing declared inside a block, a
function or a class body lands in the globals. A declaration that ends normally has bound its
name in the frame it ran in, so a top-level one binds it in the globals. Over a whole program,
and over lines run one after another in a session, each ending normally, with a static error or
with a runtime error, the globals gain only names that the lines' top-level statements declare. -/
theorem declarations_stay_in_their_frames :
    (∀ fuel, Run.ConfinedAt fuel) ∧
    (∀ fuel depth env (st : Stmt) (n : Token) Γ (m m' : Machine) c, st.ResolvedIn Γ →
      st.declared? = some n → m.store.Fits → m.store.Realizes env Γ →
      env < m.store.frames.size → Run.exec fuel depth env st m = .ok c m' →
      ((m'.store.frame env).slots.lookup n.lexeme).isSome) ∧
    (∀ ss, Stmt.ListResolvedIn [] ss →
      Run.Confined (fun _ => True) (Run.program ss) fun x => ∃ st ∈ ss, st.Declares x) ∧
    ∀ level lines (s' : Session) reports,
      (Session.new level).runLines lines = .ok (s', reports) →
      Store.initial.GlobalsWithin s'.machine.store fun x => ∃ line ∈ lines, ∃ p,
        parseProgram line = .ok p ∧ ∃ st ∈ p.resolve.program, st.Declares x :=
  ⟨Run.confinedAt,
    fun _ _ _ _ _ _ _ _ _ hr hn hfit hR henv h => Run.exec_binds_declared hr hn hfit hR henv h,
    Run.program_confined,
    fun _ lines _ _ h =>
      Session.runLines_confined Store.fits_initial Store.rooted_initial lines h⟩

/-- `var a = 1;` at the top level. -/
def topLevelVar : Stmt :=
  .varDecl ⟨.terminal .identifier, "a", .null, 1, 5⟩ (some (.literal (.num 1)))

/-- `var a = 1;` run at the top level binds `a` in the globals, the program it makes stays within
what it declares, and a session that ran no line leaves the globals as they began. -/
theorem top_level_var_binds_a_global :
    (((Store.initial.define Store.globals "a" (.num 1)).frame Store.globals).slots.lookup
      "a").isSome ∧
    Run.Confined (fun _ => True) (Run.program [topLevelVar])
      (fun x => ∃ st ∈ [topLevelVar], st.Declares x) ∧
    Store.initial.GlobalsWithin (Session.new 0).machine.store fun x =>
      ∃ line ∈ ([] : List String), ∃ p, parseProgram line = .ok p ∧
        ∃ st ∈ p.resolve.program, st.Declares x := by
  obtain ⟨-, hbinds, hprog, hlines⟩ := declarations_stay_in_their_frames
  have hresolved : topLevelVar.ResolvedIn [] := by
    simp [topLevelVar, Stmt.ResolvedIn, Expr.ResolvedIn]
  have hexec : Run.exec 2 0 Store.globals topLevelVar {} =
      .ok .normal { store := Store.initial.define Store.globals "a" (.num 1) } := by
    simp [topLevelVar, Run.exec, Run.eval, Run.change, Run.note, Value.ofConstant]
    rfl
  refine ⟨hbinds 2 0 Store.globals topLevelVar _ [] {} _ _ hresolved rfl Store.fits_initial
      trivial (by decide) hexec, hprog _ ?_, hlines 0 [] _ [] rfl⟩
  simpa [Stmt.ListResolvedIn] using hresolved

end Lox
