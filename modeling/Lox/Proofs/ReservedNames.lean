import Lox.Proofs.FrameSafety

/-!
# Runs never rebind `this` and `super`

A bound method closes over a frame that binds `this`, and the methods of a subclass close over
a frame that binds `super`; the evaluator reads both names from those frames by depth, so what
the frames bind is what the two words mean. A tree is `Hygienic` when the two names are never
anything else: it declares neither, takes neither as a parameter, assigns neither, and spells
its `this` and `super` expressions so. Every tree the grammar builds is; a document need not be,
and one that assigns `this` does rebind it.

Running hygienic trees from a store whose values are hygienic changes no frame's binding of
either name (`Store.Keeps`) and stores only hygienic values (`Run.keptAt`). Nothing here needs
the trees to be resolved: the names they bind decide it.
-/

namespace Lox

/-- The two names scopes keep for the receiver of a method and the superclass of a class. -/
def Reserved (x : String) : Prop := x = "this" ∨ x = "super"

theorem Token.Declarable.not_reserved {tok : Token} (h : tok.Declarable) :
    ¬ Reserved tok.lexeme := by
  rintro (h' | h')
  · exact h.1 h'
  · exact h.2 h'

mutual

/-- An expression that assigns neither `this` nor `super` and spells its `this` and `super`
expressions so. -/
def Expr.Hygienic : Expr → Prop
  | .literal _ => True
  | .grouping e => e.Hygienic
  | .var _ _ => True
  | .assign n v _ => n.Declarable ∧ v.Hygienic
  | .unary _ e => e.Hygienic
  | .binary l _ r => l.Hygienic ∧ r.Hygienic
  | .logical l _ r => l.Hygienic ∧ r.Hygienic
  | .call c _ args => c.Hygienic ∧ Expr.AllHygienic args
  | .get o _ => o.Hygienic
  | .set o _ v => o.Hygienic ∧ v.Hygienic
  | .thisRef k _ => k.lexeme = "this"
  | .superMethod k _ _ => k.lexeme = "super"

/-- Hygienic expressions. -/
def Expr.AllHygienic : List Expr → Prop
  | [] => True
  | e :: rest => e.Hygienic ∧ Expr.AllHygienic rest

end

mutual

/-- A statement that declares, takes as a parameter and assigns neither `this` nor `super`, and
spells its `this` and `super` expressions so. -/
def Stmt.Hygienic : Stmt → Prop
  | .expr e => e.Hygienic
  | .print e => e.Hygienic
  | .varDecl n i => n.Declarable ∧ ∀ e ∈ i, e.Hygienic
  | .block b => Stmt.AllHygienic b
  | .ifElse c t e =>
    c.Hygienic ∧ t.Hygienic ∧
      match e with
      | some e => e.Hygienic
      | none => True
  | .whileLoop c b => c.Hygienic ∧ b.Hygienic
  | .funDecl f => f.Hygienic
  | .returnStmt _ v => ∀ e ∈ v, e.Hygienic
  | .classDecl n s ms => n.Declarable ∧ (∀ e ∈ s, e.Hygienic) ∧ FunDecl.AllHygienic ms

/-- Hygienic statements. -/
def Stmt.AllHygienic : List Stmt → Prop
  | [] => True
  | s :: rest => s.Hygienic ∧ Stmt.AllHygienic rest

/-- A hygienic function: its name, its parameters and its body. -/
def FunDecl.Hygienic : FunDecl → Prop
  | .mk n ps b => n.Declarable ∧ (∀ p ∈ ps, p.Declarable) ∧ Stmt.AllHygienic b

/-- Hygienic functions. -/
def FunDecl.AllHygienic : List FunDecl → Prop
  | [] => True
  | f :: rest => f.Hygienic ∧ FunDecl.AllHygienic rest

end

theorem FunDecl.Hygienic.name {f : FunDecl} (h : f.Hygienic) : f.name.Declarable := by
  obtain ⟨n, ps, b⟩ := f
  exact h.1

theorem FunDecl.Hygienic.params {f : FunDecl} (h : f.Hygienic) :
    ∀ p ∈ f.params, p.Declarable := by
  obtain ⟨n, ps, b⟩ := f
  exact h.2.1

theorem FunDecl.Hygienic.body {f : FunDecl} (h : f.Hygienic) : Stmt.AllHygienic f.body := by
  obtain ⟨n, ps, b⟩ := f
  exact h.2.2

theorem FunDecl.hygienic_of_mem :
    ∀ {ms : List FunDecl}, FunDecl.AllHygienic ms → ∀ m ∈ ms, m.Hygienic
  | _ :: _, ⟨hm, _⟩, _, .head _ => hm
  | _ :: _, ⟨_, hrest⟩, _, .tail _ hmem => FunDecl.hygienic_of_mem hrest _ hmem

/-- A class whose methods, and those of its superclasses, are hygienic. -/
def Klass.Hygienic : Klass → Prop
  | .mk _ none ms => ∀ p ∈ ms, p.2.decl.Hygienic
  | .mk _ (some k) ms => (∀ p ∈ ms, p.2.decl.Hygienic) ∧ k.Hygienic

/-- A value whose functions and classes are hygienic. -/
def Value.Hygienic : Value → Prop
  | .function c => c.decl.Hygienic
  | .klass k => k.Hygienic
  | .object _ k => k.Hygienic
  | _ => True

/-- How a statement finished, hygienic when the value it returned is. -/
def Completion.Hygienic : Completion → Prop
  | .normal => True
  | .returned v => v.Hygienic

theorem Klass.Hygienic.findMethod : ∀ {k : Klass} {name : String} {m : Closure}, k.Hygienic →
    k.findMethod name = some m → m.decl.Hygienic
  | .mk _ sup ms, name, m, h, hm => by
    have hown : ∀ p ∈ ms, p.2.decl.Hygienic := by
      cases sup with
      | none => exact h
      | some _ => exact h.1
    rw [Klass.findMethod.eq_def] at hm
    dsimp only at hm
    cases hl : ms.lookup name with
    | some c =>
      rw [hl] at hm
      cases hm
      obtain ⟨l₁, l₂, hms, -⟩ := List.lookup_eq_some_iff.mp hl
      exact hown (name, m) (by rw [hms]; simp)
    | none =>
      rw [hl] at hm
      cases sup with
      | none => simp at hm
      | some k => exact Klass.Hygienic.findMethod (k := k) h.2 hm

theorem Stmt.hygienic_ifElse {c : Expr} {t : Stmt} {e : Option Stmt} :
    (Stmt.ifElse c t e).Hygienic ↔ c.Hygienic ∧ t.Hygienic ∧ ∀ e' ∈ e, e'.Hygienic := by
  cases e <;> simp [Stmt.Hygienic]

theorem Value.Hygienic.ofConstant (c : Constant) : (Value.ofConstant c).Hygienic := by
  cases c <;> trivial

namespace Store

/-- Every value a store holds, in a frame or in a field, is hygienic. -/
structure Hygienic (s : Store) : Prop where
  slots : ∀ f name v, (s.frame f).slots.lookup name = some v → v.Hygienic
  fields : ∀ id name v, s.field? id name = some v → v.Hygienic

variable {s : Store}

theorem Hygienic.define (h : s.Hygienic) {f : Nat} {name : String} {v : Value}
    (hv : v.Hygienic) : (s.define f name v).Hygienic := by
  refine ⟨fun g key w hw => ?_, h.fields⟩
  rw [lookup_define] at hw
  split at hw
  · cases hw
    exact hv
  · exact h.slots g key w hw

theorem Hygienic.pushWith (h : s.Hygienic) {parent : Nat} {slots : List (String × Value)}
    (hslots : ∀ p ∈ slots, p.2.Hygienic) : (s.pushWith parent slots).2.Hygienic := by
  refine ⟨fun g key w hw => ?_, h.fields⟩
  by_cases hg : g = s.frames.size
  · subst hg
    rw [frame_pushWith_self] at hw
    exact hslots (key, w) (lookup_putAll_mem hw)
  · rw [frame_pushWith_ne s parent slots hg] at hw
    exact h.slots g key w hw

theorem Hygienic.newObject (h : s.Hygienic) : s.newObject.2.Hygienic :=
  ⟨h.slots, fun id key w hw => h.fields id key w (field?_newObject hw)⟩

theorem Hygienic.setField (h : s.Hygienic) {id : Nat} {name : String} {v : Value}
    (hv : v.Hygienic) : (s.setField id name v).Hygienic := by
  refine ⟨h.slots, fun id' key w hw => ?_⟩
  rcases field?_setField hw with rfl | hold
  · exact hv
  · exact h.fields id' key w hold

theorem Hygienic.getAt (h : s.Hygienic) {f d : Nat} {name : String} {v : Value}
    (hv : s.getAt f d name = .ok v) : v.Hygienic :=
  let ⟨g, hg⟩ := getAt_frame hv
  h.slots g name v hg

theorem Hygienic.lookup (h : s.Hygienic) {f : Nat} {name : String} {v : Value}
    (hv : s.lookup f name = some v) : v.Hygienic :=
  let ⟨g, hg⟩ := lookupWith_frame hv
  h.slots g name v hg

/-- The store a session starts with binds only the native functions. -/
theorem hygienic_initial : Store.initial.Hygienic := by
  refine ⟨fun g key w hw => ?_, fun id key w hw => by simp [field?, Store.initial] at hw⟩
  have hmem := mem_of_lookup_eq_some hw
  cases g with
  | zero =>
    have hw' : w = .native .clock := by simp [Store.initial, frame] at hmem; exact hmem.2
    subst hw'
    trivial
  | succ g =>
    rw [frame_of_size_le (by simp [Store.initial])] at hmem
    simp at hmem

/-- What a later store keeps of an earlier one beyond growing it: every frame binds `this` and
`super` to what it bound before. -/
structure Keeps (s s' : Store) : Prop where
  grows : s.Grows s'
  reserved : ∀ f x v, Reserved x → (s.frame f).slots.lookup x = some v →
    (s'.frame f).slots.lookup x = some v

theorem Keeps.refl (s : Store) : s.Keeps s := ⟨Grows.refl s, fun _ _ _ _ h => h⟩

theorem Keeps.trans {s₁ s₂ s₃ : Store} (h₁ : s₁.Keeps s₂) (h₂ : s₂.Keeps s₃) : s₁.Keeps s₃ :=
  ⟨h₁.grows.trans h₂.grows, fun f x v hx h => h₂.reserved f x v hx (h₁.reserved f x v hx h)⟩

/-- Binding a name that is not reserved keeps the reserved ones. -/
theorem Keeps.define (s : Store) (f : Nat) {name : String} (v : Value) (h : ¬ Reserved name) :
    s.Keeps (s.define f name v) := by
  refine ⟨Grows.define s f name v, fun g x w hx hw => ?_⟩
  have hne : x ≠ name := fun heq => h (heq ▸ hx)
  rw [lookup_define, if_neg fun hc => hne hc.2.2]
  exact hw

theorem Keeps.pushWith (s : Store) (parent : Nat) (slots : List (String × Value)) :
    s.Keeps (s.pushWith parent slots).2 := by
  refine ⟨Grows.pushWith s parent slots, fun g x w _ hw => ?_⟩
  by_cases hg : g = s.frames.size
  · subst hg
    rw [frame_of_size_le (Nat.le_refl _)] at hw
    simp at hw
  · rw [frame_pushWith_ne s parent slots hg]
    exact hw

theorem Keeps.of_frames {s s' : Store} (h : s'.frames = s.frames) : s.Keeps s' :=
  ⟨Grows.of_frames h, fun f x v _ hw => by simpa [frame, h] using hw⟩

end Store

namespace Run

variable {α β : Type} {Q Q' : α → Prop}

/-- How a step may end, run from a machine with store `s`: in a hygienic store that keeps `s`,
with a result satisfying `Q` on success. -/
def KeptEnds (s : Store) (Q : α → Prop) : EStateM.Result Failure Machine α → Prop
  | .ok a m => s.Keeps m.store ∧ m.store.Hygienic ∧ Q a
  | .error _ m => s.Keeps m.store ∧ m.store.Hygienic

/-- Run from any machine whose store is hygienic, the step ends as `KeptEnds` says. -/
def Kept (x : Run α) (Q : α → Prop) : Prop :=
  ∀ m : Machine, m.store.Hygienic → KeptEnds m.store Q (x m)

theorem KeptEnds.keep {s s' : Store} {r : EStateM.Result Failure Machine α} (hk : s.Keeps s')
    (h : KeptEnds s' Q r) : KeptEnds s Q r := by
  cases r with
  | ok a m => exact ⟨hk.trans h.1, h.2⟩
  | error e m => exact ⟨hk.trans h.1, h.2⟩

theorem Kept.bind {x : Run α} {f : α → Run β} {R : α → Prop} {Q : β → Prop}
    (hx : Kept x R) (hf : ∀ a, R a → Kept (f a) Q) : Kept (x >>= f) Q := by
  intro m hm
  have hxm := hx m hm
  rw [run_bind]
  cases hr : x m with
  | ok a m' =>
    rw [hr] at hxm
    exact (hf a hxm.2.2 m' hxm.2.1).keep hxm.1
  | error e m' =>
    rw [hr] at hxm
    exact hxm

theorem Kept.pure {a : α} (h : Q a) : Kept (Pure.pure a : Run α) Q :=
  fun _ hm => ⟨Store.Keeps.refl _, hm, h⟩

theorem Kept.pure_bind {a : β} {k : β → Run α} (h : Kept (k a) Q) :
    Kept (Pure.pure a >>= k) Q :=
  h

theorem Kept.throw {e : Failure} : Kept (throw e : Run α) Q :=
  fun _ hm => ⟨Store.Keeps.refl _, hm⟩

theorem Kept.fail {err : RuntimeError} : Kept (Run.fail err : Run α) Q :=
  Kept.throw

theorem Kept.fail_bind {β : Type} {err : RuntimeError} {k : β → Run α} :
    Kept (Run.fail err >>= k) Q :=
  fun _ hm => ⟨Store.Keeps.refl _, hm⟩

theorem Kept.ite_fail {c : Prop} [Decidable c] {err : RuntimeError} {k : PUnit → Run α}
    (hk : Kept (k ()) Q) : Kept (if c then Run.fail err >>= k else k ()) Q := by
  split
  · exact Kept.fail_bind
  · exact hk

theorem Kept.weaken {x : Run α} (hx : Kept x Q) (h : ∀ a, Q a → Q' a) : Kept x Q' := by
  intro m hm
  have hxm := hx m hm
  revert hxm
  cases x m with
  | ok a m' => exact fun hxm => ⟨hxm.1, hxm.2.1, h a hxm.2.2⟩
  | error e m' => exact id

theorem Kept.get_bind {f : Machine → Run α} (h : ∀ m : Machine, m.store.Hygienic → Kept (f m) Q) :
    Kept (get >>= f) Q :=
  fun m hm => h m hm m hm

theorem Kept.modify_bind {g : Machine → Machine} {k : PUnit → Run α}
    (hg : ∀ m, (g m).store = m.store) (hk : Kept (k ⟨⟩) Q) : Kept (modify g >>= k) Q := by
  intro m hm
  have h := hk (g m) (by rw [hg]; exact hm)
  rw [hg] at h
  exact h

theorem Kept.note_bind {level : Nat} {line : Unit → String} {k : PUnit → Run α}
    (hk : Kept (k ⟨⟩) Q) : Kept (note level line >>= k) Q :=
  Kept.modify_bind (fun m => by by_cases h : m.level ≥ level <;> simp [h]) hk

theorem Kept.emit_bind {text : String} {k : PUnit → Run α} (hk : Kept (k ⟨⟩) Q) :
    Kept (emit text >>= k) Q :=
  Kept.modify_bind (fun _ => rfl) hk

theorem Kept.change_bind {g : Store → Store} {k : PUnit → Run α}
    (hg : ∀ s, s.Hygienic → s.Keeps (g s) ∧ (g s).Hygienic) (hk : Kept (k ⟨⟩) Q) :
    Kept (change g >>= k) Q := by
  intro m hm
  obtain ⟨hkeep, hm'⟩ := hg m.store hm
  exact (hk { m with store := g m.store } hm').keep hkeep

theorem Kept.change {g : Store → Store} {Q₀ : Unit → Prop} (h : Q₀ ())
    (hg : ∀ s, s.Hygienic → s.Keeps (g s) ∧ (g s).Hygienic) : Kept (Run.change g) Q₀ :=
  fun m hm => ⟨(hg m.store hm).1, (hg m.store hm).2, h⟩

theorem Kept.pushFrame_bind {parent : Nat} {slots : List (String × Value)} {k : Nat → Run α}
    (hslots : ∀ p ∈ slots, p.2.Hygienic) (hk : ∀ f, Kept (k f) Q) :
    Kept (pushFrame parent slots >>= k) Q :=
  fun m hm => (hk m.store.frames.size { m with store := (m.store.pushWith parent slots).2 }
    (hm.pushWith hslots)).keep (Store.Keeps.pushWith _ _ _)

theorem Kept.newObject_bind {k : Nat → Run α} (hk : ∀ id, Kept (k id) Q) :
    Kept ((modifyGet fun m =>
      let (id, s) := m.store.newObject
      (id, { m with store := s })) >>= k) Q := by
  intro m hm
  have hkeep : m.store.Keeps m.store.newObject.2 := Store.Keeps.of_frames rfl
  exact (hk m.store.objects.size { m with store := m.store.newObject.2 } hm.newObject).keep hkeep

theorem Kept.lift {e : Except Fault α} (h : ∀ a, e = .ok a → Q a) : Kept (lift e) Q := by
  cases e with
  | ok a => exact Kept.pure (h a rfl)
  | error f => exact Kept.throw

theorem Kept.lift_bind {β : Type} {e : Except Fault β} {k : β → Run α}
    (hk : ∀ a, e = .ok a → Kept (k a) Q) : Kept (Run.lift e >>= k) Q := by
  cases e with
  | ok a => exact hk a rfl
  | error f => exact fun _ hm => ⟨Store.Keeps.refl _, hm⟩

theorem lookUp_kept (name : Token) (d : Option Nat) (env : Nat) :
    Kept (lookUp name d env) Value.Hygienic := by
  unfold lookUp
  refine Kept.get_bind fun m hm => ?_
  cases d with
  | some k => exact Kept.lift fun v hv => hm.getAt hv
  | none =>
    dsimp only
    split
    · next v hv => exact Kept.pure (hm.lookup hv)
    · exact Kept.fail

/-- Assigning a name that is not reserved keeps the reserved ones, wherever it lands. -/
theorem assignTo_kept {name : Token} (hname : name.Declarable) (d : Option Nat) (env : Nat)
    {v : Value} (hv : v.Hygienic) : Kept (assignTo name d env v) fun _ => True := by
  have hframe : Kept (bindingFrame name d env) fun _ => True := by
    unfold bindingFrame
    refine Kept.get_bind fun m _ => ?_
    cases d with
    | some k => exact Kept.lift fun _ _ => trivial
    | none =>
      dsimp only
      split
      · exact Kept.pure trivial
      · exact Kept.fail
  refine hframe.bind fun target _ => Kept.change trivial fun s hs => ?_
  exact ⟨Store.Keeps.define s target v hname.not_reserved, hs.define hv⟩

theorem unaryOp_kept (op : Token) (v : Value) : Kept (unaryOp op v) Value.Hygienic := by
  unfold unaryOp
  split
  · exact Kept.pure trivial
  · split
    · exact Kept.pure trivial
    · exact Kept.fail
  · exact Kept.fail

theorem binaryOp_kept (op : Token) (a b : Value) : Kept (binaryOp op a b) Value.Hygienic := by
  have hnumeric : ∀ (f : Float → Float → Value), (∀ x y, (f x y).Hygienic) →
      Kept (numeric op a b f) Value.Hygienic := by
    intro f hf
    unfold numeric
    split
    · exact Kept.pure (hf _ _)
    · exact Kept.fail
  unfold binaryOp
  split <;> first
    | exact hnumeric _ fun _ _ => trivial
    | exact Kept.fail
    | split <;> first | exact Kept.pure trivial | exact Kept.fail

theorem bindMethod_kept (c : Closure) {receiver : Value} (hr : receiver.Hygienic) :
    Kept (bindMethod c receiver) fun c' => c'.decl = c.decl := by
  unfold bindMethod
  refine Kept.pushFrame_bind (fun p hp => ?_) fun f => Kept.pure rfl
  rw [List.mem_singleton.mp hp]
  exact hr

/-- Declaring a class of hygienic methods under a hygienic superclass. -/
theorem defineClass_kept {env : Nat} {name : Token} (hname : name.Declarable) {sup : Option Klass}
    (hsup : ∀ k ∈ sup, k.Hygienic) {ms : List FunDecl} (hms : FunDecl.AllHygienic ms) :
    Kept (defineClass env name sup ms) Completion.Hygienic := by
  unfold defineClass
  refine Kept.change_bind (fun s hs => ⟨Store.Keeps.define s env _ hname.not_reserved,
    hs.define trivial⟩) ?_
  have hframe : Kept (methodFrame env sup) fun _ => True := by
    cases sup with
    | none => exact Kept.pure trivial
    | some k =>
      refine fun m hm => ⟨Store.Keeps.pushWith _ _ _, hm.pushWith fun p hp => ?_, trivial⟩
      rw [List.mem_singleton.mp hp]
      exact hsup k rfl
  refine hframe.bind fun methodEnv _ => ?_
  -- the class closes its declared methods over that frame
  have hk : Klass.Hygienic ⟨name.lexeme, sup, methodTable ms methodEnv⟩ := by
    have hmethods : ∀ p ∈ methodTable ms methodEnv, p.2.decl.Hygienic :=
      methodTable_forall (R := fun c => c.decl.Hygienic) fun m hm =>
        FunDecl.hygienic_of_mem hms m hm
    cases sup with
    | none => exact hmethods
    | some k => exact ⟨hmethods, hsup k rfl⟩
  dsimp only
  refine Kept.get_bind fun m _ => ?_
  split
  · refine Kept.change_bind (fun s hs => ⟨Store.Keeps.define s _ _ hname.not_reserved,
      hs.define hk⟩) (Kept.note_bind (Kept.pure trivial))
  · exact Kept.fail_bind

/-- Every function of the evaluator, given `fuel` steps and run on hygienic trees and values from
a hygienic store, keeps the bindings of `this` and `super` and stores only hygienic values. -/
structure KeptAt (fuel : Nat) : Prop where
  eval : ∀ depth env (e : Expr), e.Hygienic → Kept (Run.eval fuel depth env e) Value.Hygienic
  evalArgs : ∀ depth env es, Expr.AllHygienic es →
    Kept (Run.evalArgs fuel depth env es) fun vs => ∀ v ∈ vs, v.Hygienic
  invoke : ∀ depth paren (f : Value) (args : List Value), f.Hygienic → (∀ v ∈ args, v.Hygienic) →
    Kept (Run.invoke fuel depth paren f args) Value.Hygienic
  callClosure : ∀ depth paren (c : Closure) (args : List Value), c.decl.Hygienic →
    (∀ v ∈ args, v.Hygienic) → Kept (Run.callClosure fuel depth paren c args) Value.Hygienic
  exec : ∀ depth env (st : Stmt), st.Hygienic →
    Kept (Run.exec fuel depth env st) Completion.Hygienic
  execList : ∀ depth env ss, Stmt.AllHygienic ss →
    Kept (Run.execList fuel depth env ss) Completion.Hygienic
  loop : ∀ depth env cond (body : Stmt), cond.Hygienic → body.Hygienic →
    Kept (Run.loop fuel depth env cond body) Completion.Hygienic

theorem keptAt_zero : KeptAt 0 where
  eval _ _ _ _ := by rw [eval]; exact Kept.throw
  evalArgs _ _ _ _ := by rw [evalArgs]; exact Kept.throw
  invoke _ _ _ _ _ _ := by rw [invoke]; exact Kept.throw
  callClosure _ _ _ _ _ _ := by rw [callClosure]; exact Kept.throw
  exec _ _ _ _ := by rw [exec]; exact Kept.throw
  execList _ _ _ _ := by rw [execList]; exact Kept.throw
  loop _ _ _ _ _ _ := by rw [loop]; exact Kept.throw

variable {fuel : Nat}

theorem KeptAt.eval_succ (h : KeptAt fuel) (depth env : Nat) (e : Expr) (he : e.Hygienic) :
    Kept (Run.eval (fuel + 1) depth env e) Value.Hygienic := by
  cases e with
  | literal c =>
    rw [Run.eval]
    exact Kept.pure (Value.Hygienic.ofConstant c)
  | grouping inner =>
    rw [Run.eval]
    exact h.eval _ _ inner he
  | var name d =>
    rw [Run.eval]
    exact lookUp_kept name d env
  | assign name value d =>
    rw [Run.eval]
    exact (h.eval _ _ value he.2).bind fun v hv =>
      (assignTo_kept he.1 d env hv).bind fun _ _ => Kept.pure hv
  | unary op operand =>
    rw [Run.eval]
    exact (h.eval _ _ operand he).bind fun v _ => unaryOp_kept op v
  | logical left op right =>
    rw [Run.eval]
    refine (h.eval _ _ left he.1).bind fun l hl => ?_
    split <;> split
    all_goals first | exact Kept.pure hl | exact h.eval _ _ right he.2
  | binary left op right =>
    rw [Run.eval]
    exact (h.eval _ _ left he.1).bind fun l _ =>
      (h.eval _ _ right he.2).bind fun r _ => binaryOp_kept op l r
  | call callee paren args =>
    rw [Run.eval]
    refine (h.eval _ _ callee he.1).bind fun f hf => ?_
    split
    · exact Kept.fail
    · refine (h.evalArgs _ _ args he.2).bind fun vs hvs => ?_
      exact Kept.ite_fail (Kept.note_bind (h.invoke _ _ f vs hf hvs))
  | get object name =>
    rw [Run.eval]
    refine (h.eval _ _ object he).bind fun o ho => ?_
    split
    · next id k =>
      refine Kept.get_bind fun m hm => ?_
      split
      · next v hv => exact Kept.pure (hm.fields id _ v hv)
      · split
        · next c hc =>
          exact (bindMethod_kept c ho).bind fun c' hc' =>
            Kept.pure (show c'.decl.Hygienic from hc' ▸ Klass.Hygienic.findMethod ho hc)
        · exact Kept.fail
    · exact Kept.fail
  | set object name value =>
    rw [Run.eval]
    refine (h.eval _ _ object he.1).bind fun o _ => ?_
    split
    · next id k =>
      refine (h.eval _ _ value he.2).bind fun v hv => ?_
      exact Kept.change_bind (fun s hs => ⟨Store.Keeps.of_frames rfl, hs.setField hv⟩)
        (Kept.pure hv)
    · exact Kept.fail
  | thisRef keyword d =>
    rw [Run.eval]
    exact lookUp_kept keyword d env
  | superMethod keyword method d =>
    cases d with
    | none =>
      rw [Run.eval]
      exact Kept.fail
    | some k =>
      rw [Run.eval]
      refine Kept.get_bind fun m hm => ?_
      refine Kept.lift_bind fun sup hsup => Kept.lift_bind fun receiver hrecv => ?_
      split
      · next c =>
        have hc : c.Hygienic := hm.getAt hsup
        split
        · next c' hc' =>
          exact (bindMethod_kept c' (hm.getAt hrecv)).bind fun c'' hc'' =>
            Kept.pure (show c''.decl.Hygienic from hc'' ▸ Klass.Hygienic.findMethod hc hc')
        · exact Kept.fail
      · exact Kept.throw

theorem KeptAt.evalArgs_succ (h : KeptAt fuel) (depth env : Nat) :
    ∀ (es : List Expr), Expr.AllHygienic es →
      Kept (Run.evalArgs (fuel + 1) depth env es) fun vs => ∀ v ∈ vs, v.Hygienic := by
  intro es hes
  cases es with
  | nil =>
    rw [Run.evalArgs]
    · exact Kept.pure fun _ hv => absurd hv List.not_mem_nil
    · exact Nat.succ_ne_zero fuel
  | cons a rest =>
    obtain ⟨ha, hrest⟩ := hes
    rw [Run.evalArgs]
    refine (h.eval _ _ a ha).bind fun v hv => (h.evalArgs _ _ rest hrest).bind fun vs hvs =>
      Kept.pure fun w hw => ?_
    rcases List.mem_cons.mp hw with rfl | hw
    · exact hv
    · exact hvs w hw

theorem KeptAt.callClosure_succ (h : KeptAt fuel) (depth : Nat) (paren : Token) (c : Closure)
    (args : List Value) (hc : c.decl.Hygienic) (hargs : ∀ v ∈ args, v.Hygienic) :
    Kept (Run.callClosure (fuel + 1) depth paren c args) Value.Hygienic := by
  rw [Run.callClosure]
  refine Kept.ite_fail (Kept.pushFrame_bind (fun p hp => hargs _ (mem_params_zip hp)) fun f => ?_)
  refine (h.execList _ f c.decl.body hc.body).bind fun r hr => ?_
  split
  · exact Kept.get_bind fun m hm => Kept.lift fun v hv => hm.getAt hv
  · split
    · exact Kept.pure hr
    · exact Kept.pure trivial

theorem KeptAt.invoke_succ (h : KeptAt fuel) (depth : Nat) (paren : Token) (f : Value)
    (args : List Value) (hf : f.Hygienic) (hargs : ∀ v ∈ args, v.Hygienic) :
    Kept (Run.invoke (fuel + 1) depth paren f args) Value.Hygienic := by
  cases f with
  | native n =>
    cases n
    rw [Run.invoke]
    exact Kept.get_bind fun _ _ => Kept.pure trivial
  | function c =>
    rw [Run.invoke]
    exact h.callClosure _ _ c args hf hargs
  | klass k =>
    rw [Run.invoke]
    refine Kept.newObject_bind fun id => ?_
    split
    · next init hinit =>
      refine (bindMethod_kept init (show (Value.object id k).Hygienic from hf)).bind
        fun bound hbound => ?_
      have hdecl : bound.decl.Hygienic := hbound ▸ Klass.Hygienic.findMethod hf hinit
      exact (h.callClosure _ _ bound args hdecl hargs).bind fun _ _ => Kept.pure hf
    · exact Kept.pure hf
  | _ =>
    simp only [Run.invoke]
    exact Kept.fail

theorem KeptAt.exec_succ (h : KeptAt fuel) (depth env : Nat) (st : Stmt) (hs : st.Hygienic) :
    Kept (Run.exec (fuel + 1) depth env st) Completion.Hygienic := by
  cases st with
  | expr e =>
    rw [Run.exec]
    exact (h.eval _ _ e hs).bind fun _ _ => Kept.pure trivial
  | print e =>
    rw [Run.exec]
    exact (h.eval _ _ e hs).bind fun _ _ => Kept.emit_bind (Kept.pure trivial)
  | varDecl name init =>
    -- once the initial value is known, the name is bound to it in the frame
    have hdefine : ∀ v : Value, v.Hygienic → Kept (do
        change (·.define env name.lexeme v)
        note 2 fun _ => "declare " ++ name.lexeme ++ " = " ++ v.text
        pure Completion.normal) Completion.Hygienic := fun v hv =>
      Kept.change_bind (fun s hst => ⟨Store.Keeps.define s env v hs.1.not_reserved,
        hst.define hv⟩) (Kept.note_bind (Kept.pure trivial))
    cases init with
    | none =>
      rw [Run.exec]
      exact Kept.pure_bind (hdefine .nil trivial)
    | some e =>
      rw [Run.exec]
      exact (h.eval _ _ e (hs.2 e rfl)).bind hdefine
  | block body =>
    rw [Run.exec]
    exact Kept.pushFrame_bind (fun _ hp => absurd hp List.not_mem_nil) fun f => h.execList _ f body hs
  | ifElse cond thenBranch elseBranch =>
    obtain ⟨hc, ht, he⟩ := Stmt.hygienic_ifElse.mp hs
    -- the step's equations split on the else branch; unfold it whole instead
    rw [Run.exec.eq_def]
    dsimp only
    refine (h.eval _ _ cond hc).bind fun v _ => Kept.note_bind ?_
    split
    · exact h.exec _ _ thenBranch ht
    · cases elseBranch with
      | none => exact Kept.pure trivial
      | some e => exact h.exec _ _ e (he e rfl)
  | whileLoop cond body =>
    rw [Run.exec]
    exact h.loop _ _ cond body hs.1 hs.2
  | funDecl f =>
    rw [Run.exec]
    exact Kept.change_bind (fun s hst => ⟨Store.Keeps.define s env _ hs.name.not_reserved,
      hst.define hs⟩) (Kept.note_bind (Kept.pure trivial))
  | returnStmt keyword value =>
    cases value with
    | none =>
      rw [Run.exec]
      exact Kept.pure trivial
    | some e =>
      rw [Run.exec]
      exact (h.eval _ _ e (hs e rfl)).bind fun v hv => Kept.pure hv
  | classDecl name superclass methods =>
    obtain ⟨hname, hsup, hms⟩ := hs
    cases superclass with
    | none =>
      rw [Run.exec]
      exact Kept.pure_bind
        (defineClass_kept hname (fun _ hk => (Option.not_mem_none _ hk).elim) hms)
    | some e =>
      rw [Run.exec]
      refine (h.eval _ _ e (hsup e rfl)).bind fun v hv => ?_
      split
      · next k => exact defineClass_kept hname (fun _ hk => Option.some.inj hk ▸ hv) hms
      · exact Kept.fail_bind

theorem KeptAt.execList_succ (h : KeptAt fuel) (depth env : Nat) :
    ∀ (ss : List Stmt), Stmt.AllHygienic ss →
      Kept (Run.execList (fuel + 1) depth env ss) Completion.Hygienic
  | [], _ => by
    rw [Run.execList]
    · exact Kept.pure trivial
    · exact Nat.succ_ne_zero fuel
  | st :: rest, ⟨hst, hrest⟩ => by
    rw [Run.execList]
    refine (h.exec _ _ st hst).bind fun c hc => ?_
    split
    · exact h.execList _ _ rest hrest
    · exact Kept.pure hc

theorem KeptAt.loop_succ (h : KeptAt fuel) (depth env : Nat) (cond : Expr) (body : Stmt)
    (hc : cond.Hygienic) (hb : body.Hygienic) :
    Kept (Run.loop (fuel + 1) depth env cond body) Completion.Hygienic := by
  rw [Run.loop]
  refine (h.eval _ _ cond hc).bind fun v _ => ?_
  split
  · refine (h.exec _ _ body hb).bind fun c hcb => ?_
    split
    · exact h.loop _ _ cond body hc hb
    · exact Kept.pure hcb
  · exact Kept.pure trivial

theorem KeptAt.succ (h : KeptAt fuel) : KeptAt (fuel + 1) where
  eval := h.eval_succ
  evalArgs := h.evalArgs_succ
  invoke := h.invoke_succ
  callClosure := h.callClosure_succ
  exec := h.exec_succ
  execList := h.execList_succ
  loop := h.loop_succ

/-- With any number of steps, running hygienic trees keeps every binding of `this` and
`super`. -/
theorem keptAt : ∀ fuel, KeptAt fuel
  | 0 => keptAt_zero
  | fuel + 1 => (keptAt fuel).succ

end Run

end Lox
