import Lox.Session
import Lox.Proofs.Frames

/-!
# Resolved programs find their frames

A run keeps the store in step with the scopes the resolver used (`Store.Realizes`), keeps every
value it holds fitting it (`Store.Fits`), and only grows it. So a reference by depth always finds
its frame and its name: evaluating a resolved tree, with any number of steps, ends in a value, a
runtime error or a lack of steps, never in a `Fault` (`Run.safeAt`), and a session that runs a
resolved program keeps its store fitting (`Session.runProgram_sound`). Programs come resolved
from the parser and the resolver (`parseProgram_shaped`, `Program.resolve_resolvedIn`), so a
session running line after line never faults (`Session.runLines_sound`).

A read finds its name bound, since it must point to a complete declaration. An assignment needs
only its frame: in the initializer of the variable it assigns, it points to the scope where that
variable is declared but not complete, and binds the name in a frame that does not bind it yet
(`self_assignment_precedes_its_binding`).
-/

namespace Lox

/-- A failure that is no fault: a runtime error, a missing method table or running out of
steps. -/
def Failure.Benign : Failure → Prop
  | .fault _ => False
  | _ => True

namespace Run

variable {α β : Type} {P R : Store → Prop} {Q Q' : α → Store → Prop}

/-- How a step may end, run from a machine with store `s`: in a store that grows `s` and still
fits, with a result satisfying `Q` on success, and on failure with no fault. -/
def Ends (s : Store) (Q : α → Store → Prop) : EStateM.Result Failure Machine α → Prop
  | .ok a m => s.Grows m.store ∧ m.store.Fits ∧ Q a m.store
  | .error e m => s.Grows m.store ∧ m.store.Fits ∧ e.Benign

/-- Run from any machine whose store fits and satisfies `P`, the step ends as `Ends` says. -/
def Safe (P : Store → Prop) (x : Run α) (Q : α → Store → Prop) : Prop :=
  ∀ m : Machine, m.store.Fits → P m.store → Ends m.store Q (x m)

/-- A property of stores that growing keeps. -/
def Stable (R : Store → Prop) : Prop := ∀ s s' : Store, s.Grows s' → R s → R s'

theorem run_bind (x : Run α) (f : α → Run β) (m : Machine) :
    (x >>= f) m = match x m with
      | .ok a m' => f a m'
      | .error e m' => .error e m' := by
  show EStateM.bind x f m = _
  unfold EStateM.bind
  cases x m <;> rfl

theorem Ends.grow {s s' : Store} {r : EStateM.Result Failure Machine α} (hg : s.Grows s')
    (h : Ends s' Q r) : Ends s Q r := by
  cases r with
  | ok a m => exact ⟨hg.trans h.1, h.2⟩
  | error e m => exact ⟨hg.trans h.1, h.2⟩

theorem Safe.bind {x : Run α} {f : α → Run β} {R : α → Store → Prop} {Q : β → Store → Prop}
    (hx : Safe P x R) (hf : ∀ a, Safe (R a) (f a) Q) : Safe P (x >>= f) Q := by
  intro m hfit hP
  have hxm := hx m hfit hP
  rw [run_bind]
  cases hr : x m with
  | ok a m' =>
    rw [hr] at hxm
    exact (hf a m' hxm.2.1 hxm.2.2).grow hxm.1
  | error e m' =>
    rw [hr] at hxm
    exact hxm

theorem Safe.pure {a : α} (h : ∀ s, P s → Q a s) : Safe P (Pure.pure a : Run α) Q :=
  fun _ hfit hP => ⟨Store.Grows.refl _, hfit, h _ hP⟩

theorem Safe.pure_of_fits {a : α} (h : ∀ s, s.Fits → P s → Q a s) :
    Safe P (Pure.pure a : Run α) Q :=
  fun _ hfit hP => ⟨Store.Grows.refl _, hfit, h _ hfit hP⟩

theorem Safe.pure_bind {β : Type} {a : β} {k : β → Run α} (h : Safe P (k a) Q) :
    Safe P (Pure.pure a >>= k) Q :=
  h

theorem Safe.throw {e : Failure} (he : e.Benign) : Safe P (throw e : Run α) Q :=
  fun _ hfit _ => ⟨Store.Grows.refl _, hfit, he⟩

theorem Safe.fail (err : RuntimeError) : Safe P (Run.fail err : Run α) Q :=
  Safe.throw trivial

theorem Safe.fail_bind {β : Type} {err : RuntimeError} {k : β → Run α} :
    Safe P (Run.fail err >>= k) Q :=
  fun _ hfit _ => ⟨Store.Grows.refl _, hfit, trivial⟩

theorem Safe.ite_fail {c : Prop} [Decidable c] {err : RuntimeError} {k : PUnit → Run α}
    (hk : ¬c → Safe P (k ()) Q) : Safe P (if c then Run.fail err >>= k else k ()) Q := by
  split
  · exact Safe.fail_bind
  · next hc => exact hk hc

theorem Safe.weaken {P' : Store → Prop} {x : Run α} (hx : Safe P x Q) (hpre : ∀ s, P' s → P s)
    (hpost : ∀ a s, Q a s → Q' a s) : Safe P' x Q' := by
  intro m hfit hP
  have h := hx m hfit (hpre _ hP)
  revert h
  cases x m with
  | ok a m' => exact fun h => ⟨h.1, h.2.1, hpost _ _ h.2.2⟩
  | error e m' => exact id

theorem Safe.frame {x : Run α} (hx : Safe P x Q) (hR : Stable R) :
    Safe (fun s => P s ∧ R s) x fun a s => Q a s ∧ R s := by
  intro m hfit hP
  have h := hx m hfit hP.1
  revert h
  cases x m with
  | ok a m' => exact fun h => ⟨h.1, h.2.1, h.2.2, hR _ _ h.1 hP.2⟩
  | error e m' => exact id

theorem Safe.under {P' R : Store → Prop} {x : Run α} (hx : Safe P x Q) (hR : Stable R)
    (hpre : ∀ s, P' s → P s ∧ R s) : Safe P' x fun a s => Q a s ∧ R s :=
  (hx.frame hR).weaken hpre fun _ _ h => h

theorem Safe.keep {x : Run α} (hx : Safe P x Q) (hP : Stable P) :
    Safe P x fun a s => Q a s ∧ P s :=
  (hx.frame hP).weaken (fun _ h => ⟨h, h⟩) fun _ _ h => h

theorem Stable.and {R R' : Store → Prop} (hR : Stable R) (hR' : Stable R') :
    Stable fun s => R s ∧ R' s :=
  fun s s' hg h => ⟨hR s s' hg h.1, hR' s s' hg h.2⟩

theorem realizes_stable (env : Nat) (Γ : List Scope) : Stable (·.Realizes env Γ) :=
  fun _ _ hg h => h.grow hg

theorem fits_stable (v : Value) : Stable v.Fits := fun _ _ hg h => h.grow hg

theorem allFits_stable (vs : List Value) : Stable fun s => ∀ v ∈ vs, v.Fits s :=
  fun _ _ hg h v hv => (h v hv).grow hg

theorem klassFits_stable (k : Klass) : Stable k.Fits := fun _ _ hg h => h.grow hg

theorem Safe.get_bind_of {f : Machine → Run α}
    (h : ∀ m : Machine, m.store.Fits → P m.store → Safe (fun s => s = m.store) (f m) Q) :
    Safe P (get >>= f) Q :=
  fun m hfit hP => h m hfit hP m hfit rfl

theorem Safe.get_bind {f : Machine → Run α} (h : ∀ m : Machine, Safe (fun s => P s ∧ s = m.store) (f m) Q) :
    Safe P (get >>= f) Q :=
  fun m hfit hP => h m m hfit ⟨hP, rfl⟩

theorem Safe.modify_bind {g : Machine → Machine} {k : PUnit → Run α}
    (hg : ∀ m, (g m).store = m.store) (hk : Safe P (k ⟨⟩) Q) : Safe P (modify g >>= k) Q := by
  intro m hfit hP
  have h := hk (g m) (by rw [hg]; exact hfit) (by rw [hg]; exact hP)
  rw [hg] at h
  exact h

theorem Safe.note_bind {level : Nat} {line : Unit → String} {k : PUnit → Run α}
    (hk : Safe P (k ⟨⟩) Q) : Safe P (note level line >>= k) Q :=
  Safe.modify_bind (fun m => by by_cases h : m.level ≥ level <;> simp [h]) hk

theorem Safe.emit_bind {text : String} {k : PUnit → Run α} (hk : Safe P (k ⟨⟩) Q) :
    Safe P (emit text >>= k) Q :=
  Safe.modify_bind (fun _ => rfl) hk

theorem Safe.change_bind {g : Store → Store} {k : PUnit → Run α} {R : Store → Prop}
    (hg : ∀ s, s.Fits → P s → s.Grows (g s) ∧ (g s).Fits ∧ R (g s)) (hk : Safe R (k ⟨⟩) Q) :
    Safe P (change g >>= k) Q := by
  intro m hfit hP
  obtain ⟨hgrow, hfit', hP'⟩ := hg m.store hfit hP
  exact (hk { m with store := g m.store } hfit' hP').grow hgrow

theorem Safe.change {g : Store → Store} {Q₀ : Unit → Store → Prop}
    (hg : ∀ s, s.Fits → P s → s.Grows (g s) ∧ (g s).Fits ∧ Q₀ () (g s)) :
    Safe P (Run.change g) Q₀ := by
  intro m hfit hP
  exact hg m.store hfit hP

theorem Safe.define_bind {env : Nat} {Γ : List Scope} {name : String} {v : Value}
    {k : PUnit → Run α}
    (hk : Safe (·.Realizes env (putInnermost Γ name true)) (k ⟨⟩) Q) :
    Safe (fun s => v.Fits s ∧ s.Realizes env Γ) (Run.change (·.define env name v) >>= k) Q := by
  refine Safe.change_bind (fun s hfit ⟨hv, hR⟩ => ?_) hk
  have hgrow := Store.Grows.define s env name v
  exact ⟨hgrow, hfit.define (hv.grow hgrow), hR.define_self _ _⟩

theorem Safe.pushFrame_bind {parent : Nat} {slots : List (String × Value)} {k : Nat → Run α}
    (hslots : ∀ s, P s → ∀ p ∈ slots, p.2.Fits s)
    (hk : ∀ f, Safe (fun s' => ∃ s, P s ∧ f = s.frames.size ∧ s' = (s.pushWith parent slots).2)
      (k f) Q) :
    Safe P (pushFrame parent slots >>= k) Q := by
  intro m hfit hP
  have hgrow := Store.Grows.pushWith m.store parent slots
  exact (hk m.store.frames.size { m with store := (m.store.pushWith parent slots).2 }
    (hfit.pushWith (hslots _ hP)) ⟨m.store, hP, rfl, rfl⟩).grow hgrow

theorem Safe.pushFrame {parent : Nat} {slots : List (String × Value)} {Q₀ : Nat → Store → Prop}
    (hslots : ∀ s, P s → ∀ p ∈ slots, p.2.Fits s)
    (hQ : ∀ s, P s → Q₀ s.frames.size (s.pushWith parent slots).2) :
    Safe P (Run.pushFrame parent slots) Q₀ :=
  fun _ hfit hP =>
    ⟨Store.Grows.pushWith _ _ _, hfit.pushWith (hslots _ hP), hQ _ hP⟩

theorem Safe.newObject_bind {k : Nat → Run α}
    (hk : ∀ id, Safe (fun s' => ∃ s, P s ∧ s' = s.newObject.2) (k id) Q) :
    Safe P ((modifyGet fun m =>
      let (id, s) := m.store.newObject
      (id, { m with store := s })) >>= k) Q := by
  intro m hfit hP
  have hgrow : m.store.Grows m.store.newObject.2 := Store.Grows.of_frames rfl
  exact (hk m.store.objects.size { m with store := m.store.newObject.2 } hfit.newObject
    ⟨m.store, hP, rfl⟩).grow hgrow

theorem lift_ok {a : α} : lift (.ok a : Except Fault α) = (Pure.pure a : Run α) := rfl

theorem Safe.lift_ok_bind {β : Type} {e : Except Fault β} {a : β} {k : β → Run α}
    (he : e = .ok a) (hk : Safe P (k a) Q) : Safe P (lift e >>= k) Q := by
  rw [he]
  exact hk

theorem Safe.lift_ok {e : Except Fault α} {a : α} (he : e = .ok a) (h : ∀ s, s.Fits → P s → Q a s) :
    Safe P (lift e) Q := by
  rw [he]
  exact Safe.pure_of_fits h

theorem Safe.ok_of_run {P : Store → Prop} {Q : α → Store → Prop} {x : Run α} (hx : Safe P x Q)
    {m m' : Machine} {a : α} (h : x.run m = .ok a m') (hfit : m.store.Fits) (hP : P m.store) :
    m'.store.Fits ∧ Q a m'.store := by
  have hends := hx m hfit hP
  rw [show x m = _ from h] at hends
  exact hends.2

theorem Safe.error_of_run {P : Store → Prop} {Q : α → Store → Prop} {x : Run α}
    (hx : Safe P x Q) {m m' : Machine} {e : Failure} (h : x.run m = .error e m')
    (hfit : m.store.Fits) (hP : P m.store) : m'.store.Fits ∧ e.Benign := by
  have hends := hx m hfit hP
  rw [show x m = _ from h] at hends
  exact hends.2

/-- Reading a reference: by depth, where a complete declaration stands, or among the globals. -/
theorem lookUp_safe {name : Token} {d : Option Nat} {env : Nat} {Γ : List Scope}
    (hd : ∀ k ∈ d, declaredAt Γ k name.lexeme = some true) :
    Safe (·.Realizes env Γ) (lookUp name d env) fun v s => v.Fits s := by
  unfold lookUp
  refine Safe.get_bind fun m => ?_
  cases d with
  | some k =>
    rintro m' hfit ⟨hR, hs⟩
    dsimp only
    obtain ⟨v, hv⟩ := hR.getAt (hd k rfl)
    rw [← hs, hv, lift_ok]
    exact ⟨Store.Grows.refl _, hfit, hfit.getAt hv⟩
  | none =>
    dsimp only
    split
    · next v hv =>
      refine Safe.pure_of_fits fun s hfit h => ?_
      obtain ⟨_, hs⟩ := h
      subst hs
      obtain ⟨g, hg⟩ := Store.lookupWith_frame hv
      exact hfit.slots g _ v hg
    · exact Safe.fail _

theorem bindingFrame_safe {name : Token} {d : Option Nat} {env : Nat} {Γ : List Scope}
    (hd : ∀ k ∈ d, k < Γ.length) (hP : ∀ s, P s → s.Realizes env Γ) :
    Safe P (bindingFrame name d env) fun _ => P := by
  unfold bindingFrame
  refine Safe.get_bind fun m => ?_
  cases d with
  | some k =>
    intro m' hfit ⟨hR, hs⟩
    dsimp only
    obtain ⟨a, ha⟩ := (hP _ hR).ancestor_exists (hd k rfl)
    rw [← hs, ha, lift_ok]
    exact ⟨Store.Grows.refl _, hfit, hR⟩
  | none =>
    dsimp only
    split
    · exact Safe.pure fun _ h => h.1
    · exact Safe.fail _

theorem assignTo_safe {name : Token} {d : Option Nat} {env : Nat} {Γ : List Scope} {v : Value}
    (hd : Refers Γ name.lexeme d) :
    Safe (fun s => v.Fits s ∧ s.Realizes env Γ) (assignTo name d env v) fun _ s => v.Fits s := by
  have hlt : ∀ k ∈ d, k < Γ.length := by
    intro k hk
    rw [Option.mem_def] at hk
    subst hk
    exact declaredAt_lt hd.1
  refine (bindingFrame_safe hlt fun _ h => h.2).bind fun target => Safe.change ?_
  intro s hfit ⟨hv, _⟩
  have hgrow := Store.Grows.define s target name.lexeme v
  exact ⟨hgrow, hfit.define (hv.grow hgrow), hv.grow hgrow⟩

theorem unaryOp_safe (op : Token) (v : Value) :
    Safe P (unaryOp op v) fun w s => w.Fits s := by
  unfold unaryOp
  split
  · exact Safe.pure fun _ _ => trivial
  · split
    · exact Safe.pure fun _ _ => trivial
    · exact Safe.fail _
  · exact Safe.fail _

theorem numeric_safe (op : Token) (a b : Value) (f : Float → Float → Value)
    (hf : ∀ x y, ∀ s, (f x y).Fits s) :
    Safe P (numeric op a b f) fun w s => w.Fits s := by
  unfold numeric
  split
  · exact Safe.pure fun s _ => hf _ _ s
  · exact Safe.fail _

theorem binaryOp_safe (op : Token) (a b : Value) :
    Safe P (binaryOp op a b) fun w s => w.Fits s := by
  unfold binaryOp
  split <;> first
    | exact numeric_safe _ _ _ _ fun _ _ _ => trivial
    | exact Safe.fail _
    | split <;> first | exact Safe.pure fun _ _ => trivial | exact Safe.fail _

theorem bindMethod_safe (c : Closure) (receiver : Value) :
    Safe (fun s => c.FitsMethod s ∧ receiver.Fits s) (bindMethod c receiver)
      fun c' s => c'.Fits s ∧ c'.decl = c.decl := by
  unfold bindMethod
  refine Safe.pushFrame_bind (fun s h p hp => ?_) fun f => Safe.pure ?_
  · simp only [List.mem_singleton] at hp
    subst hp
    exact h.2
  · rintro s' ⟨s, ⟨⟨Γ, hΓ, hdecl⟩, _⟩, rfl, rfl⟩
    have hthis : ∀ name, List.lookup name [("this", true)] = some true →
        name ∈ [("this", receiver)].map (·.1) := by
      intro name hname
      rw [lookup_singleton] at hname
      split at hname
      · simp [*]
      · cases hname
    refine ⟨⟨⟨_, hΓ.pushWith hthis, hdecl⟩, fun _ => ?_⟩, rfl⟩
    show (((s.pushWith c.frame [("this", receiver)]).2.frame s.frames.size).slots.lookup "this").isSome
    rw [Store.frame_pushWith_self]
    simp [Store.putAll, Store.put]

theorem mem_params_zip {params : List Token} {args : List Value} {p : String × Value}
    (hp : p ∈ (params.zip args).map fun x => (x.1.lexeme, x.2)) : p.2 ∈ args := by
  obtain ⟨⟨q, v⟩, hqv, rfl⟩ := List.mem_map.mp hp
  exact List.of_mem_zip hqv |>.2

theorem names_params_zip {params : List Token} {args : List Value}
    (hlen : args.length = params.length) :
    ((params.zip args).map fun x => (x.1.lexeme, x.2)).map (·.1) = params.map (·.lexeme) := by
  have hcomp : ((·.1) ∘ fun (x : Token × Value) => (x.1.lexeme, x.2)) = (·.lexeme) ∘ Prod.fst :=
    rfl
  rw [List.map_map, hcomp, ← List.map_map, List.map_fst_zip (Nat.le_of_eq hlen.symm)]

theorem methodTable_forall {R : Closure → Prop} {ms : List FunDecl} {env : Nat}
    (h : ∀ m ∈ ms, R ⟨m, env, m.name.lexeme == "init"⟩) : ∀ p ∈ methodTable ms env, R p.2 := by
  refine foldl_invariant (I := fun (acc : List (String × Closure)) => ∀ p ∈ acc, R p.2) ms [] nofun ?_
  intro acc m hm hacc p hp
  -- a method either replaces one of the same name in its place or comes last
  dsimp only at hp
  split at hp
  · obtain ⟨⟨k, c⟩, hkc, rfl⟩ := List.mem_map.mp hp
    dsimp only
    split
    · exact h m hm
    · exact hacc _ hkc
  · rcases List.mem_append.mp hp with hp | hp
    · exact hacc p hp
    · rw [List.mem_singleton.mp hp]
      exact h m hm

/-- The frame the methods close over stands for the scopes outside the class, with one holding
`super` when there is a superclass. -/
theorem methodFrame_safe {env : Nat} {outer : List Scope} (sup : Option Klass) :
    Safe (fun s => s.Realizes env outer ∧ ∀ k ∈ sup, k.Fits s) (methodFrame env sup)
      fun f s => s.Realizes f (if sup.isSome then [("super", true)] :: outer else outer) ∧
        s.Realizes env outer ∧ ∀ k ∈ sup, k.Fits s := by
  cases sup with
  | none =>
    rw [methodFrame]
    exact Safe.pure fun _ h => ⟨h.1, h⟩
  | some k =>
    rw [methodFrame]
    refine Safe.pushFrame (fun s h p hp => ?_) fun s ⟨hR, hk⟩ => ?_
    · rw [List.mem_singleton.mp hp]
      exact h.2 k rfl
    · have hgrow := Store.Grows.pushWith s env [("super", .klass k)]
      have hsc : ∀ name, List.lookup name [("super", true)] = some true →
          name ∈ [("super", Value.klass k)].map (·.1) := by
        intro name hname
        rw [lookup_singleton] at hname
        split at hname
        · simp [*]
        · cases hname
      exact ⟨hR.pushWith hsc, hR.grow hgrow, fun k' hk' => (hk k' hk').grow hgrow⟩

/-- Declaring a class whose superclass fits: the name's declaration is complete afterwards, and
the class it binds fits. -/
theorem defineClass_safe {env : Nat} {name : Token} {sup : Option Klass} {ms : List FunDecl}
    {Γ : List Scope} (hms : FunDecl.AllResolvedIn (methodScopes Γ name.lexeme sup.isSome) ms) :
    Safe (fun s => s.Realizes env Γ ∧ ∀ k ∈ sup, k.Fits s) (defineClass env name sup ms)
      fun c s => c.Fits s ∧ s.Realizes env (putInnermost Γ name.lexeme true) := by
  unfold defineClass
  refine Safe.change_bind (R := fun s =>
      s.Realizes env (putInnermost Γ name.lexeme true) ∧ ∀ k ∈ sup, k.Fits s)
    (fun s hfit ⟨hR, hsup⟩ => ?_) ?_
  · have hgrow := Store.Grows.define s env name.lexeme .nil
    exact ⟨hgrow, hfit.define trivial, hR.define_self _ _, fun k hk => (hsup k hk).grow hgrow⟩
  refine (methodFrame_safe sup).bind fun methodEnv => ?_
  -- the class built over that frame fits every store the frame still stands in
  have hk : ∀ s, s.Realizes methodEnv (if sup.isSome then [("super", true)] ::
      putInnermost Γ name.lexeme true else putInnermost Γ name.lexeme true) →
      (∀ k ∈ sup, k.Fits s) → Klass.Fits s ⟨name.lexeme, sup, methodTable ms methodEnv⟩ := by
    intro s hR hsup
    have hmethods : ∀ p ∈ methodTable ms methodEnv, p.2.FitsMethod s :=
      methodTable_forall fun m hm => ⟨_, hR, FunDecl.resolvedIn_of_mem hms m hm⟩
    cases sup with
    | none => exact hmethods
    | some k => exact ⟨hmethods, hsup k rfl⟩
  dsimp only
  refine Safe.get_bind_of fun m _ ⟨hRm, hRe, hsup⟩ => ?_
  split
  · next b _ =>
    refine Safe.change_bind (R := (·.Realizes env (putInnermost Γ name.lexeme true)))
      (fun s hfit hs => ?_) (Safe.note_bind (Safe.pure fun _ h => ⟨trivial, h⟩))
    subst hs
    have hgrow := Store.Grows.define m.store b name.lexeme (.klass ⟨name.lexeme, sup, methodTable ms methodEnv⟩)
    exact ⟨hgrow, hfit.define ((hk _ hRm hsup).grow hgrow), hRe.grow hgrow⟩
  · exact Safe.fail_bind

theorem after_of_declared_none {env : Nat} {Γ : List Scope} {st : Stmt} (hd : st.declared? = none)
    {c : Completion} {s : Store} (h : c.Fits s ∧ s.Realizes env (st.after Γ)) :
    c.Fits s ∧ s.Realizes env Γ := by
  rw [Stmt.after_of_declared_none hd] at h
  exact h

/-- Every function of the evaluator, given `fuel` steps and run in frames that stand for the
scopes its tree is resolved in, keeps the store fitting and never faults. -/
structure SafeAt (fuel : Nat) : Prop where
  eval : ∀ depth env (e : Expr) Γ, e.ResolvedIn Γ →
    Safe (·.Realizes env Γ) (Run.eval fuel depth env e) fun v s => v.Fits s
  evalArgs : ∀ depth env es Γ, Expr.AllResolvedIn Γ es →
    Safe (·.Realizes env Γ) (Run.evalArgs fuel depth env es) fun vs s => ∀ v ∈ vs, v.Fits s
  invoke : ∀ depth paren (f : Value) (args : List Value),
    Safe (fun s => f.Fits s ∧ (∀ v ∈ args, v.Fits s) ∧ arity? f = some args.length)
      (Run.invoke fuel depth paren f args) fun v s => v.Fits s
  callClosure : ∀ depth paren (c : Closure) (args : List Value),
    Safe (fun s => c.Fits s ∧ (∀ v ∈ args, v.Fits s) ∧ args.length = c.decl.params.length)
      (Run.callClosure fuel depth paren c args) fun v s => v.Fits s
  exec : ∀ depth env (st : Stmt) Γ, st.ResolvedIn Γ →
    Safe (·.Realizes env Γ) (Run.exec fuel depth env st)
      fun c s => c.Fits s ∧ s.Realizes env (st.after Γ)
  execList : ∀ depth env ss Γ, Stmt.ListResolvedIn Γ ss →
    Safe (·.Realizes env Γ) (Run.execList fuel depth env ss) fun c s => c.Fits s
  loop : ∀ depth env cond (body : Stmt) Γ, cond.ResolvedIn Γ → body.ResolvedIn Γ →
    body.declared? = none →
    Safe (·.Realizes env Γ) (Run.loop fuel depth env cond body) fun c s => c.Fits s

theorem safeAt_zero : SafeAt 0 where
  eval _ _ _ _ _ := by rw [eval]; exact Safe.throw trivial
  evalArgs _ _ _ _ _ := by rw [evalArgs]; exact Safe.throw trivial
  invoke _ _ _ _ := by rw [invoke]; exact Safe.throw trivial
  callClosure _ _ _ _ := by rw [callClosure]; exact Safe.throw trivial
  exec _ _ _ _ _ := by rw [exec]; exact Safe.throw trivial
  execList _ _ _ _ _ := by rw [execList]; exact Safe.throw trivial
  loop _ _ _ _ _ _ _ _ := by rw [loop]; exact Safe.throw trivial

variable {fuel : Nat}

theorem SafeAt.eval_succ (h : SafeAt fuel) (depth env : Nat) (e : Expr) (Γ : List Scope)
    (hr : e.ResolvedIn Γ) :
    Safe (·.Realizes env Γ) (Run.eval (fuel + 1) depth env e) fun v s => v.Fits s := by
  have hR := realizes_stable env Γ
  cases e with
  | literal c =>
    rw [Run.eval]
    exact Safe.pure fun s _ => Value.Fits.ofConstant s c
  | grouping inner =>
    rw [Run.eval]
    exact h.eval _ _ inner Γ hr
  | var name d =>
    rw [Run.eval]
    exact lookUp_safe hr.2
  | assign name value d =>
    rw [Run.eval]
    refine ((h.eval _ _ value Γ hr.2).keep hR).bind fun v => ?_
    exact (assignTo_safe hr.1).bind fun _ => Safe.pure fun _ h => h
  | unary op operand =>
    rw [Run.eval]
    exact (h.eval _ _ operand Γ hr).bind fun v => unaryOp_safe op v
  | logical left op right =>
    rw [Run.eval]
    refine ((h.eval _ _ left Γ hr.1).keep hR).bind fun l => ?_
    have hright : Safe (fun s => l.Fits s ∧ s.Realizes env Γ)
        (Run.eval fuel (depth + 1) env right) fun v s => v.Fits s :=
      (h.eval _ _ right Γ hr.2).weaken (fun _ h => h.2) fun _ _ h => h
    split <;> split
    all_goals first | exact Safe.pure fun _ h => h.1 | exact hright
  | binary left op right =>
    rw [Run.eval]
    refine ((h.eval _ _ left Γ hr.1).keep hR).bind fun l => ?_
    exact ((h.eval _ _ right Γ hr.2).weaken (fun _ h => h.2) fun _ _ h => h).bind fun r =>
      binaryOp_safe op l r
  | call callee paren args =>
    rw [Run.eval]
    refine ((h.eval _ _ callee Γ hr.1).keep hR).bind fun f => ?_
    split
    · exact Safe.fail _
    · next n hn =>
      refine ((h.evalArgs _ _ args Γ hr.2).under (fits_stable f) fun _ h => ⟨h.2, h.1⟩).bind
        fun vs => ?_
      dsimp only
      refine Safe.ite_fail fun hlen => Safe.note_bind ?_
      have hlen : vs.length = n := by simpa using hlen
      exact (h.invoke _ _ f vs).weaken (fun _ h => ⟨h.2, h.1, by rw [hn, hlen]⟩) fun _ _ h => h
  | get object name =>
    rw [Run.eval]
    refine (h.eval _ _ object Γ hr).bind fun o => ?_
    split
    · next id k =>
      refine Safe.get_bind_of fun m hfit hk => ?_
      split
      · next v hv => exact Safe.pure fun _ hs => hs ▸ hfit.fields id _ v hv
      · split
        · next c hc =>
          refine ((bindMethod_safe c _).weaken (fun s hs => hs ▸ ⟨hk.findMethod hc, hk⟩)
            fun _ _ h => h).bind fun c' => Safe.pure fun _ h => h.1
        · exact Safe.fail _
    · exact Safe.fail _
  | set object name value =>
    rw [Run.eval]
    refine ((h.eval _ _ object Γ hr.1).keep hR).bind fun o => ?_
    split
    · next id k =>
      refine ((h.eval _ _ value Γ hr.2).weaken (fun _ h => h.2) fun _ _ h => h).bind fun v => ?_
      refine Safe.change_bind (fun s hfit hv => ?_) (Safe.pure fun _ h => h)
      have hgrow := Store.Grows.setField s id name.lexeme v
      exact ⟨hgrow, hfit.setField hv, hv.grow hgrow⟩
    · exact Safe.fail _
  | thisRef keyword d =>
    rw [Run.eval]
    exact lookUp_safe hr.2
  | superMethod keyword method d =>
    cases d with
    | none =>
      rw [Run.eval]
      exact Safe.fail _
    | some k =>
      rw [Run.eval]
      obtain ⟨hsuper, -, hthis⟩ := hr.2 k rfl
      refine Safe.get_bind_of fun m hfit hRm => ?_
      obtain ⟨sup, hsup⟩ := hRm.getAt hsuper
      obtain ⟨receiver, hrecv⟩ := hRm.getAt hthis
      have hsupFits := hfit.getAt hsup
      have hrecvFits := hfit.getAt hrecv
      refine Safe.lift_ok_bind hsup (Safe.lift_ok_bind hrecv ?_)
      split
      · next c =>
        split
        · next c' hc' =>
          refine ((bindMethod_safe c' receiver).weaken
            (fun s (hs : s = m.store) => hs ▸ ⟨Klass.Fits.findMethod hsupFits hc', hrecvFits⟩)
            fun _ _ h => h).bind fun c'' => Safe.pure fun _ h => h.1
        · exact Safe.fail _
      · exact Safe.throw trivial

theorem SafeAt.evalArgs_succ (h : SafeAt fuel) (depth env : Nat) :
    ∀ (es : List Expr) (Γ : List Scope), Expr.AllResolvedIn Γ es →
      Safe (·.Realizes env Γ) (Run.evalArgs (fuel + 1) depth env es)
        fun vs s => ∀ v ∈ vs, v.Fits s := by
  intro es Γ hes
  cases es with
  | nil =>
    rw [Run.evalArgs]
    · exact Safe.pure fun _ _ _ hv => absurd hv List.not_mem_nil
    · exact Nat.succ_ne_zero fuel
  | cons a rest =>
    obtain ⟨ha, hrest⟩ := hes
    rw [Run.evalArgs]
    refine ((h.eval _ _ a Γ ha).keep (realizes_stable env Γ)).bind fun v => ?_
    refine ((h.evalArgs _ _ rest Γ hrest).under (fits_stable v) fun _ h => ⟨h.2, h.1⟩).bind
      fun vs => Safe.pure fun _ hvs w hw => ?_
    rcases List.mem_cons.mp hw with rfl | hw
    · exact hvs.2
    · exact hvs.1 w hw

theorem SafeAt.callClosure_succ (h : SafeAt fuel) (depth : Nat) (paren : Token) (c : Closure)
    (args : List Value) :
    Safe (fun s => c.Fits s ∧ (∀ v ∈ args, v.Fits s) ∧ args.length = c.decl.params.length)
      (Run.callClosure (fuel + 1) depth paren c args) fun v s => v.Fits s := by
  obtain ⟨⟨fname, params, body⟩, cframe, init⟩ := c
  rw [Run.callClosure]
  refine Safe.ite_fail fun _ => ?_
  refine Safe.pushFrame_bind (fun s hs p hp => hs.2.1 _ (mem_params_zip hp)) fun f => ?_
  simp only [FunDecl.params, FunDecl.body]
  have hbody : Safe (fun s' => ∃ s, (Closure.Fits s ⟨⟨fname, params, body⟩, cframe, init⟩ ∧
      (∀ v ∈ args, v.Fits s) ∧ args.length = params.length) ∧ f = s.frames.size ∧
      s' = (s.pushWith cframe ((params.zip args).map fun x => (x.1.lexeme, x.2))).2)
      (Run.execList fuel (depth + 1) f body) fun r s =>
        r.Fits s ∧ Closure.Fits s ⟨⟨fname, params, body⟩, cframe, init⟩ := by
    rintro m hfit ⟨s, ⟨hc, _, hlen⟩, hf, hs⟩
    obtain ⟨Γ, hΓ, hres⟩ := hc.1
    -- the new frame stands for the scope of the parameters
    have hsc : ∀ name, (paramScope params).lookup name = some true →
        name ∈ ((params.zip args).map fun x => (x.1.lexeme, x.2)).map (·.1) := by
      intro name hname
      rw [names_params_zip hlen]
      rw [paramScope_lookup] at hname
      split at hname
      · assumption
      · cases hname
    have hR : m.store.Realizes f (paramScope params :: Γ) := by
      rw [hs, hf]
      exact hΓ.pushWith hsc
    have hc' : Closure.Fits m.store ⟨⟨fname, params, body⟩, cframe, init⟩ := by
      rw [hs]
      exact hc.grow (Store.Grows.pushWith _ _ _)
    exact ((h.execList _ f body _ hres).frame fun _ _ hg h => Closure.Fits.grow hg h) m hfit
      ⟨hR, hc'⟩
  refine hbody.bind fun r => ?_
  split
  · next hinit =>
    refine Safe.get_bind_of fun m hfit hc => ?_
    obtain ⟨v, hv⟩ := Store.getAt_zero (hc.2.2 hinit)
    exact Safe.lift_ok hv fun _ _ hs => hs ▸ hfit.getAt hv
  · split
    · exact Safe.pure fun _ h => h.1
    · exact Safe.pure fun _ _ => trivial

theorem SafeAt.invoke_succ (h : SafeAt fuel) (depth : Nat) (paren : Token) (f : Value)
    (args : List Value) :
    Safe (fun s => f.Fits s ∧ (∀ v ∈ args, v.Fits s) ∧ arity? f = some args.length)
      (Run.invoke (fuel + 1) depth paren f args) fun v s => v.Fits s := by
  cases f with
  | native n =>
    cases n
    rw [Run.invoke]
    exact Safe.get_bind fun _ => Safe.pure fun _ _ => trivial
  | function c =>
    rw [Run.invoke]
    exact (h.callClosure _ _ c args).weaken
      (fun _ h => ⟨h.1, h.2.1, (Option.some.inj h.2.2).symm⟩) fun _ _ h => h
  | klass k =>
    rw [Run.invoke]
    refine Safe.newObject_bind fun id m hfit hm => ?_
    obtain ⟨s, ⟨hk, hargs, har⟩, hs⟩ := hm
    have har : k.arity = args.length := Option.some.inj har
    have hgrow : s.Grows m.store := hs ▸ Store.Grows.newObject s
    -- from here on the class and the arguments are what matter
    refine (?_ : Safe (fun s => k.Fits s ∧ ∀ v ∈ args, v.Fits s) _ _) m hfit
      ⟨hk.grow hgrow, fun v hv => (hargs v hv).grow hgrow⟩
    split
    · next init hinit =>
      refine ((bindMethod_safe init (.object id k)).under
        ((klassFits_stable k).and (allFits_stable args))
        fun _ h => ⟨⟨h.1.findMethod hinit, h.1⟩, h.1, h.2⟩).bind fun bound => ?_
      refine ((h.callClosure _ _ bound args).under (klassFits_stable k)
        fun _ h => ⟨⟨h.1.1, h.2.2, ?_⟩, h.2.1⟩).bind fun _ =>
          Safe.pure fun _ h => h.2
      rw [h.1.2, ← Klass.arity_of_findMethod hinit, har]
    · exact Safe.pure fun _ h => h.1
  | _ =>
    simp only [Run.invoke]
    exact Safe.fail _

theorem SafeAt.exec_succ (h : SafeAt fuel) (depth env : Nat) (st : Stmt) (Γ : List Scope)
    (hr : st.ResolvedIn Γ) :
    Safe (·.Realizes env Γ) (Run.exec (fuel + 1) depth env st)
      fun c s => c.Fits s ∧ s.Realizes env (st.after Γ) := by
  have hR := realizes_stable env Γ
  cases st with
  | expr e =>
    rw [Run.exec]
    exact ((h.eval _ _ e Γ hr).keep hR).bind fun _ => Safe.pure fun _ h => ⟨trivial, h.2⟩
  | print e =>
    rw [Run.exec]
    exact ((h.eval _ _ e Γ hr).keep hR).bind fun _ =>
      Safe.emit_bind (Safe.pure fun _ h => ⟨trivial, h.2⟩)
  | varDecl name init =>
    cases init with
    | none =>
      rw [Run.exec]
      refine Safe.pure_bind (Safe.weaken (P := fun s => Value.nil.Fits s ∧ s.Realizes env Γ) ?_
        (fun _ h => ⟨trivial, h⟩) fun _ _ h => h)
      exact Safe.define_bind (Safe.note_bind (Safe.pure fun _ h => ⟨trivial, h⟩))
    | some e =>
      rw [Run.exec]
      -- the initializer runs while the name is declared but not yet complete
      refine ((h.eval _ _ e _ (hr e rfl)).under hR fun s hs => ⟨hs.putInnermost_false _, hs⟩).bind
        fun v => Safe.define_bind (Safe.note_bind (Safe.pure fun _ h => ⟨trivial, h⟩))
  | block body =>
    rw [Run.exec]
    refine Safe.pushFrame_bind (fun _ _ p hp => absurd hp List.not_mem_nil) fun f => ?_
    rintro m hfit ⟨s, hs, hf, hm⟩
    have hRf : m.store.Realizes f ([] :: Γ) := by
      rw [hm, hf]
      exact hs.pushWith fun _ h => by cases h
    have hRm : m.store.Realizes env Γ := by
      rw [hm]
      exact hs.grow (Store.Grows.pushWith s env [])
    exact ((h.execList _ f body _ hr).frame hR) m hfit ⟨hRf, hRm⟩
  | ifElse cond thenBranch elseBranch =>
    obtain ⟨hc, ht, htd, he⟩ := Stmt.resolvedIn_ifElse.mp hr
    -- the step's equations split on the else branch; unfold it whole instead
    rw [Run.exec.eq_def]
    dsimp only
    refine ((h.eval _ _ cond Γ hc).keep hR).bind fun v => Safe.note_bind ?_
    split
    · exact (h.exec _ _ thenBranch Γ ht).weaken (fun _ h => h.2) fun _ _ h =>
        after_of_declared_none htd h
    · cases elseBranch with
      | none => exact Safe.pure fun _ h => ⟨trivial, h.2⟩
      | some e =>
        exact (h.exec _ _ e Γ (he e rfl).1).weaken (fun _ h => h.2) fun _ _ h =>
          after_of_declared_none (he e rfl).2 h
  | whileLoop cond body =>
    rw [Run.exec]
    exact (h.loop _ _ cond body Γ hr.1 hr.2.1 hr.2.2).keep hR
  | funDecl f =>
    rw [Run.exec]
    -- the function closes over the frame its own name is declared in
    refine Safe.change_bind (fun s hfit hs => ?_) (Safe.note_bind (Safe.pure fun _ h => ⟨trivial, h⟩))
    have hgrow := Store.Grows.define s env f.name.lexeme (.function ⟨f, env, false⟩)
    exact ⟨hgrow, hfit.define ⟨⟨_, hs.define_self _ _, hr⟩, fun h => by cases h⟩, hs.define_self _ _⟩
  | returnStmt keyword value =>
    cases value with
    | none =>
      rw [Run.exec]
      exact Safe.pure_bind (Safe.pure fun _ h => ⟨trivial, h⟩)
    | some e =>
      rw [Run.exec]
      exact ((h.eval _ _ e Γ (hr e rfl)).keep hR).bind fun _ => Safe.pure fun _ h => h
  | classDecl name superclass methods =>
    rw [Stmt.ResolvedIn] at hr
    obtain ⟨hsup, hms⟩ := hr
    cases superclass with
    | none =>
      rw [Run.exec]
      exact Safe.pure_bind ((defineClass_safe hms).weaken (fun _ h => ⟨h, fun _ hk => by cases hk⟩)
        fun _ _ h => h)
    | some e =>
      rw [Run.exec]
      refine ((h.eval _ _ e Γ (hsup e rfl)).keep hR).bind fun v => ?_
      split
      · exact Safe.pure_bind ((defineClass_safe hms).weaken
          (fun _ h => ⟨h.2, fun _ hk => Option.some.inj hk ▸ h.1⟩) fun _ _ h => h)
      · exact Safe.fail_bind

theorem SafeAt.execList_succ (h : SafeAt fuel) (depth env : Nat) :
    ∀ (ss : List Stmt) (Γ : List Scope), Stmt.ListResolvedIn Γ ss →
      Safe (·.Realizes env Γ) (Run.execList (fuel + 1) depth env ss) fun c s => c.Fits s
  | [], _, _ => by
    rw [Run.execList]
    · exact Safe.pure fun _ _ => trivial
    · exact Nat.succ_ne_zero fuel
  | st :: rest, Γ, ⟨hst, hrest⟩ => by
    rw [Run.execList]
    refine (h.exec _ _ st Γ hst).bind fun c => ?_
    split
    · exact (h.execList _ _ rest _ hrest).weaken (fun _ h => h.2) fun _ _ h => h
    · exact Safe.pure fun _ h => h.1

theorem SafeAt.loop_succ (h : SafeAt fuel) (depth env : Nat) (cond : Expr) (body : Stmt)
    (Γ : List Scope) (hc : cond.ResolvedIn Γ) (hb : body.ResolvedIn Γ)
    (hd : body.declared? = none) :
    Safe (·.Realizes env Γ) (Run.loop (fuel + 1) depth env cond body) fun c s => c.Fits s := by
  rw [Run.loop]
  refine ((h.eval _ _ cond Γ hc).keep (realizes_stable env Γ)).bind fun v => ?_
  split
  · refine ((h.exec _ _ body Γ hb).weaken (fun _ h => h.2) fun _ _ h => h).bind fun c => ?_
    split
    · exact (h.loop _ _ cond body Γ hc hb hd).weaken
        (fun _ h => (after_of_declared_none hd h).2) fun _ _ h => h
    · exact Safe.pure fun _ h => h.1
  · exact Safe.pure fun _ _ => trivial

theorem SafeAt.succ (h : SafeAt fuel) : SafeAt (fuel + 1) where
  eval := h.eval_succ
  evalArgs := h.evalArgs_succ
  invoke := h.invoke_succ
  callClosure := h.callClosure_succ
  exec := h.exec_succ
  execList := h.execList_succ
  loop := h.loop_succ

/-- With any number of steps, the evaluator never faults on resolved trees. -/
theorem safeAt : ∀ fuel, SafeAt fuel
  | 0 => safeAt_zero
  | fuel + 1 => (safeAt fuel).succ

/-- Top-level statements resolved in no scope run in the globals without a fault. -/
theorem program_safe : ∀ ss : List Stmt, Stmt.ListResolvedIn [] ss →
    Safe (fun _ => True) (Run.program ss) fun _ _ => True
  | [], _ => by
    rw [Run.program]
    exact Safe.pure fun _ _ => trivial
  | st :: rest, ⟨hst, hrest⟩ => by
    rw [Run.program]
    refine ((safeAt fuel).exec baseDepth Store.globals st [] hst).weaken (fun _ _ => trivial)
      (fun _ _ _ => trivial) |>.bind fun _ => ?_
    rw [Stmt.after_nil] at hrest
    exact program_safe rest hrest

end Run

namespace Session

/-- What a session step may end in: a session whose store fits, or an escape that is no
fault. -/
def Sound {α : Type} : Except Escape (Session × α) → Prop
  | .ok (s, _) => s.machine.store.Fits
  | .error (.fault _) => False
  | .error _ => True

theorem note_store (m : Machine) (level : Nat) (line : String) :
    (note m level line).store = m.store := by
  unfold note
  split <;> rfl

/-- Running a resolved program from a store that fits never faults, and leaves a store that
fits. -/
theorem runProgram_sound {s : Session} (hs : s.machine.store.Fits) {p : Program}
    (hp : Stmt.AllShaped p) : Sound (s.runProgram p) := by
  unfold runProgram
  dsimp only
  by_cases herr : p.resolve.errors.isEmpty = true
  · rw [if_neg (by simp [herr])]
    have hsafe := Run.program_safe _ (Program.resolve_resolvedIn hp (List.isEmpty_iff.mp herr))
    -- the run starts from the session's store
    simp only [note_store, apply_ite Machine.store, ite_self]
    split
    · next m' heq => exact (hsafe.ok_of_run heq hs trivial).1
    · next e m' heq =>
      show (note m' 1 _).store.Fits
      rw [note_store]
      exact (hsafe.error_of_run heq hs trivial).1
    · next f m' heq => exact (hsafe.error_of_run heq hs trivial).2.elim
    · trivial
    · trivial
  · rw [if_pos (by simp [herr])]
    show (if _ then _ else s.machine).store.Fits
    split <;> exact hs

/-- Running a source never faults and leaves a store that fits; a source that does not parse
leaves the session as it was. -/
theorem runSource_sound {s : Session} (hs : s.machine.store.Fits) (source : String) :
    Sound (s.runSource source) := by
  unfold runSource
  split
  · exact hs
  · next p hp => exact runProgram_sound hs (parseProgram_shaped hp)

/-- Running lines one after another never faults, and each line starts from a store that fits. -/
theorem runLines_sound : ∀ {s : Session}, s.machine.store.Fits → ∀ lines,
    Sound (s.runLines lines) := by
  intro s hs lines
  induction lines generalizing s with
  | nil => exact hs
  | cons line rest ih =>
    have hline := runSource_sound hs line
    rw [runLines]
    cases hrun : s.runSource line with
    | error e =>
      rw [hrun] at hline
      cases e
      case fault f => exact hline.elim
      all_goals trivial
    | ok r =>
      obtain ⟨s', report⟩ := r
      rw [hrun] at hline
      -- the rest of the lines run from the store this line left
      have hrest := ih hline
      show Sound (s'.runLines rest >>= fun p => pure (p.1, report :: p.2))
      cases hnext : s'.runLines rest with
      | error e =>
        rw [hnext] at hrest
        exact hrest
      | ok r' =>
        rw [hnext] at hrest
        exact hrest

end Session

/-- Scopes and frames agree. A parsed program has the shapes only the grammar builds, and a
program of those shapes that resolves without an error has every reference resolved: each points
to the innermost scope that declares its name before it, or to the globals when no scope does. A
read of a variable or of `this` finds a complete declaration there, and `super` at depth `k`
finds a complete `super` there and a complete `this` at `k - 1`; an assignment may point to a
scope where its name is declared but not yet complete. Frames that stand for scopes have a frame
for every scope, and that frame binds every name its scope declares completely. Every part of
the evaluator, run on a resolved tree in such frames, ends without a fault and keeps them
standing for the scopes. So running lines in a session, each parsed, resolved and run in the
store the earlier ones left, never finds a frame missing or a name unbound at a reference's
depth. -/
theorem resolved_references_find_their_frames :
    (∀ source P, parseProgram source = .ok P → Stmt.AllShaped P) ∧
    (∀ P : Program, Stmt.AllShaped P → P.resolve.errors = [] →
      Stmt.ListResolvedIn [] P.resolve.program) ∧
    (∀ (s : Store) env Γ, s.Realizes env Γ →
      (∀ k < Γ.length, ∃ a, s.ancestor env k = .ok a) ∧
      ∀ k name, declaredAt Γ k name = some true →
        ∃ a, s.ancestor env k = .ok a ∧ ((s.frame a).slots.lookup name).isSome) ∧
    (∀ fuel, Run.SafeAt fuel) ∧
    ∀ level lines, Session.Sound ((Session.new level).runLines lines) :=
  ⟨fun _ _ hp => parseProgram_shaped hp, fun _ hp herr => Program.resolve_resolvedIn hp herr,
    fun _ _ _ hR => ⟨fun _ hk => hR.ancestor_exists hk, fun _ _ hk => hR.ancestor_binds hk⟩,
    Run.safeAt, fun _ lines => Session.runLines_sound Store.fits_initial lines⟩

/-- `var a = a = 1;`, its assignment at depth `d`. -/
def selfAssigningDecl (d : Option Nat) : Stmt :=
  .varDecl ⟨.terminal .identifier, "a", .null, 1, 7⟩
    (some (.assign ⟨.terminal .identifier, "a", .null, 1, 11⟩ (.literal (.num 1)) d))

/-- `{ var a = a = 1; }`: a variable assigned in its own initializer, in a block. -/
def selfAssignment : Program := [.block [selfAssigningDecl none]]

/-- The resolver accepts the assignment in its own initializer and gives it depth 0, the block's
scope, where `a` is declared but not yet complete. -/
theorem Program.resolve_selfAssignment :
    selfAssignment.resolve.errors = [] ∧
      selfAssignment.resolve.program = [.block [selfAssigningDecl (some 0)]] := by
  simp [selfAssignment, selfAssigningDecl, Program.resolve, Resolver.resolveStmts,
    Resolver.resolveStmt, Resolver.resolveExpr, Resolver.beginScope, Resolver.endScope,
    Resolver.declare, Resolver.define, Resolver.resolveLocal, Resolver.depthIn, Resolver.Scope.put]
  exact ⟨rfl, rfl⟩

/-- The store where the block of `selfAssignment` runs its statements: the globals and the
block's frame, which binds nothing. -/
theorem Store.realizes_selfAssignment_block :
    (Store.initial.pushWith Store.globals []).2.Realizes 1 [[("a", false)]] := by
  simp [Store.Realizes, Store.pushWith, Store.initial, Store.frame, Store.putAll, List.lookup_cons]
  intro name
  split <;> simp

/-- An assignment in the initializer of the variable it assigns writes a frame that does not
bind the name yet. The resolver accepts `{ var a = a = 1; }` and gives the assignment depth 0;
the block's statements run in a new frame that binds nothing, so reading `a` there at depth 0
finds no binding, while the assignment at depth 0 from that frame succeeds and binds `a` before
its declaration does. -/
theorem self_assignment_precedes_its_binding :
    selfAssignment.resolve.errors = [] ∧
    selfAssignment.resolve.program = [.block [selfAssigningDecl (some 0)]] ∧
    (∀ fuel depth,
      Run.exec (fuel + 1) depth Store.globals (.block [selfAssigningDecl (some 0)]) {} =
        Run.execList fuel (depth + 1) 1 [selfAssigningDecl (some 0)]
          { store := (Store.initial.pushWith Store.globals []).2 }) ∧
    (Store.initial.pushWith Store.globals []).2.getAt 1 0 "a" = .error (.unbound "a") ∧
    ∀ fuel depth, Run.eval (fuel + 2) depth 1
        (.assign ⟨.terminal .identifier, "a", .null, 1, 11⟩ (.literal (.num 1)) (some 0))
        { store := (Store.initial.pushWith Store.globals []).2 } =
      .ok (.num 1)
        { store := (Store.initial.pushWith Store.globals []).2.define 1 "a" (.num 1) } := by
  refine ⟨Program.resolve_selfAssignment.1, Program.resolve_selfAssignment.2, ?_, ?_, ?_⟩
  · intro fuel depth
    simp only [Run.exec, Run.pushFrame]
    rfl
  · simp [Store.getAt, Store.ancestor, Store.pushWith, Store.initial, Store.frame, Store.putAll,
      bind, Except.bind]
  · intro fuel depth
    simp [Run.eval, Run.assignTo, Run.bindingFrame, Store.ancestor, Run.change, Run.lift,
      Value.ofConstant]
    rfl

/-- The block of `selfAssignment` at work: the program has the grammar's shapes and resolves
without an error, so it is resolved; the frame its block makes stands for the block's scope,
so the assignment's frame, at depth 0, exists. -/
theorem self_assignment_finds_its_frame :
    Stmt.AllShaped selfAssignment ∧ Stmt.ListResolvedIn [] selfAssignment.resolve.program ∧
      (Store.initial.pushWith Store.globals []).2.Realizes 1 [[("a", false)]] ∧
      ∃ a, (Store.initial.pushWith Store.globals []).2.ancestor 1 0 = .ok a := by
  obtain ⟨-, hresolved, hframes, -, -⟩ := resolved_references_find_their_frames
  have hshaped : Stmt.AllShaped selfAssignment := by
    simp [selfAssignment, selfAssigningDecl, Stmt.AllShaped, Stmt.Shaped, Expr.Shaped,
      Token.Declarable]
  have hR := Store.realizes_selfAssignment_block
  refine ⟨hshaped, hresolved _ hshaped Program.resolve_selfAssignment.1, hR, ?_⟩
  exact (hframes _ _ _ hR).1 0 (by simp)

end Lox
