import Lox.Proofs.SourceHygiene

/-!
# What `this` and `super` evaluate to

Inside a method, `this` is the receiver the method was bound to, and `super` the superclass of
the class that declared the method, fixed when that class was declared. The evaluator reads both
by depth: `bindMethod` makes a frame binding `this`, and `methodFrame` a frame binding `super`
that the class's methods close over. `Store.Sees` says that a frame, read with the scopes its
code was resolved in, finds a name bound to a value in the frame of the innermost scope that
declares it; `Store.InMethod` that it finds `this` and `super` so.

A method bound to a receiver runs its body in a frame in that context; frames of blocks and
calls nested in the body, and declarations in it, keep it; and no hygienic run takes it away
(`Run.keptAt`), so no line a session runs from source does (`Session.runLines_keepsReserved`).
A `this` expression evaluated there gives the receiver, and `super.m` the method `m` of the
superclass bound to that receiver.
-/

namespace Lox

theorem Refers.unique {Γ : List Scope} {x : String} :
    ∀ {a b : Option Nat}, Refers Γ x a → Refers Γ x b → a = b
  | none, none, _, _ => rfl
  | none, some d, ha, hb => absurd hb.1 (by simp [ha d])
  | some d, none, ha, hb => absurd ha.1 (by simp [hb d])
  | some d, some d', ha, hb => by
    rcases Nat.lt_trichotomy d d' with h | h | h
    · exact absurd ha.1 (by simp [hb.2 d h])
    · rw [h]
    · exact absurd hb.1 (by simp [ha.2 d' h])

/-- A scope that does not declare a name puts the innermost declaration one scope further out. -/
theorem Refers.push {Γ : List Scope} {x : String} {d : Nat} (h : Refers Γ x (some d))
    {sc : Scope} (hsc : sc.lookup x = none) : Refers (sc :: Γ) x (some (d + 1)) := by
  refine ⟨by simpa using h.1, fun j hj => ?_⟩
  cases j with
  | zero => simpa using hsc
  | succ j => simpa using h.2 j (by omega)

/-- Declaring another name leaves where a reference points. -/
theorem Refers.declare {Γ : List Scope} {x name : String} (hne : name ≠ x) (b : Bool)
    {o : Option Nat} (h : Refers Γ x o) : Refers (putInnermost Γ name b) x o := by
  have hat : ∀ k, declaredAt (putInnermost Γ name b) k x = declaredAt Γ k x := fun k => by
    rw [declaredAt_putInnermost, if_neg fun hc => hne hc.2.1.symm]
  cases o with
  | none => exact fun k => (hat k).trans (h k)
  | some d => exact ⟨by rw [hat]; exact h.1, fun j hj => (hat j).trans (h.2 j hj)⟩

/-- The parameters of a hygienic function declare neither reserved name. -/
theorem paramScope_lookup_reserved {params : List Token} (hps : ∀ p ∈ params, p.Declarable)
    {x : String} (hx : Reserved x) : (paramScope params).lookup x = none := by
  rw [paramScope_lookup, if_neg]
  intro hmem
  obtain ⟨p, hp, rfl⟩ := List.mem_map.mp hmem
  exact (hps p hp).not_reserved hx

namespace Store

variable {s s' : Store}

theorem lt_of_parent {f p : Nat} (h : (s.frame f).parent = some p) : f < s.frames.size := by
  by_contra hf
  rw [frame_of_size_le (Nat.le_of_not_lt hf)] at h
  cases h

theorem lt_of_lookup {f : Nat} {x : String} {v : Value} (h : (s.frame f).slots.lookup x = some v) :
    f < s.frames.size := by
  by_contra hf
  rw [frame_of_size_le (Nat.le_of_not_lt hf)] at h
  cases h

/-- Growing keeps every chain of parents. -/
theorem Grows.ancestor (hg : s.Grows s') :
    ∀ {f d a : Nat}, s.ancestor f d = .ok a → s'.ancestor f d = .ok a
  | _, 0, _, h => h
  | f, d + 1, a, h => by
    rw [Store.ancestor] at h ⊢
    split at h
    · next p hp =>
      rw [hg.parent f (lt_of_parent hp), hp]
      exact Grows.ancestor hg h
    · cases h

theorem getAt_eq_ok {f d : Nat} {x : String} {v : Value} :
    s.getAt f d x = .ok v ↔ ∃ a, s.ancestor f d = .ok a ∧ (s.frame a).slots.lookup x = some v := by
  constructor
  · intro h
    simp only [getAt, bind, Except.bind] at h
    split at h
    · cases h
    · next a ha =>
      split at h
      · next w hw =>
        cases h
        exact ⟨a, ha, hw⟩
      · cases h
  · rintro ⟨a, ha, hv⟩
    simp [getAt, ha, hv, bind, Except.bind, pure, Except.pure]

/-- A later store that keeps an earlier one reads `this` and `super` by depth as it did. -/
theorem Keeps.getAt (hk : s.Keeps s') {f d : Nat} {x : String} (hx : Reserved x) {v : Value}
    (h : s.getAt f d x = .ok v) : s'.getAt f d x = .ok v := by
  obtain ⟨a, ha, hv⟩ := getAt_eq_ok.mp h
  exact getAt_eq_ok.mpr ⟨a, hk.grows.ancestor ha, hk.reserved a x v hx hv⟩

/-- One step further out from a new frame is its parent. -/
theorem getAt_pushWith_succ {parent d : Nat} {slots : List (String × Value)} {x : String}
    {v : Value} (h : s.getAt parent d x = .ok v) :
    (s.pushWith parent slots).2.getAt s.frames.size (d + 1) x = .ok v := by
  obtain ⟨a, ha, hv⟩ := getAt_eq_ok.mp h
  refine getAt_eq_ok.mpr ⟨a, ?_, ?_⟩
  · rw [Store.ancestor, frame_pushWith_self]
    exact (Grows.pushWith s parent slots).ancestor ha
  · rw [frame_pushWith_ne s parent slots (Nat.ne_of_lt (lt_of_lookup hv))]
    exact hv

theorem getAt_pushWith_self (parent : Nat) (x : String) (v : Value) :
    (s.pushWith parent [(x, v)]).2.getAt s.frames.size 0 x = .ok v := by
  refine getAt_eq_ok.mpr ⟨s.frames.size, rfl, ?_⟩
  rw [frame_pushWith_self]
  simp [putAll, put]

/-- Frame `env`, read with the scopes `Γ`, sees `x` bound to `v`: the innermost scope declaring
`x` is `d` out, and the frame `d` steps out binds `x` to `v`. This is what a reference to `x`
resolved in `Γ` reads there. -/
def Sees (s : Store) (env : Nat) (Γ : List Scope) (x : String) (d : Nat) (v : Value) : Prop :=
  Refers Γ x (some d) ∧ s.getAt env d x = .ok v

variable {env d : Nat} {Γ : List Scope} {x : String} {v : Value}

theorem Sees.keep (h : s.Sees env Γ x d v) (hk : s.Keeps s') (hx : Reserved x) :
    s'.Sees env Γ x d v :=
  ⟨h.1, hk.getAt hx h.2⟩

/-- A new frame for a scope that does not declare `x` sees `x` where its parent does. -/
theorem Sees.push (h : s.Sees env Γ x d v) {sc : Scope} (hsc : sc.lookup x = none)
    (slots : List (String × Value)) :
    (s.pushWith env slots).2.Sees s.frames.size (sc :: Γ) x (d + 1) v :=
  ⟨h.1.push hsc, getAt_pushWith_succ h.2⟩

theorem Sees.declare (h : s.Sees env Γ x d v) {name : String} (hne : name ≠ x) (b : Bool) :
    s.Sees env (putInnermost Γ name b) x d v :=
  ⟨h.1.declare hne b, h.2⟩

/-- A new frame binding `x`, read with a scope declaring only `x`, sees it in itself. -/
theorem sees_pushWith_self (s : Store) (parent : Nat) (Γ : List Scope) (x : String) (v : Value) :
    (s.pushWith parent [(x, v)]).2.Sees s.frames.size ([(x, true)] :: Γ) x 0 v :=
  ⟨⟨by simp, fun j hj => absurd hj (Nat.not_lt_zero j)⟩, getAt_pushWith_self parent x v⟩

/-- Frame `env`, read with the scopes `Γ`, runs code of a method bound to `receiver` whose class
has the superclass `sup`: it sees `this` bound to the receiver and, when there is a superclass,
`super` bound to it one frame further out. -/
def InMethod (s : Store) (env : Nat) (Γ : List Scope) (receiver : Value) (sup : Option Klass) :
    Prop :=
  ∃ d, s.Sees env Γ "this" d receiver ∧ ∀ k ∈ sup, s.Sees env Γ "super" (d + 1) (.klass k)

variable {r : Value} {sup : Option Klass}

theorem InMethod.keep (h : s.InMethod env Γ r sup) (hk : s.Keeps s') : s'.InMethod env Γ r sup :=
  let ⟨d, hthis, hsuper⟩ := h
  ⟨d, hthis.keep hk (.inl rfl), fun k hk' => (hsuper k hk').keep hk (.inr rfl)⟩

/-- A frame nested in one running a method's code, for a scope declaring neither reserved name,
runs that code too: a block's frame, or a call's frame for hygienic parameters. -/
theorem InMethod.push (h : s.InMethod env Γ r sup) {sc : Scope}
    (hsc : ∀ x, Reserved x → sc.lookup x = none) (slots : List (String × Value)) :
    (s.pushWith env slots).2.InMethod s.frames.size (sc :: Γ) r sup :=
  let ⟨d, hthis, hsuper⟩ := h
  ⟨d + 1, hthis.push (hsc _ (.inl rfl)) slots,
    fun k hk => (hsuper k hk).push (hsc _ (.inr rfl)) slots⟩

/-- Declaring a name that is not reserved keeps the context. -/
theorem InMethod.declare (h : s.InMethod env Γ r sup) {name : String}
    (hname : ¬ Reserved name) (b : Bool) : s.InMethod env (putInnermost Γ name b) r sup :=
  let ⟨d, hthis, hsuper⟩ := h
  ⟨d, hthis.declare (fun he => hname (.inl he)) b,
    fun k hk => (hsuper k hk).declare (fun he => hname (.inr he)) b⟩

/-- Binding a method to a receiver: the new frame, read with a scope holding `this` inside the
scopes of the method's frame, runs code of a method bound to the receiver, with the superclass
that frame sees. -/
theorem inMethod_bindFrame (s : Store) (frame : Nat) (r : Value) {Γ : List Scope}
    {sup : Option Klass} (hsup : ∀ k ∈ sup, s.Sees frame Γ "super" 0 (.klass k)) :
    (s.pushWith frame [("this", r)]).2.InMethod s.frames.size ([("this", true)] :: Γ) r sup :=
  ⟨0, sees_pushWith_self s frame Γ "this" r, fun k hk => (hsup k hk).push (by simp) _⟩

/-- The frame `binder` finds binds the name. -/
theorem binderWith_binds {name : String} :
    ∀ {fuel f b : Nat}, s.binderWith name fuel f = some b → (s.frame b).slots.any (·.1 == name)
  | 0, _, _, h => by simp [binderWith] at h
  | fuel + 1, f, b, h => by
    rw [binderWith] at h
    split at h
    · next hany =>
      cases h
      exact hany
    · split at h
      · exact binderWith_binds h
      · cases h

theorem lt_of_binder {f b : Nat} {name : String} (h : s.binder f name = some b) :
    b < s.frames.size := by
  have hany := binderWith_binds h
  by_contra hb
  rw [frame_of_size_le (Nat.le_of_not_lt hb)] at hany
  simp at hany

end Store

namespace Run

theorem run_get_bind {α : Type} (f : Machine → Run α) (m : Machine) : (get >>= f) m = f m m :=
  rfl

/-- Reading a property of an instance gives its field, else the method of its class bound to the
instance, else an error at the name. -/
theorem eval_get {fuel depth env : Nat} {object : Expr} (name : Token) {m m' : Machine} {id : Nat}
    {C : Klass} (ho : Run.eval fuel (depth + 1) env object m = .ok (.object id C) m') :
    Run.eval (fuel + 1) depth env (.get object name) m =
      match m'.store.field? id name.lexeme with
      | some v => .ok v m'
      | none =>
        match C.findMethod name.lexeme with
        | some c => .ok (.function { c with frame := m'.store.frames.size })
            { m' with store := (m'.store.pushWith c.frame [("this", .object id C)]).2 }
        | none => .error (.error (.undefinedProperty name)) m' := by
  rw [Run.eval, run_bind, ho]
  dsimp only
  rw [run_get_bind]
  cases hf : m'.store.field? id name.lexeme with
  | some v => rfl
  | none =>
    cases hc : C.findMethod name.lexeme with
    | some c => rfl
    | none => rfl

variable {α : Type} {m : Machine} {env : Nat} {Γ : List Scope} {r : Value}

/-- A `this` expression evaluated in a frame running a method's code gives the method's receiver
and changes nothing. -/
theorem eval_thisRef {sup : Option Klass} (hm : m.store.InMethod env Γ r sup) {k : Token}
    {d : Option Nat} (hr : (Expr.thisRef k d).ResolvedIn Γ) (hk : k.lexeme = "this")
    (fuel depth : Nat) : Run.eval (fuel + 1) depth env (.thisRef k d) m = .ok r m := by
  obtain ⟨d₀, ⟨hrefers, hget⟩, -⟩ := hm
  have hd : d = some d₀ := Refers.unique (hk ▸ hr.1) hrefers
  subst hd
  rw [Run.eval, lookUp, run_get_bind]
  show lift (m.store.getAt env d₀ k.lexeme) m = _
  rw [hk, hget]
  rfl

/-- `super.method` evaluated in a frame running code of a method of a class with superclass `S`
gives the method of `S` bound to the receiver, or an error at the method's name. -/
theorem eval_superMethod {S : Klass} (hm : m.store.InMethod env Γ r (some S)) {k method : Token}
    {d : Option Nat} (hr : (Expr.superMethod k method d).ResolvedIn Γ) (hk : k.lexeme = "super")
    (fuel depth : Nat) :
    Run.eval (fuel + 1) depth env (.superMethod k method d) m =
      match S.findMethod method.lexeme with
      | some c => .ok (.function { c with frame := m.store.frames.size })
          { m with store := (m.store.pushWith c.frame [("this", r)]).2 }
      | none => .error (.error (.undefinedProperty method)) m := by
  obtain ⟨d₀, ⟨-, hthis⟩, hsuper⟩ := hm
  obtain ⟨hrefers, hsget⟩ := hsuper S rfl
  have hd : d = some (d₀ + 1) := Refers.unique (hk ▸ hr.1) hrefers
  subst hd
  rw [Run.eval, run_get_bind]
  show (lift (m.store.getAt env (d₀ + 1) "super") >>= fun sup =>
    lift (m.store.getAt env (d₀ + 1 - 1) "this") >>= fun receiver => _) m = _
  rw [hsget, Nat.add_sub_cancel, hthis]
  show (match S.findMethod method.lexeme with
    | some c => Value.function <$> bindMethod c r
    | none => fail (.undefinedProperty method)) m = _
  cases S.findMethod method.lexeme <;> rfl

/-- A call that does not overflow runs the function's body in a new frame, nested in the
function's frame and binding its parameters, from the machine that frame was added to. -/
theorem callClosure_runs_body (fuel depth : Nat) (paren : Token) (c : Closure) (args : List Value)
    (m : Machine) (hdepth : depth + 1 ≤ frameLimit) :
    ∃ k, callClosure (fuel + 1) depth paren c args m =
      (execList fuel (depth + 1) m.store.frames.size c.decl.body >>= k)
        { m with store := (m.store.pushWith c.frame
          ((c.decl.params.zip args).map fun (p, v) => (p.lexeme, v))).2 } := by
  rw [callClosure, if_neg (by omega)]
  exact ⟨_, rfl⟩

theorem run_change (g : Store → Store) (m : Machine) :
    change g m = .ok () { m with store := g m.store } :=
  rfl

theorem run_pushFrame (parent : Nat) (slots : List (String × Value)) (m : Machine) :
    pushFrame parent slots m =
      .ok m.store.frames.size { m with store := (m.store.pushWith parent slots).2 } :=
  rfl

theorem run_get (m : Machine) : (get : Run Machine) m = .ok m m :=
  rfl

theorem run_note_store {level : Nat} {line : Unit → String} {k : PUnit → Run α}
    {m m' : Machine} {a : α} (h : (note level line >>= k) m = .ok a m') :
    ∃ m₁, m₁.store = m.store ∧ k ⟨⟩ m₁ = .ok a m' := by
  refine ⟨_, ?_, h⟩
  show (if m.level ≥ level then { m with log := m.log.push (line ()) } else m).store = m.store
  split <;> rfl

/-- Declaring a class with a superclass binds its name to the class. The methods of the class
all close over one new frame, and that frame sees `super` bound to the superclass. -/
theorem defineClass_superFrame {env : Nat} {name : Token} (hname : name.Declarable) {S : Klass}
    {ms : List FunDecl} {m m' : Machine} {c : Completion}
    (h : defineClass env name (some S) ms m = .ok c m') (Γ : List Scope) :
    (∃ b, (m'.store.frame b).slots.lookup name.lexeme =
      some (.klass ⟨name.lexeme, some S, methodTable ms m.store.frames.size⟩)) ∧
    (∀ p ∈ methodTable ms m.store.frames.size, p.2.frame = m.store.frames.size) ∧
    m'.store.Sees m.store.frames.size ([("super", true)] :: Γ) "super" 0 (.klass S) := by
  simp only [defineClass, methodFrame, run_bind, run_change, run_pushFrame, run_get,
    Store.size_define] at h
  -- the declaration binds `nil`, adds the frame holding `super`, then binds the class
  obtain ⟨b, hb, hstore⟩ : ∃ b,
      ((m.store.define env name.lexeme .nil).pushWith env [("super", .klass S)]).2.binder env
        name.lexeme = some b ∧
      m'.store = ((m.store.define env name.lexeme .nil).pushWith env [("super", .klass S)]).2.define
        b name.lexeme (.klass ⟨name.lexeme, some S, methodTable ms m.store.frames.size⟩) := by
    cases hb : ((m.store.define env name.lexeme .nil).pushWith env
      [("super", .klass S)]).2.binder env name.lexeme with
    | none =>
      rw [hb] at h
      cases h
    | some b =>
      simp only [hb] at h
      rw [run_bind, run_change] at h
      dsimp only at h
      obtain ⟨m₁, hm₁, h⟩ := run_note_store h
      cases h
      exact ⟨b, rfl, hm₁⟩
  have hsuper := Store.sees_pushWith_self (m.store.define env name.lexeme .nil) env Γ "super"
    (.klass S)
  rw [Store.size_define] at hsuper
  refine ⟨⟨b, ?_⟩, methodTable_forall (R := fun c => c.frame = m.store.frames.size) fun _ _ => rfl,
    ?_⟩
  · rw [hstore, Store.lookup_define, if_pos ⟨rfl, Store.lt_of_binder hb, rfl⟩]
  · rw [hstore]
    exact hsuper.keep (Store.Keeps.define _ b _ hname.not_reserved) (.inr rfl)

/-- A call of a function whose frame runs a method's code, for hygienic parameters, runs the body
in a frame that runs that code too. -/
theorem callClosure_inMethod {c : Closure} {sup : Option Klass}
    (hc : m.store.InMethod c.frame Γ r sup) (hps : ∀ p ∈ c.decl.params, p.Declarable)
    (fuel depth : Nat) (paren : Token) (args : List Value) (hdepth : depth + 1 ≤ frameLimit) :
    ∃ k m₁, callClosure (fuel + 1) depth paren c args m =
        (execList fuel (depth + 1) m.store.frames.size c.decl.body >>= k) m₁ ∧
      m₁.store.InMethod m.store.frames.size (paramScope c.decl.params :: Γ) r sup := by
  obtain ⟨k, hk⟩ := callClosure_runs_body fuel depth paren c args m hdepth
  exact ⟨k, _, hk, hc.push (fun _ hx => paramScope_lookup_reserved hps hx) _⟩

/-- A method bound to a receiver, in a frame seeing the superclass `sup` of its class, and called
in a later store that keeps the one it was bound in, runs its body in a frame that sees `this`
bound to the receiver and `super` bound to `sup`. -/
theorem bound_call_inMethod {s : Store} {c : Closure} {sup : Option Klass}
    (hsup : ∀ k ∈ sup, s.Sees c.frame Γ "super" 0 (.klass k))
    (hps : ∀ p ∈ c.decl.params, p.Declarable)
    (hkeep : (s.pushWith c.frame [("this", r)]).2.Keeps m.store)
    (fuel depth : Nat) (paren : Token) (args : List Value) (hdepth : depth + 1 ≤ frameLimit) :
    ∃ k m₁, callClosure (fuel + 1) depth paren { c with frame := s.frames.size } args m =
        (execList fuel (depth + 1) m.store.frames.size c.decl.body >>= k) m₁ ∧
      m₁.store.InMethod m.store.frames.size (paramScope c.decl.params :: [("this", true)] :: Γ) r
        sup :=
  callClosure_inMethod (c := { c with frame := s.frames.size })
    ((Store.inMethod_bindFrame s c.frame r hsup).keep hkeep) hps fuel depth paren args hdepth

end Run

/-- Reading a property of an instance gives its field, else the method its class finds, bound to
the instance in a new frame, else an error at the name. A method so bound and called in any
later store that keeps the one it was bound in runs its body in a frame that sees `this` bound to
the instance. Every run of hygienic code keeps that, and so does every line a session runs from
source; so do the frames of blocks and calls nested in the body and the declarations in it; a
`this` expression evaluated in such a frame gives the instance. -/
theorem bound_methods_see_their_receiver :
    (∀ fuel depth env object (name : Token) (m m' : Machine) id C,
      Run.eval fuel (depth + 1) env object m = .ok (.object id C) m' →
      Run.eval (fuel + 1) depth env (.get object name) m =
        match m'.store.field? id name.lexeme with
        | some v => .ok v m'
        | none =>
          match C.findMethod name.lexeme with
          | some c => .ok (.function { c with frame := m'.store.frames.size })
              { m' with store := (m'.store.pushWith c.frame [("this", .object id C)]).2 }
          | none => .error (.error (.undefinedProperty name)) m') ∧
    (∀ (s : Store) (c : Closure) (i : Value) (Γ : List Scope) (m : Machine) fuel depth paren args,
      (∀ p ∈ c.decl.params, p.Declarable) → (s.pushWith c.frame [("this", i)]).2.Keeps m.store →
      depth + 1 ≤ Run.frameLimit →
      ∃ k m₁, Run.callClosure (fuel + 1) depth paren { c with frame := s.frames.size } args m =
          (Run.execList fuel (depth + 1) m.store.frames.size c.decl.body >>= k) m₁ ∧
        m₁.store.InMethod m.store.frames.size (paramScope c.decl.params :: [("this", true)] :: Γ)
          i none) ∧
    (∀ fuel, Run.KeptAt fuel) ∧
    (∀ (s : Session) lines, s.machine.store.Hygienic → s.KeepsReserved (s.runLines lines)) ∧
    (∀ (s s' : Store) env Γ i sup, s.Keeps s' → s.InMethod env Γ i sup →
      s'.InMethod env Γ i sup) ∧
    (∀ (s : Store) env Γ i sup (sc : Scope) slots, (∀ x, Reserved x → sc.lookup x = none) →
      s.InMethod env Γ i sup → (s.pushWith env slots).2.InMethod s.frames.size (sc :: Γ) i sup) ∧
    (∀ (s : Store) env Γ i sup (name : String) b, ¬ Reserved name →
      s.InMethod env Γ i sup → s.InMethod env (putInnermost Γ name b) i sup) ∧
    ∀ (m : Machine) env Γ i sup (k : Token) d fuel depth, m.store.InMethod env Γ i sup →
      (Expr.thisRef k d).ResolvedIn Γ → k.lexeme = "this" →
      Run.eval (fuel + 1) depth env (.thisRef k d) m = .ok i m :=
  ⟨fun _ _ _ _ name _ _ _ _ ho => Run.eval_get name ho,
    fun _ _ _ _ _ fuel depth paren args hps hkeep hdepth =>
      Run.bound_call_inMethod (fun _ hk => (Option.not_mem_none _ hk).elim) hps hkeep fuel depth
        paren args hdepth,
    Run.keptAt,
    fun _ lines hs => Session.runLines_keepsReserved hs lines,
    fun _ _ _ _ _ _ hk h => h.keep hk,
    fun _ _ _ _ _ _ slots hsc h => h.push hsc slots,
    fun _ _ _ _ _ _ b hname h => h.declare hname b,
    fun _ _ _ _ _ _ _ fuel depth hm hr hk => Run.eval_thisRef hm hr hk fuel depth⟩

/-- A method with no parameters and an empty body. -/
def emptyMethod (name : String) : FunDecl := .mk ⟨.terminal .identifier, name, .null, 1, 1⟩ [] []

/-- A class `A` declaring only the method `m`, at the top level. -/
def classWithM : Klass := .mk "A" none [("m", ⟨emptyMethod "m", Store.globals, false⟩)]

/-- The store once `A().m` was bound: instance `0` of `A`, and frame `1` binding `this` to it. -/
def boundToInstance : Store :=
  ((Store.initial.newObject).2.pushWith Store.globals [("this", .object 0 classWithM)]).2

/-- A block `{ var x; this.m; }` in the body of `m`, bound as above: `this` in it reads the
instance, `this.m` binds `m` to the instance again, and calling the bound method runs its body
in a frame that sees `this` bound to the instance. -/
theorem nested_block_reads_the_receiver :
    Run.eval 1 1 2 (.thisRef ⟨.terminal .kwThis, "this", .null, 1, 20⟩ (some 1))
        { store := (boundToInstance.pushWith 1 [("x", .nil)]).2 } =
      .ok (.object 0 classWithM) { store := (boundToInstance.pushWith 1 [("x", .nil)]).2 } ∧
    Run.eval 2 0 2 (.get (.thisRef ⟨.terminal .kwThis, "this", .null, 1, 20⟩ (some 1))
        ⟨.terminal .identifier, "m", .null, 1, 25⟩)
        { store := (boundToInstance.pushWith 1 [("x", .nil)]).2 } =
      .ok (.function ⟨emptyMethod "m", 3, false⟩)
        { store := ((boundToInstance.pushWith 1 [("x", .nil)]).2.pushWith Store.globals
          [("this", .object 0 classWithM)]).2 } ∧
    (∃ k m₁, Run.callClosure 1 0 ⟨.terminal .rightParen, ")", .null, 1, 12⟩
        ⟨emptyMethod "m", 1, false⟩ [] { store := boundToInstance } =
        (Run.execList 0 1 2 [] >>= k) m₁ ∧
      m₁.store.InMethod 2 [[], [("this", true)]] (.object 0 classWithM) none) ∧
    (Session.new 0).KeepsReserved ((Session.new 0).runLines []) := by
  obtain ⟨hget, hcall, -, hsession, -, hpush, hdeclare, hthis⟩ := bound_methods_see_their_receiver
  have hbound : boundToInstance.InMethod 1 [[("this", true)]] (.object 0 classWithM) none :=
    Store.inMethod_bindFrame _ Store.globals _ (fun _ hk => (Option.not_mem_none _ hk).elim)
  -- the block's frame, with `x` declared in it
  have hblock : (boundToInstance.pushWith 1 [("x", .nil)]).2.InMethod 2
      [[("x", true)], [("this", true)]] (.object 0 classWithM) none :=
    hdeclare _ 2 [[], [("this", true)]] _ none "x" true (by simp [Reserved])
      (hpush _ 1 _ _ none [] [("x", .nil)] (by simp) hbound)
  have hread := hthis { store := (boundToInstance.pushWith 1 [("x", .nil)]).2 } 2 _ _ none
    ⟨.terminal .kwThis, "this", .null, 1, 20⟩ (some 1) 0 1 hblock
    (by simp [Expr.ResolvedIn, Refers, declaredAt]) rfl
  refine ⟨hread, ?_, ?_, hsession _ [] (by simpa [Session.new] using Store.hygienic_initial)⟩
  · rw [hget 1 0 2 _ ⟨.terminal .identifier, "m", .null, 1, 25⟩ _ _ 0 classWithM hread]
    rfl
  · exact hcall (Store.initial.newObject).2 ⟨emptyMethod "m", Store.globals, false⟩
      (.object 0 classWithM) [] { store := boundToInstance } 0 0 _ []
      (by simp [emptyMethod, FunDecl.params]) (Store.Keeps.refl _) (by decide)

/-- A method that assigns `this` and returns it, called on a new instance and printed. -/
def thisReassigned : List Stmt :=
  let thisTok : Token := { kind := .terminal .kwThis, lexeme := "this" }
  let paren : Token := { kind := .terminal .rightParen, lexeme := ")" }
  [.classDecl { kind := .terminal .identifier, lexeme := "A" } none
     [.mk { kind := .terminal .identifier, lexeme := "m" } []
       [.expr (.assign thisTok (.literal (.str "x")) (some 1)),
        .returnStmt { kind := .terminal .kwReturn, lexeme := "return" }
          (some (.thisRef thisTok (some 1)))]],
   .print (.call (.get (.call (.var { kind := .terminal .identifier, lexeme := "A" } none) paren [])
      { kind := .terminal .identifier, lexeme := "m" }) paren [])]

/-- A tree that assigns `this`, resolved as the resolver resolves it, rebinds the receiver: the
method returns the string it assigned, not the instance. -/
theorem assigned_this_replaces_the_receiver :
    Stmt.ListResolvedIn [] thisReassigned ∧ ¬ Stmt.AllHygienic thisReassigned ∧
      (match (Run.program thisReassigned).run {} with
        | .ok _ m => m.output
        | .error _ m => m.output) = #["x\n"] := by
  refine ⟨?_, ?_, by decide +kernel⟩
  · simp [thisReassigned, Stmt.ListResolvedIn, Stmt.ResolvedIn, FunDecl.AllResolvedIn,
      FunDecl.ResolvedIn, Expr.ResolvedIn, Expr.AllResolvedIn, Refers, methodScopes,
      putInnermost, paramScope, Stmt.after, Stmt.declared?]
  · simp [thisReassigned, Stmt.AllHygienic, Stmt.Hygienic, FunDecl.AllHygienic,
      FunDecl.Hygienic, Expr.Hygienic, Token.Declarable]

/-- `super` is fixed where a class is declared. Declaring a class with a superclass `S` binds its
name to the class, whose methods close over a frame that sees `super` bound to `S`. Such a method
bound to a receiver and called in any later store that keeps the one it was bound in runs its
body in a frame that sees `this` bound to the receiver and `super` bound to `S` one frame
further out; runs of hygienic code, the lines a session runs from source, nested frames and
declarations keep that. `super.m` evaluated there gives the method `m` that `S` finds, bound to
the receiver, or an error at `m`. -/
theorem super_dispatches_statically :
    (∀ env (name : Token) S ms (m m' : Machine) c Γ, name.Declarable →
      Run.defineClass env name (some S) ms m = .ok c m' →
      (∃ b, (m'.store.frame b).slots.lookup name.lexeme =
        some (.klass ⟨name.lexeme, some S, Run.methodTable ms m.store.frames.size⟩)) ∧
      (∀ p ∈ Run.methodTable ms m.store.frames.size, p.2.frame = m.store.frames.size) ∧
      m'.store.Sees m.store.frames.size ([("super", true)] :: Γ) "super" 0 (.klass S)) ∧
    (∀ (s : Store) (c : Closure) (r : Value) (Γ : List Scope) S (m : Machine) fuel depth paren
      args, s.Sees c.frame Γ "super" 0 (.klass S) → (∀ p ∈ c.decl.params, p.Declarable) →
      (s.pushWith c.frame [("this", r)]).2.Keeps m.store → depth + 1 ≤ Run.frameLimit →
      ∃ k m₁, Run.callClosure (fuel + 1) depth paren { c with frame := s.frames.size } args m =
          (Run.execList fuel (depth + 1) m.store.frames.size c.decl.body >>= k) m₁ ∧
        m₁.store.InMethod m.store.frames.size (paramScope c.decl.params :: [("this", true)] :: Γ)
          r (some S)) ∧
    (∀ fuel, Run.KeptAt fuel) ∧
    (∀ (s : Session) lines, s.machine.store.Hygienic → s.KeepsReserved (s.runLines lines)) ∧
    (∀ (s s' : Store) env Γ r sup, s.Keeps s' → s.InMethod env Γ r sup →
      s'.InMethod env Γ r sup) ∧
    (∀ (s : Store) env Γ r sup (sc : Scope) slots, (∀ x, Reserved x → sc.lookup x = none) →
      s.InMethod env Γ r sup → (s.pushWith env slots).2.InMethod s.frames.size (sc :: Γ) r sup) ∧
    (∀ (s : Store) env Γ r sup (name : String) b, ¬ Reserved name →
      s.InMethod env Γ r sup → s.InMethod env (putInnermost Γ name b) r sup) ∧
    ∀ (m : Machine) env Γ r S (k method : Token) d fuel depth, m.store.InMethod env Γ r (some S) →
      (Expr.superMethod k method d).ResolvedIn Γ → k.lexeme = "super" →
      Run.eval (fuel + 1) depth env (.superMethod k method d) m =
        match S.findMethod method.lexeme with
        | some c => .ok (.function { c with frame := m.store.frames.size })
            { m with store := (m.store.pushWith c.frame [("this", r)]).2 }
        | none => .error (.error (.undefinedProperty method)) m :=
  ⟨fun _ _ _ _ _ _ _ Γ hname h => Run.defineClass_superFrame hname h Γ,
    fun _ _ _ _ S _ fuel depth paren args hsuper hps hkeep hdepth =>
      Run.bound_call_inMethod (fun _ (hk : _ ∈ some S) => Option.some.inj hk ▸ hsuper) hps hkeep
        fuel depth paren args hdepth,
    Run.keptAt,
    fun _ lines hs => Session.runLines_keepsReserved hs lines,
    fun _ _ _ _ _ _ hk h => h.keep hk,
    fun _ _ _ _ _ _ slots hsc h => h.push hsc slots,
    fun _ _ _ _ _ _ b hname h => h.declare hname b,
    fun _ _ _ _ _ _ _ _ fuel depth hm hr hk => Run.eval_superMethod hm hr hk fuel depth⟩

/-- `class B < A { t() {} }` with `A` as above. -/
def subclassB : Klass := .mk "B" (some classWithM) [("t", ⟨emptyMethod "t", 1, false⟩)]

/-- The store once `B` was declared at the top level: frame `1` binds `super` to `A`, and the
globals bind `B`. -/
def declaredB : Store :=
  ((Store.initial.define Store.globals "B" .nil).pushWith Store.globals
    [("super", .klass classWithM)]).2.define Store.globals "B" (.klass subclassB)

/-- `B` declared at the top level gives its methods a frame that sees `super` bound to `A`;
`t` bound to an instance of `B` and called runs its body in a frame that sees both the instance
and `A`, and `super.m` in the bound frame is `A`'s `m` bound to the instance. -/
theorem subclass_methods_see_their_superclass :
    Run.defineClass Store.globals ⟨.terminal .identifier, "B", .null, 1, 7⟩ (some classWithM)
        [emptyMethod "t"] {} = .ok .normal { store := declaredB } ∧
      declaredB.Sees 1 [[("super", true)]] "super" 0 (.klass classWithM) ∧
    (∃ k m₁, Run.callClosure 1 0 ⟨.terminal .rightParen, ")", .null, 1, 12⟩
        ⟨emptyMethod "t", 2, false⟩ []
        { store := (declaredB.pushWith 1 [("this", .object 0 subclassB)]).2 } =
        (Run.execList 0 1 3 [] >>= k) m₁ ∧
      m₁.store.InMethod 3 [[], [("this", true)], [("super", true)]] (.object 0 subclassB)
        (some classWithM)) ∧
    Run.eval 1 0 2 (.superMethod ⟨.terminal .kwSuper, "super", .null, 1, 20⟩
        ⟨.terminal .identifier, "m", .null, 1, 26⟩ (some 1))
        { store := (declaredB.pushWith 1 [("this", .object 0 subclassB)]).2 } =
      .ok (.function ⟨emptyMethod "m", 3, false⟩)
        { store := ((declaredB.pushWith 1 [("this", .object 0 subclassB)]).2.pushWith
          Store.globals [("this", .object 0 subclassB)]).2 } := by
  obtain ⟨hclass, hcall, -, -, -, -, -, hsuper⟩ := super_dispatches_statically
  have hdefine : Run.defineClass Store.globals ⟨.terminal .identifier, "B", .null, 1, 7⟩
      (some classWithM) [emptyMethod "t"] {} = .ok .normal { store := declaredB } := by
    simp [Run.defineClass, Run.methodFrame, Run.change, Run.pushFrame, Run.note]
    rfl
  obtain ⟨-, -, hsees⟩ := hclass Store.globals _ classWithM _ {} _ _ [] (by simp [Token.Declarable])
    hdefine
  have hbound := Store.inMethod_bindFrame declaredB 1 (.object 0 subclassB)
    fun k (hk : k ∈ some classWithM) => Option.some.inj hk ▸ hsees
  refine ⟨hdefine, hsees, hcall declaredB ⟨emptyMethod "t", 1, false⟩ (.object 0 subclassB)
    [[("super", true)]] classWithM
    { store := (declaredB.pushWith 1 [("this", .object 0 subclassB)]).2 } 0 0 _ [] hsees
    (by simp [emptyMethod, FunDecl.params]) (Store.Keeps.refl _) (by decide), ?_⟩
  rw [hsuper _ 2 _ _ classWithM _ _ (some 1) 0 0 hbound
    (by simp [Expr.ResolvedIn, Refers, declaredAt]) rfl]
  rfl

/-- A subclass method that assigns `super` another class before calling `super.m()`. -/
def superReassigned : List Stmt :=
  let ident (text : String) : Token := { kind := .terminal .identifier, lexeme := text }
  let superTok : Token := { kind := .terminal .kwSuper, lexeme := "super" }
  let returnTok : Token := { kind := .terminal .kwReturn, lexeme := "return" }
  let paren : Token := { kind := .terminal .rightParen, lexeme := ")" }
  let returning (c text : String) : Stmt :=
    .classDecl (ident c) none [.mk (ident "m") [] [.returnStmt returnTok (some (.literal (.str text)))]]
  [returning "A" "A", returning "Z" "Z",
   .classDecl (ident "B") (some (.var (ident "A") none))
     [.mk (ident "t") []
       [.expr (.assign superTok (.var (ident "Z") none) (some 2)),
        .returnStmt returnTok (some (.call (.superMethod superTok (ident "m") (some 2)) paren []))]],
   .print (.call (.get (.call (.var (ident "B") none) paren []) (ident "t")) paren [])]

/-- A tree that assigns `super`, resolved as the resolver resolves it, redirects `super.m()` to the
class it assigned. -/
theorem assigned_super_redirects_dispatch :
    Stmt.ListResolvedIn [] superReassigned ∧ ¬ Stmt.AllHygienic superReassigned ∧
      (match (Run.program superReassigned).run {} with
        | .ok _ m => m.output
        | .error _ m => m.output) = #["Z\n"] := by
  refine ⟨?_, ?_, by decide +kernel⟩
  · simp [superReassigned, Stmt.ListResolvedIn, Stmt.ResolvedIn, FunDecl.AllResolvedIn,
      FunDecl.ResolvedIn, Expr.ResolvedIn, Expr.AllResolvedIn, Refers, methodScopes,
      putInnermost, paramScope, Stmt.after, Stmt.declared?]
    -- what is left: no scope inside the one of `super` declares it, and none declares `Z`
    refine ⟨⟨by decide, fun k => ?_⟩, by decide⟩
    rcases k with _ | _ | _ | k <;> simp
  · simp [superReassigned, Stmt.AllHygienic, Stmt.Hygienic, FunDecl.AllHygienic,
      FunDecl.Hygienic, Expr.Hygienic, Token.Declarable]

end Lox
