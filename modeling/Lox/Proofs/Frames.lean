import Lox.Eval
import Lox.Proofs.ScopeResolution

/-!
# Frames that stand for scopes

The frame a tree runs in and the frames it is nested in stand for the scopes the resolver used
(`Store.Realizes`): there are as many of them, and each binds every name its scope has completely
declared. A function value fits a store when its frame stands for the scopes its body was
resolved in, and a store fits when every value it holds does (`Store.Fits`). Every change a run
makes to the store only grows it (`Store.Grows`), and growing keeps both relations, so none of
this is ever lost. `Run.safeAt` shows that the evaluator keeps them.
-/

namespace Lox

theorem declaredAt_lt {Γ : List Scope} {k : Nat} {name : String}
    (h : (declaredAt Γ k name).isSome) : k < Γ.length := by
  rcases Nat.lt_or_ge k Γ.length with hk | hk
  · exact hk
  · simp [declaredAt, List.getElem?_eq_none hk] at h

theorem Stmt.after_nil (st : Stmt) : st.after [] = [] := by
  unfold Stmt.after
  split <;> rfl

theorem Stmt.resolvedIn_ifElse {Γ : List Scope} {c : Expr} {t : Stmt} {e : Option Stmt} :
    (Stmt.ifElse c t e).ResolvedIn Γ ↔ c.ResolvedIn Γ ∧ t.ResolvedIn Γ ∧ t.declared? = none ∧
      ∀ e' ∈ e, e'.ResolvedIn Γ ∧ e'.declared? = none := by
  cases e <;> simp [Stmt.ResolvedIn]

theorem FunDecl.resolvedIn_of_mem {Γ : List Scope} :
    ∀ {ms : List FunDecl}, FunDecl.AllResolvedIn Γ ms → ∀ m ∈ ms, m.ResolvedIn Γ
  | _ :: _, ⟨hm, _⟩, _, .head _ => hm
  | _ :: _, ⟨_, hrest⟩, _, .tail _ hmem => FunDecl.resolvedIn_of_mem hrest _ hmem

theorem Klass.arity_of_findMethod {k : Klass} {m : Closure} (hm : k.findMethod "init" = some m) :
    k.arity = m.decl.params.length := by
  rw [Klass.arity, hm]

namespace Store

/-- What a later store keeps of an earlier one: its frames, their parents, and every name they
bind. -/
structure Grows (s s' : Store) : Prop where
  size : s.frames.size ≤ s'.frames.size
  parent : ∀ f, f < s.frames.size → (s'.frame f).parent = (s.frame f).parent
  bound : ∀ f name, ((s.frame f).slots.lookup name).isSome → ((s'.frame f).slots.lookup name).isSome

theorem Grows.refl (s : Store) : s.Grows s := ⟨Nat.le_refl _, fun _ _ => rfl, fun _ _ h => h⟩

theorem Grows.trans {s₁ s₂ s₃ : Store} (h₁ : s₁.Grows s₂) (h₂ : s₂.Grows s₃) : s₁.Grows s₃ :=
  ⟨Nat.le_trans h₁.size h₂.size,
    fun f hf => (h₂.parent f (Nat.lt_of_lt_of_le hf h₁.size)).trans (h₁.parent f hf),
    fun f name h => h₂.bound f name (h₁.bound f name h)⟩

theorem frame_of_size_le {s : Store} {f : Nat} (h : s.frames.size ≤ f) : s.frame f = ⟨none, []⟩ := by
  simp [frame, Array.getElem?_eq_none h]

theorem size_define (s : Store) (f : Nat) (name : String) (v : Value) :
    (s.define f name v).frames.size = s.frames.size := by
  simp [define]

theorem lookup_define (s : Store) (f g : Nat) (name key : String) (v : Value) :
    ((s.define f name v).frame g).slots.lookup key =
      if f = g ∧ f < s.frames.size ∧ key = name then some v else (s.frame g).slots.lookup key := by
  by_cases hfg : f = g
  · subst hfg
    by_cases hf : f < s.frames.size
    · rw [lookup_define_self s name key v hf]
      by_cases hk : key = name <;> simp [hf, hk]
    · have hle : s.frames.size ≤ f := Nat.le_of_not_lt hf
      rw [frame_of_size_le hle, frame_of_size_le (by rw [size_define]; exact hle)]
      simp [hf]
  · rw [frame_define_ne s name v hfg]
    simp [hfg]

theorem Grows.define (s : Store) (f : Nat) (name : String) (v : Value) :
    s.Grows (s.define f name v) := by
  refine ⟨Nat.le_of_eq (size_define s f name v).symm, fun g _ => parent_define s f g name v,
    fun g key h => ?_⟩
  rw [lookup_define]
  split
  · rfl
  · exact h

theorem size_pushWith (s : Store) (parent : Nat) (slots : List (String × Value)) :
    (s.pushWith parent slots).2.frames.size = s.frames.size + 1 := by
  simp [pushWith]

theorem frame_pushWith_self (s : Store) (parent : Nat) (slots : List (String × Value)) :
    (s.pushWith parent slots).2.frame s.frames.size = ⟨some parent, putAll slots⟩ := by
  simp [pushWith, frame]

theorem frame_pushWith_ne (s : Store) (parent : Nat) (slots : List (String × Value)) {g : Nat}
    (h : g ≠ s.frames.size) : (s.pushWith parent slots).2.frame g = s.frame g := by
  by_cases hg : g < s.frames.size
  · simp [pushWith, frame, Array.getElem?_push, Nat.ne_of_lt hg]
  · have hle : s.frames.size + 1 ≤ g := by omega
    rw [frame_of_size_le (by rw [size_pushWith]; exact hle), frame_of_size_le (by omega)]

theorem Grows.pushWith (s : Store) (parent : Nat) (slots : List (String × Value)) :
    s.Grows (s.pushWith parent slots).2 := by
  refine ⟨by rw [size_pushWith]; omega, fun g hg => ?_, fun g key h => ?_⟩
  · rw [frame_pushWith_ne s parent slots (Nat.ne_of_lt hg)]
  · by_cases hg : g = s.frames.size
    · subst hg
      rw [frame_of_size_le (Nat.le_refl _)] at h
      simp at h
    · rw [frame_pushWith_ne s parent slots hg]
      exact h

theorem mem_of_lookup_put {slots : List (String × Value)} {name key : String} {v w : Value}
    (h : (put slots name v).lookup key = some w) :
    (key = name ∧ w = v) ∨ slots.lookup key = some w := by
  rw [lookup_put] at h
  split at h
  · exact .inl ⟨‹_›, (Option.some.inj h).symm⟩
  · exact .inr h

theorem lookup_foldl_put {key : String} {w : Value} :
    ∀ (slots acc : List (String × Value)),
      (slots.foldl (fun acc (k, v) => put acc k v) acc).lookup key = some w →
        (key, w) ∈ slots ∨ acc.lookup key = some w
  | [], _, h => .inr h
  | (k, v) :: rest, acc, h => by
    rw [List.foldl_cons] at h
    rcases lookup_foldl_put rest _ h with hmem | hput
    · exact .inl (List.mem_cons_of_mem _ hmem)
    · rcases mem_of_lookup_put hput with ⟨rfl, rfl⟩ | hold
      · exact .inl List.mem_cons_self
      · exact .inr hold

theorem lookup_putAll_mem {slots : List (String × Value)} {key : String} {w : Value}
    (h : (putAll slots).lookup key = some w) : (key, w) ∈ slots := by
  rcases lookup_foldl_put slots [] h with hmem | hnil
  · exact hmem
  · simp at hnil

theorem lookup_foldl_put_isSome {key : String} :
    ∀ (slots acc : List (String × Value)), (key ∈ slots.map (·.1) ∨ (acc.lookup key).isSome) →
      ((slots.foldl (fun acc (k, v) => put acc k v) acc).lookup key).isSome
  | [], _, h => by simpa using h
  | (k, v) :: rest, acc, h => by
    rw [List.foldl_cons]
    apply lookup_foldl_put_isSome rest
    by_cases hk : key = k
    · exact .inr (by simp [lookup_put, hk])
    · rcases h with hmem | hsome
      · exact .inl (by simpa [hk] using hmem)
      · exact .inr (by rw [lookup_put, if_neg hk]; exact hsome)

theorem lookup_putAll_isSome {slots : List (String × Value)} {key : String}
    (h : key ∈ slots.map (·.1)) : ((putAll slots).lookup key).isSome :=
  lookup_foldl_put_isSome slots [] (.inl h)

theorem Grows.of_frames {s s' : Store} (h : s'.frames = s.frames) : s.Grows s' :=
  ⟨Nat.le_of_eq (congrArg Array.size h).symm, fun f _ => by simp [frame, h],
    fun f name hf => by simpa [frame, h] using hf⟩

theorem Grows.newObject (s : Store) : s.Grows s.newObject.2 :=
  Grows.of_frames rfl

theorem Grows.setField (s : Store) (id : Nat) (name : String) (v : Value) :
    s.Grows (s.setField id name v) :=
  Grows.of_frames rfl

theorem field?_newObject {s : Store} {id : Nat} {name : String} {v : Value}
    (h : s.newObject.2.field? id name = some v) : s.field? id name = some v := by
  simp only [field?, newObject, Array.getElem?_push] at h
  split at h
  · simp at h
  · exact h

theorem field?_setField {s : Store} {id id' : Nat} {name key : String} {v w : Value}
    (h : (s.setField id name v).field? id' key = some w) : w = v ∨ s.field? id' key = some w := by
  simp only [field?, setField, Array.getElem?_modify] at h
  by_cases hid : id = id'
  · subst hid
    simp only [if_true] at h
    cases ho : s.objects[id]? with
    | none => simp [ho] at h
    | some o =>
      simp only [ho, Option.map_some, Option.bind_some] at h
      rcases mem_of_lookup_put h with ⟨_, rfl⟩ | hold
      · exact .inl rfl
      · exact .inr (by simp [field?, ho, hold])
  · simp only [hid, if_false] at h
    exact .inr h

theorem lookupWith_frame {s : Store} {name : String} {fuel f : Nat} {v : Value}
    (h : s.lookupWith name fuel f = some v) : ∃ g, (s.frame g).slots.lookup name = some v := by
  induction fuel generalizing f with
  | zero => simp [lookupWith] at h
  | succ fuel ih =>
    simp only [lookupWith] at h
    split at h
    · next w hw => exact ⟨f, by rw [hw, h]⟩
    · split at h
      · exact ih h
      · simp at h

theorem getAt_frame {s : Store} {f d : Nat} {name : String} {v : Value}
    (h : s.getAt f d name = .ok v) : ∃ g, (s.frame g).slots.lookup name = some v := by
  simp only [getAt, bind, Except.bind] at h
  split at h
  · simp at h
  · next a _ =>
    split at h
    · next w hw => exact ⟨a, by rw [hw]; simpa [pure, Except.pure] using h⟩
    · simp at h

theorem getAt_zero {s : Store} {f : Nat} {name : String}
    (h : ((s.frame f).slots.lookup name).isSome) : ∃ v, s.getAt f 0 name = .ok v := by
  obtain ⟨v, hv⟩ := Option.isSome_iff_exists.mp h
  exact ⟨v, by simp [Store.getAt, Store.ancestor, hv, bind, Except.bind, pure, Except.pure]⟩

/-- Frame `f` and the frames it is nested in stand for the scopes `Γ`, innermost first: each
frame exists and binds every name its scope declares completely. -/
def Realizes (s : Store) : Nat → List Scope → Prop
  | _, [] => True
  | f, sc :: rest => f < s.frames.size ∧
      (∀ name, sc.lookup name = some true → ((s.frame f).slots.lookup name).isSome) ∧
      ∃ p, (s.frame f).parent = some p ∧ s.Realizes p rest

theorem Realizes.grow {s s' : Store} (hg : s.Grows s') :
    ∀ {f : Nat} {Γ : List Scope}, s.Realizes f Γ → s'.Realizes f Γ
  | _, [], _ => trivial
  | f, _ :: _, ⟨hf, hbound, p, hp, hrest⟩ =>
    ⟨Nat.lt_of_lt_of_le hf hg.size, fun name h => hg.bound f name (hbound name h),
      p, (hg.parent f hf).trans hp, Realizes.grow hg hrest⟩

/-- Where the scopes declare a name completely, the frame that many steps out exists and binds
it. -/
theorem Realizes.ancestor_binds {s : Store} :
    ∀ {f : Nat} {Γ : List Scope} {k : Nat} {name : String}, s.Realizes f Γ →
      declaredAt Γ k name = some true →
      ∃ a, s.ancestor f k = .ok a ∧ ((s.frame a).slots.lookup name).isSome
  | _, [], _, _, _, h => by simp at h
  | f, sc :: _, 0, name, ⟨_, hbound, _⟩, h => ⟨f, rfl, hbound name h⟩
  | f, _ :: _, k + 1, _, ⟨_, _, p, hp, hrest⟩, h => by
    obtain ⟨a, ha, hbinds⟩ := Realizes.ancestor_binds hrest h
    exact ⟨a, by simp [ancestor, hp, ha], hbinds⟩

theorem Realizes.ancestor_exists {s : Store} :
    ∀ {f : Nat} {Γ : List Scope} {k : Nat}, s.Realizes f Γ → k < Γ.length →
      ∃ a, s.ancestor f k = .ok a
  | _, [], _, _, h => by simp at h
  | f, _ :: _, 0, _, _ => ⟨f, rfl⟩
  | _, _ :: _, k + 1, ⟨_, _, p, hp, hrest⟩, h => by
    obtain ⟨a, ha⟩ := Realizes.ancestor_exists hrest (k := k) (by simpa using h)
    exact ⟨a, by simp [ancestor, hp, ha]⟩

theorem Realizes.getAt {s : Store} {f : Nat} {Γ : List Scope} {k : Nat} {name : String}
    (h : s.Realizes f Γ) (hk : declaredAt Γ k name = some true) :
    ∃ v, s.getAt f k name = .ok v := by
  obtain ⟨a, ha, hbinds⟩ := h.ancestor_binds hk
  obtain ⟨v, hv⟩ := Option.isSome_iff_exists.mp hbinds
  exact ⟨v, by simp [Store.getAt, ha, hv, bind, Except.bind, pure, Except.pure]⟩

/-- A declaration in progress asks nothing of the frames. -/
theorem Realizes.putInnermost_false {s : Store} {f : Nat} {Γ : List Scope} (h : s.Realizes f Γ)
    (name : String) : s.Realizes f (putInnermost Γ name false) := by
  cases Γ with
  | nil => trivial
  | cons sc rest =>
    obtain ⟨hf, hbound, hparent⟩ := h
    refine ⟨hf, fun key hkey => hbound key ?_, hparent⟩
    rw [Scope.lookup_put] at hkey
    split at hkey
    · simp at hkey
    · exact hkey

/-- Binding a name in the innermost frame completes its declaration. -/
theorem Realizes.define_self {s : Store} {f : Nat} {Γ : List Scope} (h : s.Realizes f Γ)
    (name : String) (v : Value) : (s.define f name v).Realizes f (putInnermost Γ name true) := by
  cases Γ with
  | nil => trivial
  | cons sc rest =>
    obtain ⟨hf, hbound, p, hp, hrest⟩ := h
    refine ⟨by rw [size_define]; exact hf, fun key hkey => ?_, p,
      (parent_define s f f name v).trans hp, hrest.grow (Grows.define s f name v)⟩
    rw [lookup_define]
    by_cases hk : key = name
    · simp [hf, hk]
    · rw [Scope.lookup_put, if_neg hk] at hkey
      rw [if_neg (by simp [hk])]
      exact hbound key hkey

/-- A new frame holding its bindings stands for a scope whose complete names it binds. -/
theorem Realizes.pushWith {s : Store} {parent : Nat} {Γ : List Scope} {sc : Scope}
    {slots : List (String × Value)} (h : s.Realizes parent Γ)
    (hsc : ∀ name, sc.lookup name = some true → name ∈ slots.map (·.1)) :
    (s.pushWith parent slots).2.Realizes s.frames.size (sc :: Γ) := by
  refine ⟨by rw [size_pushWith]; omega, fun name hname => ?_, parent, ?_,
    h.grow (Grows.pushWith s parent slots)⟩
  · rw [frame_pushWith_self]
    exact lookup_putAll_isSome (hsc name hname)
  · rw [frame_pushWith_self]

end Store

/-- A function fits a store when its frame stands for scopes its declaration is resolved in, and
an initializer's frame binds `this`. -/
def Closure.Fits (s : Store) (c : Closure) : Prop :=
  (∃ Γ, s.Realizes c.frame Γ ∧ c.decl.ResolvedIn Γ) ∧
    (c.isInitializer = true → ((s.frame c.frame).slots.lookup "this").isSome)

/-- A method fits a store when its frame stands for scopes that, with a scope holding `this`
inside them, its declaration is resolved in. -/
def Closure.FitsMethod (s : Store) (c : Closure) : Prop :=
  ∃ Γ, s.Realizes c.frame Γ ∧ c.decl.ResolvedIn ([("this", true)] :: Γ)

/-- A class fits a store when its methods and those of its superclasses do. -/
def Klass.Fits (s : Store) : Klass → Prop
  | .mk _ none ms => ∀ p ∈ ms, p.2.FitsMethod s
  | .mk _ (some k) ms => (∀ p ∈ ms, p.2.FitsMethod s) ∧ k.Fits s

/-- A value fits a store when the functions and classes in it do. -/
def Value.Fits (s : Store) : Value → Prop
  | .function c => c.Fits s
  | .klass k => k.Fits s
  | .object _ k => k.Fits s
  | _ => True

/-- How a statement finished fits a store when the value it returned does. -/
def Completion.Fits (s : Store) : Completion → Prop
  | .normal => True
  | .returned v => v.Fits s

/-- Every value a store holds, in a frame or in a field, fits it. -/
structure Store.Fits (s : Store) : Prop where
  slots : ∀ f name v, (s.frame f).slots.lookup name = some v → v.Fits s
  fields : ∀ id name v, s.field? id name = some v → v.Fits s

variable {s s' : Store}

theorem Closure.Fits.grow {c : Closure} (hg : s.Grows s') (h : c.Fits s) : c.Fits s' :=
  ⟨let ⟨Γ, hr, hd⟩ := h.1; ⟨Γ, hr.grow hg, hd⟩, fun hi => hg.bound _ _ (h.2 hi)⟩

theorem Closure.FitsMethod.grow {c : Closure} (hg : s.Grows s') (h : c.FitsMethod s) :
    c.FitsMethod s' :=
  let ⟨Γ, hr, hd⟩ := h
  ⟨Γ, hr.grow hg, hd⟩

theorem Klass.Fits.grow (hg : s.Grows s') : ∀ {k : Klass}, k.Fits s → k.Fits s'
  | .mk _ none _, h => fun p hp => (h p hp).grow hg
  | .mk _ (some _) _, h => ⟨fun p hp => (h.1 p hp).grow hg, Klass.Fits.grow hg h.2⟩

theorem Value.Fits.grow (hg : s.Grows s') : ∀ {v : Value}, v.Fits s → v.Fits s'
  | .function _, h => Closure.Fits.grow hg h
  | .klass _, h => Klass.Fits.grow hg h
  | .object _ _, h => Klass.Fits.grow hg h
  | .nil, _ | .bool _, _ | .num _, _ | .str _, _ | .native _, _ | .data _, _ => trivial

theorem Completion.Fits.grow (hg : s.Grows s') : ∀ {c : Completion}, c.Fits s → c.Fits s'
  | .normal, _ => trivial
  | .returned _, h => Value.Fits.grow hg h

theorem Klass.Fits.findMethod : ∀ {k : Klass} {name : String} {m : Closure}, k.Fits s →
    k.findMethod name = some m → m.FitsMethod s
  | .mk _ sup ms, name, m, h, hm => by
    have hown : ∀ p ∈ ms, p.2.FitsMethod s := by
      cases sup with
      | none => exact h
      | some _ => exact h.1
    rw [Klass.findMethod.eq_def] at hm
    dsimp only at hm
    cases hl : ms.lookup name with
    | some c =>
      rw [hl] at hm
      cases hm
      obtain ⟨l₁, l₂, hms, -⟩ := List.lookup_eq_some_iff.mp hl
      exact hown (name, m) (by rw [hms]; simp)
    | none =>
      rw [hl] at hm
      cases sup with
      | none => simp at hm
      | some k => exact Klass.Fits.findMethod (k := k) h.2 hm

theorem Value.Fits.ofConstant (s : Store) (c : Constant) : (Value.ofConstant c).Fits s := by
  cases c <;> trivial

namespace Store

theorem Fits.define (h : s.Fits) {f : Nat} {name : String} {v : Value}
    (hv : v.Fits (s.define f name v)) : (s.define f name v).Fits := by
  have hg := Grows.define s f name v
  refine ⟨fun g key w hw => ?_, fun id key w hw => h.fields id key w hw |>.grow hg⟩
  rw [lookup_define] at hw
  split at hw
  · cases hw
    exact hv
  · exact (h.slots g key w hw).grow hg

theorem Fits.pushWith (h : s.Fits) {parent : Nat} {slots : List (String × Value)}
    (hslots : ∀ p ∈ slots, p.2.Fits s) : (s.pushWith parent slots).2.Fits := by
  have hg := Grows.pushWith s parent slots
  refine ⟨fun g key w hw => ?_, fun id key w hw => (h.fields id key w hw).grow hg⟩
  by_cases hgs : g = s.frames.size
  · subst hgs
    rw [frame_pushWith_self] at hw
    exact (hslots (key, w) (lookup_putAll_mem hw)).grow hg
  · rw [frame_pushWith_ne s parent slots hgs] at hw
    exact (h.slots g key w hw).grow hg

theorem Fits.newObject (h : s.Fits) : s.newObject.2.Fits := by
  have hg : s.Grows s.newObject.2 := Grows.of_frames rfl
  exact ⟨fun g key w hw => (h.slots g key w hw).grow hg,
    fun id key w hw => (h.fields id key w (field?_newObject hw)).grow hg⟩

theorem Fits.setField (h : s.Fits) {id : Nat} {name : String} {v : Value} (hv : v.Fits s) :
    (s.setField id name v).Fits := by
  have hg : s.Grows (s.setField id name v) := Grows.of_frames rfl
  refine ⟨fun g key w hw => (h.slots g key w hw).grow hg, fun id' key w hw => ?_⟩
  rcases field?_setField hw with rfl | hold
  · exact hv.grow hg
  · exact (h.fields id' key w hold).grow hg

theorem mem_of_lookup_eq_some {slots : List (String × Value)} {key : String} {v : Value}
    (h : slots.lookup key = some v) : (key, v) ∈ slots := by
  obtain ⟨l₁, l₂, rfl, -⟩ := List.lookup_eq_some_iff.mp h
  simp

theorem Fits.getAt (hfit : s.Fits) {f d : Nat} {name : String} {v : Value}
    (h : s.getAt f d name = .ok v) : v.Fits s :=
  let ⟨g, hg⟩ := getAt_frame h
  hfit.slots g name v hg

/-- The store a session starts with binds only the native functions. -/
theorem fits_initial : Store.initial.Fits := by
  refine ⟨fun g key w hw => ?_, fun id key w hw => by simp [field?, Store.initial] at hw⟩
  have hmem := mem_of_lookup_eq_some hw
  cases g with
  | zero =>
    have hw' : w = .native .clock := by simp [Store.initial, frame] at hmem; exact hmem.2
    subst hw'
    trivial
  | succ g =>
    rw [frame_of_size_le (by simp [Store.initial])] at hmem
    simp at hmem

end Store

end Lox
