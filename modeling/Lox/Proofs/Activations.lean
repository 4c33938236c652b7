import Mathlib.Order.Monotone.Defs
import Mathlib.Order.Nat
import Lox.Proofs.Globals
import Lox.Proofs.Initializers

/-!
# Activations are fresh frames, and closures share them

A call runs its body, and a block its statements, in a frame made for them: it takes the next
number, so it is none of the frames made before, and it is nested in the frame the function
closes over or, for a block, in the frame the block runs in. Every frame is nested in an older one
(`Store.Anchored`), so following parents only goes back in time, and every run keeps it so
(`Run.anchorsAt`).

Frames are shared by number, never copied. A function declared in a frame closes over that
frame itself; the methods of a class close over the frame of the declaration, or over a frame
nested in it that holds `super`; binding a method nests a frame holding `this` in the method's
frame. So a binding made in a frame is read through every chain that reaches the frame
(`Store.getAt_define_of_ancestor`): an assignment made through one closure of an activation is
seen by the others and by later reads in the activation. Two activations nested in one frame,
such as two calls of one function, are apart: neither lies on the other's chain
(`Store.Anchored.apart_of_siblings`). Frames apart never lie on one chain, so what is bound in one
activation is never read through a chain that passes the other (`Store.getAt_define_of_apart`).
-/

namespace Lox

/-- A property of every method of a class and of its superclasses. -/
def Klass.Every (R : Closure → Prop) : Klass → Prop
  | .mk _ none ms => ∀ p ∈ ms, R p.2
  | .mk _ (some k) ms => (∀ p ∈ ms, R p.2) ∧ k.Every R

theorem Klass.Every.mono {R R' : Closure → Prop} (h : ∀ c, R c → R' c) :
    ∀ {k : Klass}, k.Every R → k.Every R'
  | .mk _ none _, hk => fun p hp => h _ (hk p hp)
  | .mk _ (some _) _, hk => ⟨fun p hp => h _ (hk.1 p hp), Klass.Every.mono h hk.2⟩

/-- The method a class finds is one of its own or of a superclass. -/
theorem Klass.Every.findMethod {R : Closure → Prop} :
    ∀ {k : Klass} {name : String} {m : Closure}, k.Every R → k.findMethod name = some m → R m
  | .mk _ sup ms, name, m, h, hm => by
    have hown : ∀ p ∈ ms, R p.2 := by
      cases sup with
      | none => exact h
      | some _ => exact h.1
    rw [Klass.findMethod.eq_def] at hm
    dsimp only at hm
    cases hl : ms.lookup name with
    | some c =>
      rw [hl] at hm
      cases hm
      obtain ⟨l₁, l₂, hms, -⟩ := List.lookup_eq_some_iff.mp hl
      exact hown (name, m) (by rw [hms]; simp)
    | none =>
      rw [hl] at hm
      cases sup with
      | none => cases hm
      | some k => exact Klass.Every.findMethod (k := k) h.2 hm

/-- Every function in a value closes over a frame numbered below `n`. -/
def Value.Below (n : Nat) : Value → Prop
  | .function c => c.frame < n
  | .klass k => k.Every (·.frame < n)
  | .object _ k => k.Every (·.frame < n)
  | _ => True

/-- How a statement finished closes over frames below `n` when the value it returned does. -/
def Completion.Below (n : Nat) : Completion → Prop
  | .normal => True
  | .returned v => v.Below n

theorem Value.below_mono {n n' : Nat} (h : n ≤ n') : ∀ {v : Value}, v.Below n → v.Below n'
  | .function _, hv => Nat.lt_of_lt_of_le hv h
  | .klass _, hv => hv.mono fun _ hc => Nat.lt_of_lt_of_le hc h
  | .object _ _, hv => hv.mono fun _ hc => Nat.lt_of_lt_of_le hc h
  | .nil, _ | .bool _, _ | .num _, _ | .str _, _ | .native _, _ | .data _, _ => trivial

theorem Completion.below_mono {n n' : Nat} (h : n ≤ n') :
    ∀ {c : Completion}, c.Below n → c.Below n'
  | .normal, _ => trivial
  | .returned _, hv => Value.below_mono h hv

theorem Value.below_ofConstant (n : Nat) (c : Constant) : (Value.ofConstant c).Below n := by
  cases c <;> trivial

namespace Store

/-- Every frame is nested in an older one, and every function the store holds closes over a
frame it has. -/
structure Anchored (s : Store) : Prop where
  parent : ∀ f p, (s.frame f).parent = some p → p < f
  slots : ∀ f name v, (s.frame f).slots.lookup name = some v → v.Below s.frames.size
  fields : ∀ id name v, s.field? id name = some v → v.Below s.frames.size

variable {s : Store}

theorem anchored_initial : Store.initial.Anchored where
  parent f p hp := by
    cases f with
    | zero => cases hp
    | succ g =>
      rw [frame_of_size_le (by simp [Store.initial])] at hp
      cases hp
  slots f name v hv := by
    cases f with
    | zero =>
      have hmem := mem_of_lookup_eq_some hv
      have hv' : v = .native .clock := by simp [Store.initial, frame] at hmem; exact hmem.2
      subst hv'
      trivial
    | succ g =>
      rw [frame_of_size_le (by simp [Store.initial])] at hv
      cases hv
  fields id name v hv := by simp [Store.initial, field?] at hv

theorem Anchored.define (h : s.Anchored) {f : Nat} {name : String} {v : Value}
    (hv : v.Below s.frames.size) : (s.define f name v).Anchored where
  parent g p hp := h.parent g p (by rw [← parent_define s f g name v]; exact hp)
  slots g key w hw := by
    rw [size_define]
    rw [lookup_define] at hw
    split at hw
    · cases hw
      exact hv
    · exact h.slots g key w hw
  fields id key w hw := by
    rw [size_define]
    exact h.fields id key w hw

/-- A new frame nested in one the store has, holding functions over frames it has. -/
theorem Anchored.pushWith (h : s.Anchored) {parent : Nat} {slots : List (String × Value)}
    (hp : parent < s.frames.size) (hslots : ∀ p ∈ slots, p.2.Below s.frames.size) :
    (s.pushWith parent slots).2.Anchored where
  parent g q hq := by
    by_cases hg : g = s.frames.size
    · subst hg
      rw [frame_pushWith_self] at hq
      cases hq
      exact hp
    · rw [frame_pushWith_ne s parent slots hg] at hq
      exact h.parent g q hq
  slots g key w hw := by
    have hle : s.frames.size ≤ (s.pushWith parent slots).2.frames.size := by
      rw [size_pushWith]
      omega
    by_cases hg : g = s.frames.size
    · subst hg
      rw [frame_pushWith_self] at hw
      exact Value.below_mono hle (hslots _ (lookup_putAll_mem hw))
    · rw [frame_pushWith_ne s parent slots hg] at hw
      exact Value.below_mono hle (h.slots g key w hw)
  fields id key w hw := by
    rw [size_pushWith]
    exact Value.below_mono (Nat.le_succ _) (h.fields id key w hw)

theorem Anchored.newObject (h : s.Anchored) : s.newObject.2.Anchored where
  parent := h.parent
  slots := h.slots
  fields id key w hw := h.fields id key w (field?_newObject hw)

theorem Anchored.setField (h : s.Anchored) {id : Nat} {name : String} {v : Value}
    (hv : v.Below s.frames.size) : (s.setField id name v).Anchored where
  parent := h.parent
  slots := h.slots
  fields id' key w hw := by
    rcases field?_setField hw with rfl | hold
    · exact hv
    · exact h.fields id' key w hold

theorem Anchored.getAt (h : s.Anchored) {f d : Nat} {name : String} {v : Value}
    (hv : s.getAt f d name = .ok v) : v.Below s.frames.size := by
  obtain ⟨g, hg⟩ := getAt_frame hv
  exact h.slots g name v hg

theorem Anchored.lookup (h : s.Anchored) {f : Nat} {name : String} {v : Value}
    (hv : s.lookup f name = some v) : v.Below s.frames.size := by
  obtain ⟨g, hg⟩ := lookupWith_frame hv
  exact h.slots g name v hg

/-- Following parents only goes back to older frames. -/
theorem Anchored.ancestor_le (h : s.Anchored) :
    ∀ {f d a : Nat}, s.ancestor f d = .ok a → a ≤ f
  | _, 0, _, ha => by
    cases ha
    exact Nat.le_refl _
  | f, d + 1, a, ha => by
    rw [ancestor] at ha
    split at ha
    · next p hp =>
      exact Nat.le_trans (Anchored.ancestor_le h ha) (Nat.le_of_lt (h.parent f p hp))
    · cases ha

/-- Binding a name changes no parent, so no chain. -/
theorem ancestor_define (s : Store) (f : Nat) (name : String) (v : Value) :
    ∀ g d, (s.define f name v).ancestor g d = s.ancestor g d
  | _, 0 => rfl
  | g, d + 1 => by
    rw [ancestor, ancestor, parent_define]
    cases (s.frame g).parent with
    | none => rfl
    | some p => exact ancestor_define s f name v p d

/-- Frames are shared, not copied: a binding made in a frame is read through every chain that
reaches the frame. -/
theorem getAt_define_of_ancestor {g d a : Nat} {name : String} {v : Value}
    (ha : s.ancestor g d = .ok a) (hlt : a < s.frames.size) :
    (s.define a name v).getAt g d name = .ok v :=
  getAt_eq_ok.mpr ⟨a, by rw [ancestor_define]; exact ha,
    by rw [lookup_define, if_pos ⟨rfl, hlt, rfl⟩]⟩

/-- Stepping out `d` and then `k` frames is stepping out `d + k`. -/
theorem ancestor_add : ∀ {f d a : Nat} (k : Nat), s.ancestor f d = .ok a →
    s.ancestor f (d + k) = s.ancestor a k
  | _, 0, _, k, ha => by
    cases ha
    rw [Nat.zero_add]
  | f, d + 1, a, k, ha => by
    rw [show d + 1 + k = d + k + 1 by omega]
    cases hp : (s.frame f).parent with
    | none =>
      rw [ancestor, hp] at ha
      cases ha
    | some p =>
      rw [ancestor, hp] at ha
      rw [ancestor, hp]
      exact ancestor_add k ha

/-- Two frames are apart when neither lies on the other's chain. -/
def Apart (s : Store) (F₁ F₂ : Nat) : Prop :=
  (∀ j, s.ancestor F₁ j ≠ .ok F₂) ∧ ∀ j, s.ancestor F₂ j ≠ .ok F₁

/-- A frame's chain never reaches a frame nested in the same frame as it: that frame is newer than
the common parent, and the chain past the parent holds only older ones. -/
theorem Anchored.sibling_not_ancestor (h : s.Anchored) {F₁ F₂ p : Nat}
    (h₁ : (s.frame F₁).parent = some p) (h₂ : (s.frame F₂).parent = some p) (k : Nat) :
    s.ancestor F₁ (k + 1) ≠ .ok F₂ := by
  intro hk
  rw [ancestor, h₁] at hk
  have hle : F₂ ≤ p := h.ancestor_le hk
  have hlt : p < F₂ := h.parent F₂ p h₂
  omega

/-- Two activations nested in one frame, such as two calls of one function, are apart. -/
theorem Anchored.apart_of_siblings (h : s.Anchored) {F₁ F₂ p : Nat}
    (h₁ : (s.frame F₁).parent = some p) (h₂ : (s.frame F₂).parent = some p)
    (hne : F₁ ≠ F₂) : s.Apart F₁ F₂ := by
  have hnot : ∀ {A B : Nat}, (s.frame A).parent = some p → (s.frame B).parent = some p →
      A ≠ B → ∀ j, s.ancestor A j ≠ .ok B := by
    intro A B hA hB hAB j hj
    cases j with
    | zero => exact hAB (Except.ok.inj hj)
    | succ j => exact h.sibling_not_ancestor hA hB j hj
  exact ⟨hnot h₁ h₂ hne, hnot h₂ h₁ (Ne.symm hne)⟩

/-- Two frames apart never lie on one chain. -/
theorem Apart.not_both_on_chain {F₁ F₂ G d₁ d₂ : Nat} (h : s.Apart F₁ F₂)
    (hc₁ : s.ancestor G d₁ = .ok F₁) (hc₂ : s.ancestor G d₂ = .ok F₂) : False := by
  -- the nearer of the two on the chain would reach the other
  rcases Nat.le_total d₁ d₂ with hle | hle
  · obtain ⟨k, rfl⟩ := Nat.exists_eq_add_of_le hle
    rw [ancestor_add k hc₁] at hc₂
    exact h.1 k hc₂
  · obtain ⟨k, rfl⟩ := Nat.exists_eq_add_of_le hle
    rw [ancestor_add k hc₂] at hc₁
    exact h.2 k hc₁

/-- What is bound in a frame whose chain passes one of two frames apart is never read through a
frame whose chain passes the other. -/
theorem getAt_define_of_apart {F₁ F₂ T k G d₂ : Nat} (h : s.Apart F₁ F₂)
    (hT : s.ancestor T k = .ok F₁) (hc : s.ancestor G d₂ = .ok F₂) (name key : String)
    (v : Value) (d : Nat) :
    (s.define T name v).getAt G d key = s.getAt G d key := by
  cases ha : s.ancestor G d with
  | error e => simp only [getAt, ancestor_define, ha, bind, Except.bind]
  | ok a =>
    -- were the frame on the chain, the chain would pass both
    have hne : T ≠ a := by
      rintro rfl
      exact h.not_both_on_chain ((ancestor_add k ha).trans hT) hc
    simp only [getAt, ancestor_define, ha, bind, Except.bind, frame_define_ne s name v hne]

/-- An assignment by depth is read back through every chain that reaches the frame it binds
in. -/
theorem Anchored.getAt_assignAt (h : s.Anchored) {g₁ d₁ g₂ d₂ : Nat} {name : String}
    {v : Value} {s' : Store} (hg : g₁ < s.frames.size) (hs : s.assignAt g₁ d₁ name v = .ok s')
    (hc : s.ancestor g₂ d₂ = s.ancestor g₁ d₁) : s'.getAt g₂ d₂ name = .ok v := by
  unfold assignAt at hs
  cases ha : s.ancestor g₁ d₁ with
  | error e =>
    rw [ha] at hs
    cases hs
  | ok a =>
    rw [ha] at hs hc
    cases hs
    exact getAt_define_of_ancestor hc (Nat.lt_of_le_of_lt (h.ancestor_le ha) hg)

/-- An assignment by depth to a frame whose chain passes one of two frames apart changes no read
through a frame whose chain passes the other. -/
theorem getAt_assignAt_of_apart {F₁ F₂ g₁ d₁ T k G d₂ : Nat} {name : String} {v : Value}
    {s' : Store} (h : s.Apart F₁ F₂) (ht : s.ancestor g₁ d₁ = .ok T)
    (hT : s.ancestor T k = .ok F₁) (hc : s.ancestor G d₂ = .ok F₂)
    (hs : s.assignAt g₁ d₁ name v = .ok s') (d : Nat) (key : String) :
    s'.getAt G d key = s.getAt G d key := by
  unfold assignAt at hs
  rw [ht] at hs
  cases hs
  exact getAt_define_of_apart h hT hc name key v d

end Store

namespace Run

variable {α β : Type} {P P' : Nat → Prop} {Q Q' : α → Nat → Prop}

/-- How a step may end, run from a store of `n` frames: in an anchored store of at least as many
frames, with a result satisfying `Q` at their number on success. -/
def AnchorEnds (n : Nat) (Q : α → Nat → Prop) : EStateM.Result Failure Machine α → Prop
  | .ok a m => n ≤ m.store.frames.size ∧ m.store.Anchored ∧ Q a m.store.frames.size
  | .error _ m => n ≤ m.store.frames.size ∧ m.store.Anchored

/-- Run from any anchored machine whose number of frames satisfies `P`, the step ends as
`AnchorEnds` says. -/
def Anchors (P : Nat → Prop) (x : Run α) (Q : α → Nat → Prop) : Prop :=
  ∀ m : Machine, m.store.Anchored → P m.store.frames.size →
    AnchorEnds m.store.frames.size Q (x m)

theorem AnchorEnds.grow {n n' : Nat} {r : EStateM.Result Failure Machine α} (hn : n ≤ n')
    (h : AnchorEnds n' Q r) : AnchorEnds n Q r := by
  cases r with
  | ok a m => exact ⟨Nat.le_trans hn h.1, h.2⟩
  | error e m => exact ⟨Nat.le_trans hn h.1, h.2⟩

theorem Anchors.bind {x : Run α} {f : α → Run β} {R : α → Nat → Prop}
    {Q : β → Nat → Prop}
    (hx : Anchors P x R) (hf : ∀ a, Anchors (R a) (f a) Q) : Anchors P (x >>= f) Q := by
  intro m hm hP
  have hxm := hx m hm hP
  rw [run_bind]
  cases hr : x m with
  | ok a m' =>
    rw [hr] at hxm
    exact (hf a m' hxm.2.1 hxm.2.2).grow hxm.1
  | error e m' =>
    rw [hr] at hxm
    exact hxm

theorem Anchors.pure {a : α} (h : ∀ n, P n → Q a n) : Anchors P (Pure.pure a : Run α) Q :=
  fun _ hm hP => ⟨Nat.le_refl _, hm, h _ hP⟩

theorem Anchors.pure_bind {a : β} {k : β → Run α} (h : Anchors P (k a) Q) :
    Anchors P (Pure.pure a >>= k) Q :=
  h

theorem Anchors.throw {e : Failure} : Anchors P (throw e : Run α) Q :=
  fun _ hm _ => ⟨Nat.le_refl _, hm⟩

theorem Anchors.fail {err : RuntimeError} : Anchors P (Run.fail err : Run α) Q :=
  Anchors.throw

theorem Anchors.fail_bind {err : RuntimeError} {k : β → Run α} :
    Anchors P (Run.fail err >>= k) Q :=
  fun _ hm _ => ⟨Nat.le_refl _, hm⟩

theorem Anchors.ite_fail {c : Prop} [Decidable c] {err : RuntimeError} {k : PUnit → Run α}
    (hk : ¬c → Anchors P (k ()) Q) : Anchors P (if c then Run.fail err >>= k else k ()) Q := by
  split
  · exact Anchors.fail_bind
  · next hc => exact hk hc

theorem Anchors.weaken {x : Run α} (hx : Anchors P x Q) (hpre : ∀ n, P' n → P n)
    (hpost : ∀ a n, Q a n → Q' a n) : Anchors P' x Q' := by
  intro m hm hP
  have h := hx m hm (hpre _ hP)
  revert h
  cases x m with
  | ok a m' => exact fun h => ⟨h.1, h.2.1, hpost _ _ h.2.2⟩
  | error e m' => exact id

/-- What holds of more frames whenever it holds of fewer survives every step. -/
theorem Anchors.frame {R : Nat → Prop} {x : Run α} (hx : Anchors P x Q) (hR : Monotone R) :
    Anchors (fun n => P n ∧ R n) x fun a n => Q a n ∧ R n := by
  intro m hm hP
  have h := hx m hm hP.1
  revert h
  cases x m with
  | ok a m' => exact fun h => ⟨h.1, h.2.1, h.2.2, hR h.1 hP.2⟩
  | error e m' => exact id

theorem Anchors.keep {x : Run α} (hx : Anchors P x Q) (hP : Monotone P) :
    Anchors P x fun a n => Q a n ∧ P n :=
  (hx.frame hP).weaken (fun _ h => ⟨h, h⟩) fun _ _ h => h

theorem Anchors.get_bind_of {f : Machine → Run α}
    (h : ∀ m : Machine, m.store.Anchored → P m.store.frames.size →
      Anchors (· = m.store.frames.size) (f m) Q) :
    Anchors P (get >>= f) Q :=
  fun m hm hP => h m hm hP m hm rfl

theorem Anchors.modify_bind {g : Machine → Machine} {k : PUnit → Run α}
    (hg : ∀ m, (g m).store = m.store) (hk : Anchors P (k ⟨⟩) Q) :
    Anchors P (modify g >>= k) Q := by
  intro m hm hP
  have h := hk (g m) (by rw [hg]; exact hm) (by rw [hg]; exact hP)
  rw [hg] at h
  exact h

theorem Anchors.note_bind {level : Nat} {line : Unit → String} {k : PUnit → Run α}
    (hk : Anchors P (k ⟨⟩) Q) : Anchors P (note level line >>= k) Q :=
  Anchors.modify_bind (fun m => by by_cases h : m.level ≥ level <;> simp [h]) hk

theorem Anchors.emit_bind {text : String} {k : PUnit → Run α} (hk : Anchors P (k ⟨⟩) Q) :
    Anchors P (emit text >>= k) Q :=
  Anchors.modify_bind (fun _ => rfl) hk

theorem Anchors.change {g : Store → Store} {Q₀ : Unit → Nat → Prop}
    (hg : ∀ s : Store, s.Anchored → P s.frames.size →
      s.frames.size ≤ (g s).frames.size ∧ (g s).Anchored ∧ Q₀ () (g s).frames.size) :
    Anchors P (Run.change g) Q₀ :=
  fun m hm hP => hg m.store hm hP

theorem Anchors.change_bind {g : Store → Store} {k : PUnit → Run α} {R : Nat → Prop}
    (hg : ∀ s : Store, s.Anchored → P s.frames.size →
      s.frames.size ≤ (g s).frames.size ∧ (g s).Anchored ∧ R (g s).frames.size)
    (hk : Anchors R (k ⟨⟩) Q) : Anchors P (Run.change g >>= k) Q := by
  intro m hm hP
  obtain ⟨hle, hm', hR⟩ := hg m.store hm hP
  exact (hk { m with store := g m.store } hm' hR).grow hle

/-- Binding a value over frames the store has keeps the store anchored, with as many frames. -/
theorem Anchors.define_bind {f : Nat} {name : String} {v : Value} {k : PUnit → Run α}
    (hv : ∀ n, P n → v.Below n) (hk : Anchors P (k ⟨⟩) Q) :
    Anchors P (Run.change (·.define f name v) >>= k) Q :=
  Anchors.change_bind (fun s hs hP => ⟨by rw [Store.size_define], hs.define (hv _ hP),
    by rw [Store.size_define]; exact hP⟩) hk

/-- A frame made nested in one the store has, holding functions over frames it has, keeps it
anchored; the step after it sees one frame more. -/
theorem Anchors.pushFrame_bind {parent : Nat} {slots : List (String × Value)} {k : Nat → Run α}
    (hparent : ∀ n, P n → parent < n) (hslots : ∀ n, P n → ∀ p ∈ slots, p.2.Below n)
    (hk : ∀ f, Anchors (fun n => n = f + 1 ∧ P f) (k f) Q) :
    Anchors P (pushFrame parent slots >>= k) Q := by
  intro m hm hP
  have hsize := Store.size_pushWith m.store parent slots
  exact (hk m.store.frames.size { m with store := (m.store.pushWith parent slots).2 }
    (hm.pushWith (hparent _ hP) (hslots _ hP)) ⟨hsize, hP⟩).grow
    (by rw [hsize]; exact Nat.le_succ _)

theorem Anchors.pushFrame {parent : Nat} {slots : List (String × Value)}
    {Q₀ : Nat → Nat → Prop}
    (hparent : ∀ n, P n → parent < n) (hslots : ∀ n, P n → ∀ p ∈ slots, p.2.Below n)
    (hQ : ∀ n, P n → Q₀ n (n + 1)) : Anchors P (pushFrame parent slots) Q₀ := by
  intro m hm hP
  have hsize := Store.size_pushWith m.store parent slots
  refine ⟨?_, hm.pushWith (hparent _ hP) (hslots _ hP), ?_⟩
  · show m.store.frames.size ≤ (m.store.pushWith parent slots).2.frames.size
    rw [hsize]
    exact Nat.le_succ _
  · show Q₀ m.store.frames.size (m.store.pushWith parent slots).2.frames.size
    rw [hsize]
    exact hQ _ hP

theorem Anchors.newObject_bind {k : Nat → Run α} (hk : ∀ id, Anchors P (k id) Q) :
    Anchors P ((modifyGet fun m =>
      let (id, s) := m.store.newObject
      (id, { m with store := s })) >>= k) Q :=
  fun m hm hP => hk m.store.objects.size { m with store := m.store.newObject.2 } hm.newObject hP

theorem Anchors.lift_bind {e : Except Fault β} {k : β → Run α}
    (hk : ∀ a, e = .ok a → Anchors P (k a) Q) : Anchors P (Run.lift e >>= k) Q := by
  cases e with
  | ok a => exact hk a rfl
  | error f => exact fun _ hm _ => ⟨Nat.le_refl _, hm⟩

theorem Anchors.lift {e : Except Fault α} (h : ∀ a, e = .ok a → ∀ n, P n → Q a n) :
    Anchors P (Run.lift e) Q := by
  cases e with
  | ok a => exact Anchors.pure (h a rfl)
  | error f => exact Anchors.throw

theorem lt_monotone (f : Nat) : Monotone (f < ·) :=
  fun _ _ hle h => Nat.lt_of_lt_of_le h hle

theorem below_monotone (v : Value) : Monotone (v.Below ·) :=
  fun _ _ hle h => Value.below_mono hle h

theorem allBelow_monotone (vs : List Value) : Monotone fun n => ∀ v ∈ vs, v.Below n :=
  fun _ _ hle h v hv => Value.below_mono hle (h v hv)

theorem klassBelow_monotone (k : Klass) : Monotone fun n => k.Every (·.frame < n) :=
  fun _ _ hle h => h.mono fun _ hc => Nat.lt_of_lt_of_le hc hle

theorem lookUp_anchors (name : Token) (d : Option Nat) (env : Nat) :
    Anchors P (lookUp name d env) fun v n => v.Below n := by
  unfold lookUp
  refine Anchors.get_bind_of fun m hm _ => ?_
  cases d with
  | some k => exact Anchors.lift fun v hv n hn => hn ▸ hm.getAt hv
  | none =>
    dsimp only
    split
    · next v hv => exact Anchors.pure fun n hn => hn ▸ hm.lookup hv
    · exact Anchors.fail

/-- Assigning a value that closes over frames the store has, wherever it lands. -/
theorem assignTo_anchors (name : Token) (d : Option Nat) (env : Nat) (v : Value) :
    Anchors (v.Below ·) (assignTo name d env v) fun _ _ => True := by
  have hframe : Anchors (v.Below ·) (bindingFrame name d env) fun _ n => v.Below n := by
    unfold bindingFrame
    refine Anchors.get_bind_of fun m _ hv => ?_
    cases d with
    | some k => exact Anchors.lift fun _ _ n hn => hn ▸ hv
    | none =>
      dsimp only
      split
      · exact Anchors.pure fun n hn => hn ▸ hv
      · exact Anchors.fail
  refine hframe.bind fun target => Anchors.change fun s hs hv => ?_
  rw [Store.size_define]
  exact ⟨Nat.le_refl _, hs.define hv, trivial⟩

theorem unaryOp_anchors (op : Token) (v : Value) :
    Anchors P (unaryOp op v) fun w n => w.Below n := by
  unfold unaryOp
  split
  · exact Anchors.pure fun _ _ => trivial
  · split
    · exact Anchors.pure fun _ _ => trivial
    · exact Anchors.fail
  · exact Anchors.fail

theorem binaryOp_anchors (op : Token) (a b : Value) :
    Anchors P (binaryOp op a b) fun w n => w.Below n := by
  have hnumeric : ∀ f : Float → Float → Value, (∀ x y n, (f x y).Below n) →
      Anchors P (numeric op a b f) fun w n => w.Below n := by
    intro f hf
    unfold numeric
    split
    · exact Anchors.pure fun _ _ => hf _ _ _
    · exact Anchors.fail
  unfold binaryOp
  split <;> first
    | exact hnumeric _ fun _ _ _ => trivial
    | exact Anchors.fail
    | split <;> first | exact Anchors.pure fun _ _ => trivial | exact Anchors.fail

/-- A bound method closes over a new frame nested in the method's frame. -/
theorem bindMethod_anchors (c : Closure) (receiver : Value) :
    Anchors (fun n => c.frame < n ∧ receiver.Below n) (bindMethod c receiver)
      fun c' n => c'.frame < n ∧ c'.decl = c.decl := by
  unfold bindMethod
  refine Anchors.pushFrame_bind (fun _ h => h.1) (fun _ h p hp => ?_) fun f =>
    Anchors.pure fun n h => ⟨show f < n by omega, rfl⟩
  rw [List.mem_singleton.mp hp]
  exact h.2

theorem methodFrame_anchors (env : Nat) (sup : Option Klass) :
    Anchors (fun n => env < n ∧ ∀ k ∈ sup, k.Every (·.frame < n)) (methodFrame env sup)
      fun f n => f < n ∧ env < n ∧ ∀ k ∈ sup, k.Every (·.frame < n) := by
  cases sup with
  | none =>
    rw [methodFrame]
    exact Anchors.pure fun _ h => ⟨h.1, h⟩
  | some k =>
    rw [methodFrame]
    refine Anchors.pushFrame (fun _ h => h.1) (fun _ h p hp => ?_) fun n h =>
      ⟨Nat.lt_succ_self n, Nat.lt_succ_of_lt h.1, fun k' hk' =>
        klassBelow_monotone k' (Nat.le_succ n) (h.2 k' hk')⟩
    rw [List.mem_singleton.mp hp]
    exact h.2 k rfl

/-- A class declared in a frame the store has, under a superclass over frames it has, closes
its methods over frames it has. -/
theorem defineClass_anchors {env : Nat} {name : Token} {sup : Option Klass} {ms : List FunDecl} :
    Anchors (fun n => env < n ∧ ∀ k ∈ sup, k.Every (·.frame < n))
      (defineClass env name sup ms)
      fun c n => c.Below n := by
  unfold defineClass
  refine Anchors.define_bind (fun _ _ => trivial) ?_
  refine (methodFrame_anchors env sup).bind fun methodEnv => ?_
  dsimp only
  refine Anchors.get_bind_of fun m _ ⟨hme, _, hsup⟩ => ?_
  -- the class closes its methods over that frame
  have hk : (Value.klass ⟨name.lexeme, sup, methodTable ms methodEnv⟩).Below
      m.store.frames.size := by
    have hmethods : ∀ p ∈ methodTable ms methodEnv, p.2.frame < m.store.frames.size :=
      methodTable_forall (R := fun c => c.frame < m.store.frames.size) fun _ _ => hme
    cases sup with
    | none => exact hmethods
    | some k => exact ⟨hmethods, hsup k rfl⟩
  split
  · exact Anchors.define_bind (fun _ hn => hn ▸ hk)
      (Anchors.note_bind (Anchors.pure fun _ _ => trivial))
  · exact Anchors.fail_bind

/-- Every function of the evaluator, given `fuel` steps and run on any tree in a frame the store
has, with values over frames it has, keeps the store anchored and gives values over frames it
has. -/
structure AnchorsAt (fuel : Nat) : Prop where
  eval : ∀ depth env (e : Expr),
    Anchors (env < ·) (Run.eval fuel depth env e) fun v n => v.Below n
  evalArgs : ∀ depth env es,
    Anchors (env < ·) (Run.evalArgs fuel depth env es) fun vs n => ∀ v ∈ vs, v.Below n
  invoke : ∀ depth paren (f : Value) (args : List Value),
    Anchors (fun n => f.Below n ∧ ∀ v ∈ args, v.Below n) (Run.invoke fuel depth paren f args)
      fun v n => v.Below n
  callClosure : ∀ depth paren (c : Closure) (args : List Value),
    Anchors (fun n => c.frame < n ∧ ∀ v ∈ args, v.Below n)
      (Run.callClosure fuel depth paren c args) fun v n => v.Below n
  exec : ∀ depth env (st : Stmt),
    Anchors (env < ·) (Run.exec fuel depth env st) fun c n => c.Below n
  execList : ∀ depth env ss,
    Anchors (env < ·) (Run.execList fuel depth env ss) fun c n => c.Below n
  loop : ∀ depth env cond (body : Stmt),
    Anchors (env < ·) (Run.loop fuel depth env cond body) fun c n => c.Below n

theorem anchorsAt_zero : AnchorsAt 0 where
  eval _ _ _ := by rw [eval]; exact Anchors.throw
  evalArgs _ _ _ := by rw [evalArgs]; exact Anchors.throw
  invoke _ _ _ _ := by rw [invoke]; exact Anchors.throw
  callClosure _ _ _ _ := by rw [callClosure]; exact Anchors.throw
  exec _ _ _ := by rw [exec]; exact Anchors.throw
  execList _ _ _ := by rw [execList]; exact Anchors.throw
  loop _ _ _ _ := by rw [loop]; exact Anchors.throw

variable {fuel : Nat}

theorem AnchorsAt.eval_succ (h : AnchorsAt fuel) (depth env : Nat) (e : Expr) :
    Anchors (env < ·) (Run.eval (fuel + 1) depth env e) fun v n => v.Below n := by
  have henv := lt_monotone env
  cases e with
  | literal c =>
    rw [Run.eval]
    exact Anchors.pure fun n _ => Value.below_ofConstant n c
  | grouping inner =>
    rw [Run.eval]
    exact h.eval _ _ inner
  | var name d =>
    rw [Run.eval]
    exact lookUp_anchors name d env
  | assign name value d =>
    rw [Run.eval]
    refine (h.eval _ _ value).bind fun v => ?_
    exact ((assignTo_anchors name d env v).keep (below_monotone v)).bind fun _ =>
      Anchors.pure fun _ h => h.2
  | unary op operand =>
    rw [Run.eval]
    exact (h.eval _ _ operand).bind fun v => unaryOp_anchors op v
  | logical left op right =>
    rw [Run.eval]
    refine ((h.eval _ _ left).keep henv).bind fun l => ?_
    have hright : Anchors (fun n => l.Below n ∧ env < n) (Run.eval fuel (depth + 1) env right)
        fun v n => v.Below n :=
      (h.eval _ _ right).weaken (fun _ h => h.2) fun _ _ h => h
    split <;> split
    all_goals first | exact Anchors.pure fun _ h => h.1 | exact hright
  | binary left op right =>
    rw [Run.eval]
    refine ((h.eval _ _ left).keep henv).bind fun l => ?_
    exact ((h.eval _ _ right).weaken (fun _ h => h.2) fun _ _ h => h).bind fun r =>
      binaryOp_anchors op l r
  | call callee paren args =>
    rw [Run.eval]
    refine ((h.eval _ _ callee).keep henv).bind fun f => ?_
    split
    · exact Anchors.fail
    · refine (((h.evalArgs _ _ args).frame (below_monotone f)).weaken
        (fun _ h => ⟨h.2, h.1⟩) fun _ _ h => h).bind fun vs => ?_
      exact Anchors.ite_fail fun _ => Anchors.note_bind ((h.invoke _ _ f vs).weaken
        (fun _ h => ⟨h.2, h.1⟩) fun _ _ h => h)
  | get object name =>
    rw [Run.eval]
    refine (h.eval _ _ object).bind fun o => ?_
    split
    · next id k =>
      refine Anchors.get_bind_of fun m hm ho => ?_
      split
      · next v hv => exact Anchors.pure fun _ hn => hn ▸ hm.fields id _ v hv
      · split
        · next c hc =>
          -- the method found closes over a frame the store has
          have hframe : c.frame < m.store.frames.size :=
            Klass.Every.findMethod (R := (·.frame < m.store.frames.size)) ho hc
          exact ((bindMethod_anchors c _).weaken
            (fun n (hn : n = m.store.frames.size) => hn ▸ ⟨hframe, ho⟩)
            fun _ _ h => h).bind fun _ => Anchors.pure fun _ h => h.1
        · exact Anchors.fail
    · exact Anchors.fail
  | set object name value =>
    rw [Run.eval]
    refine ((h.eval _ _ object).keep henv).bind fun o => ?_
    split
    · next id k =>
      refine ((h.eval _ _ value).weaken (fun _ h => h.2) fun _ _ h => h).bind fun v => ?_
      exact Anchors.change_bind (fun s hs hv => ⟨Nat.le_refl _, hs.setField hv, hv⟩)
        (Anchors.pure fun _ h => h)
    · exact Anchors.fail
  | thisRef keyword d =>
    rw [Run.eval]
    exact lookUp_anchors keyword d env
  | superMethod keyword method d =>
    cases d with
    | none =>
      rw [Run.eval]
      exact Anchors.fail
    | some k =>
      rw [Run.eval]
      refine Anchors.get_bind_of fun m hm _ => ?_
      refine Anchors.lift_bind fun sup hsup => Anchors.lift_bind fun receiver hrecv => ?_
      split
      · next c =>
        split
        · next c' hc' =>
          have hframe : c'.frame < m.store.frames.size :=
            Klass.Every.findMethod (R := (·.frame < m.store.frames.size)) (hm.getAt hsup) hc'
          exact ((bindMethod_anchors c' receiver).weaken
            (fun n (hn : n = m.store.frames.size) => hn ▸ ⟨hframe, hm.getAt hrecv⟩)
            fun _ _ h => h).bind fun _ => Anchors.pure fun _ h => h.1
        · exact Anchors.fail
      · exact Anchors.throw

theorem AnchorsAt.evalArgs_succ (h : AnchorsAt fuel) (depth env : Nat) :
    ∀ es : List Expr,
      Anchors (env < ·) (Run.evalArgs (fuel + 1) depth env es) fun vs n => ∀ v ∈ vs, v.Below n := by
  intro es
  cases es with
  | nil =>
    rw [Run.evalArgs]
    · exact Anchors.pure fun _ _ _ hv => absurd hv List.not_mem_nil
    · exact Nat.succ_ne_zero fuel
  | cons a rest =>
    rw [Run.evalArgs]
    refine ((h.eval _ _ a).keep (lt_monotone env)).bind fun v => ?_
    refine (((h.evalArgs _ _ rest).frame (below_monotone v)).weaken (fun _ h => ⟨h.2, h.1⟩)
      fun _ _ h => h).bind fun vs => Anchors.pure fun _ hvs w hw => ?_
    rcases List.mem_cons.mp hw with rfl | hw
    · exact hvs.2
    · exact hvs.1 w hw

/-- A call runs the body in a new frame nested in the function's frame. -/
theorem AnchorsAt.callClosure_succ (h : AnchorsAt fuel) (depth : Nat) (paren : Token)
    (c : Closure) (args : List Value) :
    Anchors (fun n => c.frame < n ∧ ∀ v ∈ args, v.Below n)
      (Run.callClosure (fuel + 1) depth paren c args) fun v n => v.Below n := by
  rw [Run.callClosure]
  refine Anchors.ite_fail fun _ => ?_
  refine Anchors.pushFrame_bind (fun _ h => h.1) (fun _ h p hp => h.2 _ (mem_params_zip hp))
    fun f => ?_
  refine ((h.execList _ f c.decl.body).weaken (fun _ h => by omega) fun _ _ h => h).bind
    fun r => ?_
  split
  · exact Anchors.get_bind_of fun m hm _ => Anchors.lift fun v hv _ hn => hn ▸ hm.getAt hv
  · split
    · exact Anchors.pure fun _ h => h
    · exact Anchors.pure fun _ _ => trivial

theorem AnchorsAt.invoke_succ (h : AnchorsAt fuel) (depth : Nat) (paren : Token) (f : Value)
    (args : List Value) :
    Anchors (fun n => f.Below n ∧ ∀ v ∈ args, v.Below n)
      (Run.invoke (fuel + 1) depth paren f args)
      fun v n => v.Below n := by
  cases f with
  | native n =>
    cases n
    rw [Run.invoke]
    exact Anchors.get_bind_of fun _ _ _ => Anchors.pure fun _ _ => trivial
  | function c =>
    rw [Run.invoke]
    exact h.callClosure _ _ c args
  | klass k =>
    rw [Run.invoke]
    refine Anchors.newObject_bind fun id => ?_
    split
    · next init hinit =>
      -- the initializer found closes over a frame the store has
      have hmono : Monotone fun n => k.Every (·.frame < n) ∧ ∀ v ∈ args, v.Below n :=
        fun _ _ hle h => ⟨klassBelow_monotone k hle h.1, allBelow_monotone args hle h.2⟩
      refine ((bindMethod_anchors init (.object id k)).frame hmono).weaken
          (fun _ h => ⟨⟨Klass.Every.findMethod (R := (·.frame < _)) h.1 hinit, h.1⟩, h⟩)
          (fun _ _ h => h) |>.bind fun bound => ?_
      exact ((h.callClosure _ _ bound args).frame (klassBelow_monotone k)).weaken
        (fun _ h => ⟨⟨h.1.1, h.2.2⟩, h.2.1⟩) (fun _ _ h => h) |>.bind fun _ =>
          Anchors.pure fun _ h => h.2
    · exact Anchors.pure fun _ h => h.1
  | _ =>
    simp only [Run.invoke]
    exact Anchors.fail

theorem AnchorsAt.exec_succ (h : AnchorsAt fuel) (depth env : Nat) (st : Stmt) :
    Anchors (env < ·) (Run.exec (fuel + 1) depth env st) fun c n => c.Below n := by
  have henv := lt_monotone env
  cases st with
  | expr e =>
    rw [Run.exec]
    exact (h.eval _ _ e).bind fun _ => Anchors.pure fun _ _ => trivial
  | print e =>
    rw [Run.exec]
    exact (h.eval _ _ e).bind fun _ => Anchors.emit_bind (Anchors.pure fun _ _ => trivial)
  | varDecl name init =>
    -- once the initial value is known, the name is bound to it in the frame
    have hdefine : ∀ v : Value, Anchors (v.Below ·) (do
        change (·.define env name.lexeme v)
        note 2 fun _ => "declare " ++ name.lexeme ++ " = " ++ v.text
        pure Completion.normal) fun c n => c.Below n := fun _ =>
      Anchors.define_bind (fun _ h => h) (Anchors.note_bind (Anchors.pure fun _ _ => trivial))
    cases init with
    | none =>
      rw [Run.exec]
      exact Anchors.pure_bind ((hdefine .nil).weaken (fun _ _ => trivial) fun _ _ h => h)
    | some e =>
      rw [Run.exec]
      exact (h.eval _ _ e).bind hdefine
  | block body =>
    rw [Run.exec]
    refine Anchors.pushFrame_bind (fun _ h => h) (fun _ _ _ hp => absurd hp List.not_mem_nil)
      fun f => ?_
    exact (h.execList _ f body).weaken (fun _ h => by omega) fun _ _ h => h
  | ifElse cond thenBranch elseBranch =>
    -- the step's equations split on the else branch; unfold it whole instead
    rw [Run.exec.eq_def]
    dsimp only
    refine ((h.eval _ _ cond).keep henv).bind fun v => Anchors.note_bind ?_
    split
    · exact (h.exec _ _ thenBranch).weaken (fun _ h => h.2) fun _ _ h => h
    · cases elseBranch with
      | none => exact Anchors.pure fun _ _ => trivial
      | some e => exact (h.exec _ _ e).weaken (fun _ h => h.2) fun _ _ h => h
  | whileLoop cond body =>
    rw [Run.exec]
    exact h.loop _ _ cond body
  | funDecl f =>
    rw [Run.exec]
    -- the function closes over the frame it is declared in
    exact Anchors.define_bind (fun _ h => h) (Anchors.note_bind (Anchors.pure fun _ _ => trivial))
  | returnStmt keyword value =>
    cases value with
    | none =>
      rw [Run.exec]
      exact Anchors.pure fun _ _ => trivial
    | some e =>
      rw [Run.exec]
      exact (h.eval _ _ e).bind fun v => Anchors.pure fun _ hv => hv
  | classDecl name superclass methods =>
    cases superclass with
    | none =>
      rw [Run.exec]
      exact Anchors.pure_bind (defineClass_anchors.weaken
        (fun _ h => ⟨h, fun k hk => absurd hk (Option.not_mem_none k)⟩) fun _ _ h => h)
    | some e =>
      rw [Run.exec]
      refine ((h.eval _ _ e).keep henv).bind fun v => ?_
      split
      · exact Anchors.pure_bind (defineClass_anchors.weaken
          (fun _ h => ⟨h.2, fun _ hk => Option.some.inj hk ▸ h.1⟩) fun _ _ h => h)
      · exact Anchors.fail_bind

theorem AnchorsAt.execList_succ (h : AnchorsAt fuel) (depth env : Nat) :
    ∀ ss : List Stmt, Anchors (env < ·) (Run.execList (fuel + 1) depth env ss)
      fun c n => c.Below n
  | [] => by
    rw [Run.execList]
    · exact Anchors.pure fun _ _ => trivial
    · exact Nat.succ_ne_zero fuel
  | st :: rest => by
    rw [Run.execList]
    refine ((h.exec _ _ st).keep (lt_monotone env)).bind fun c => ?_
    split
    · exact (h.execList _ _ rest).weaken (fun _ h => h.2) fun _ _ h => h
    · exact Anchors.pure fun _ h => h.1

theorem AnchorsAt.loop_succ (h : AnchorsAt fuel) (depth env : Nat) (cond : Expr) (body : Stmt) :
    Anchors (env < ·) (Run.loop (fuel + 1) depth env cond body) fun c n => c.Below n := by
  rw [Run.loop]
  refine ((h.eval _ _ cond).keep (lt_monotone env)).bind fun v => ?_
  split
  · refine (((h.exec _ _ body).keep (lt_monotone env)).weaken (fun _ h => h.2)
      fun _ _ h => h).bind fun c => ?_
    split
    · exact (h.loop _ _ cond body).weaken (fun _ h => h.2) fun _ _ h => h
    · exact Anchors.pure fun _ h => h.1
  · exact Anchors.pure fun _ _ => trivial

theorem AnchorsAt.succ (h : AnchorsAt fuel) : AnchorsAt (fuel + 1) where
  eval := h.eval_succ
  evalArgs := h.evalArgs_succ
  invoke := h.invoke_succ
  callClosure := h.callClosure_succ
  exec := h.exec_succ
  execList := h.execList_succ
  loop := h.loop_succ

/-- With any number of steps, every run keeps the store anchored. -/
theorem anchorsAt : ∀ fuel, AnchorsAt fuel
  | 0 => anchorsAt_zero
  | fuel + 1 => (anchorsAt fuel).succ

/-- Top-level statements run in the globals keep the store anchored. -/
theorem program_anchors : ∀ ss : List Stmt,
    Anchors (Store.globals < ·) (Run.program ss) fun _ _ => True
  | [] => by
    rw [Run.program]
    exact Anchors.pure fun _ _ => trivial
  | st :: rest => by
    rw [Run.program]
    exact (((anchorsAt fuel).exec baseDepth Store.globals st).keep
      (lt_monotone _)).bind fun _ => (program_anchors rest).weaken (fun _ h => h.2) fun _ _ h => h

/-- However a step ends, the store it leaves is anchored and has at least the frames it started
with. -/
theorem Anchors.final_of_run {x : Run α} (hx : Anchors P x Q) {m : Machine}
    (hm : m.store.Anchored) (hP : P m.store.frames.size) :
    (final (x.run m)).store.Anchored ∧
      m.store.frames.size ≤ (final (x.run m)).store.frames.size := by
  have hend := hx m hm hP
  revert hend
  show AnchorEnds _ Q (x m) →
    (final (x m)).store.Anchored ∧ _ ≤ (final (x m)).store.frames.size
  cases x m with
  | ok a m' => exact fun h => ⟨h.2.1, h.1⟩
  | error e m' => exact fun h => ⟨h.2, h.1⟩

/-- A block runs its statements in a new frame nested in the frame it runs in. -/
theorem exec_block (fuel depth env : Nat) (body : List Stmt) (m : Machine) :
    exec (fuel + 1) depth env (.block body) m =
      execList fuel (depth + 1) m.store.frames.size body
        { m with store := (m.store.pushWith env []).2 } := by
  rw [exec]
  rfl

/-- A function declared in a frame closes over that frame itself. -/
theorem exec_funDecl (fuel depth env : Nat) (f : FunDecl) (m : Machine) :
    ∃ m', exec (fuel + 1) depth env (.funDecl f) m = .ok .normal m' ∧
      m'.store = m.store.define env f.name.lexeme (.function ⟨f, env, false⟩) := by
  rw [exec]
  exact ⟨_, rfl, by dsimp only; split <;> rfl⟩

/-- The methods of a class close over the frame their table is made for. -/
theorem methodTable_frame (ms : List FunDecl) (env : Nat) :
    ∀ p ∈ methodTable ms env, p.2.frame = env :=
  methodTable_forall (R := (·.frame = env)) fun _ _ => rfl

/-- Methods close over the frame of their class's declaration or, under a superclass, over a
new frame nested in it that binds `super`. -/
theorem methodFrame_run (env : Nat) (sup : Option Klass) (m : Machine) :
    ∃ f m', methodFrame env sup m = .ok f m' ∧
      m'.store.ancestor f (if sup.isSome then 1 else 0) = .ok env := by
  cases sup with
  | none => exact ⟨env, m, rfl, rfl⟩
  | some k =>
    refine ⟨_, _, rfl, ?_⟩
    show (m.store.pushWith env _).2.ancestor m.store.frames.size 1 = .ok env
    rw [Store.ancestor, Store.frame_pushWith_self]
    rfl

/-- A read by depth reads the frame that many steps out. -/
theorem lookUp_some (name : Token) (d env : Nat) (m : Machine) :
    lookUp name (some d) env m = match m.store.getAt env d name.lexeme with
      | .ok v => .ok v m
      | .error f => .error (.fault f) m := by
  show lift (m.store.getAt env d name.lexeme) m = _
  cases m.store.getAt env d name.lexeme <;> rfl

/-- An assignment by depth binds in the frame that many steps out. -/
theorem assignTo_some (name : Token) (d env : Nat) (v : Value) (m : Machine) :
    assignTo name (some d) env v m = match m.store.assignAt env d name.lexeme v with
      | .ok s => .ok () { m with store := s }
      | .error f => .error (.fault f) m := by
  show (lift (m.store.ancestor env d) >>= fun f => change (·.define f name.lexeme v)) m = _
  unfold Store.assignAt
  cases m.store.ancestor env d <;> rfl

/-- An assignment by depth is seen by every read by depth through a chain that reaches the
frame it binds in. -/
theorem assignTo_lookUp_shared {x y : Token} {d₁ d₂ env₁ env₂ : Nat} {v : Value}
    {m m' : Machine} (hm : m.store.Anchored) (henv : env₁ < m.store.frames.size)
    (hxy : y.lexeme = x.lexeme) (ha : assignTo x (some d₁) env₁ v m = .ok () m')
    (hc : m.store.ancestor env₂ d₂ = m.store.ancestor env₁ d₁) :
    lookUp y (some d₂) env₂ m' = .ok v m' := by
  rw [assignTo_some] at ha
  cases hs : m.store.assignAt env₁ d₁ x.lexeme v with
  | error f =>
    rw [hs] at ha
    cases ha
  | ok s' =>
    rw [hs] at ha
    cases ha
    rw [lookUp_some, hxy, hm.getAt_assignAt henv hs hc]

/-- An assignment by depth to a frame whose chain passes one of two frames apart leaves every
read by depth through a chain that passes the other as it was. -/
theorem assignTo_lookUp_isolated {x y : Token} {F₁ F₂ d₁ env₁ T k G d₂ d : Nat}
    {v w : Value} {m m' : Machine} (h : m.store.Apart F₁ F₂)
    (ht : m.store.ancestor env₁ d₁ = .ok T) (hT : m.store.ancestor T k = .ok F₁)
    (hc : m.store.ancestor G d₂ = .ok F₂) (ha : assignTo x (some d₁) env₁ v m = .ok () m')
    (hr : lookUp y (some d) G m = .ok w m) : lookUp y (some d) G m' = .ok w m' := by
  rw [assignTo_some] at ha
  cases hs : m.store.assignAt env₁ d₁ x.lexeme v with
  | error f =>
    rw [hs] at ha
    cases ha
  | ok s' =>
    rw [hs] at ha
    cases ha
    have hsame := Store.getAt_assignAt_of_apart h ht hT hc hs d y.lexeme
    rw [lookUp_some] at hr ⊢
    rw [hsame]
    revert hr
    cases m.store.getAt G d y.lexeme with
    | ok u => exact fun h => by cases h; rfl
    | error f => exact fun h => by cases h

end Run

namespace Session

/-- A session whose store is anchored and has its globals frame. -/
def Anchored (s : Session) : Prop :=
  s.machine.store.Anchored ∧ Store.globals < s.machine.store.frames.size

theorem anchored_new (level : Nat) : (Session.new level).Anchored :=
  ⟨Store.anchored_initial, Nat.zero_lt_one⟩

/-- Running any program, resolved or not, keeps the session anchored, however it ends. -/
theorem runProgram_anchored {s s' : Session} {report : Report} {p : Program} (hs : s.Anchored)
    (h : s.runProgram p = .ok (s', report)) : s'.Anchored := by
  obtain ⟨hm, hg⟩ := hs
  rcases runProgram_store h with hsame | ⟨-, m, hstore, hend⟩
  · unfold Anchored
    rw [hsame]
    exact ⟨hm, hg⟩
  · rw [← hstore] at hm hg
    unfold Anchored
    rw [hend]
    have hrun := (Run.program_anchors p.resolve.program).final_of_run hm hg
    exact ⟨hrun.1, Nat.lt_of_lt_of_le hg hrun.2⟩

theorem runSource_anchored {s s' : Session} {report : Report} {source : String}
    (hs : s.Anchored) (h : s.runSource source = .ok (s', report)) : s'.Anchored := by
  unfold runSource at h
  split at h
  · cases h
    exact hs
  · exact runProgram_anchored hs h

/-- Lines run one after another from a new session, whatever each does, leave it anchored. -/
theorem runLines_anchored (level : Nat) (lines : List String) {s' : Session}
    {reports : List Report} (h : (Session.new level).runLines lines = .ok (s', reports)) :
    s'.Anchored :=
  runLines_preserves lines (fun _ _ => runSource_anchored) (anchored_new level) h

end Session

/-- Activations are fresh frames, and closures share them. A call that does not overflow runs the
function's body in a new frame nested in the frame the function closes over, and a block runs its
statements in a new frame nested in the frame it runs in; a new frame takes the next number,
holds only the bindings it is made with, and leaves every older frame as it was. A function
declared in a frame closes over that frame itself; the methods of a class close over the frame of
the declaration or over a new frame nested in it; a bound method closes over a new frame nested
in the method's. Every run, from any tree and however it ends, keeps each frame nested in an
older one and each closure over frames the store has, and so does every session. So an
assignment by depth is seen by every read through a chain that reaches the frame it binds in.
Two activations nested in one frame, such as two calls of one function, are apart, and an
assignment into one of two frames apart, or into a frame nested in it, is seen by no read through
a chain that passes the other. -/
theorem activations_are_fresh_and_closures_share_them :
    (∀ fuel depth paren (c : Closure) args (m : Machine), depth + 1 ≤ Run.frameLimit →
      ∃ k, Run.callClosure (fuel + 1) depth paren c args m =
        (Run.execList fuel (depth + 1) m.store.frames.size c.decl.body >>= k)
          { m with store := (m.store.pushWith c.frame
            ((c.decl.params.zip args).map fun (p, v) => (p.lexeme, v))).2 }) ∧
    (∀ fuel depth env body (m : Machine), Run.exec (fuel + 1) depth env (.block body) m =
      Run.execList fuel (depth + 1) m.store.frames.size body
        { m with store := (m.store.pushWith env []).2 }) ∧
    (∀ (s : Store) parent slots, (s.pushWith parent slots).2.frame s.frames.size =
        ⟨some parent, Store.putAll slots⟩ ∧
      ∀ g < s.frames.size, (s.pushWith parent slots).2.frame g = s.frame g) ∧
    (∀ fuel depth env (f : FunDecl) (m : Machine), ∃ m',
      Run.exec (fuel + 1) depth env (.funDecl f) m = .ok .normal m' ∧
        m'.store = m.store.define env f.name.lexeme (.function ⟨f, env, false⟩)) ∧
    (∀ env sup (m : Machine), ∃ f m', Run.methodFrame env sup m = .ok f m' ∧
      m'.store.ancestor f (if sup.isSome then 1 else 0) = .ok env ∧
      ∀ ms, ∀ p ∈ Run.methodTable ms f, p.2.frame = f) ∧
    (∀ (c : Closure) r (m : Machine), Run.bindMethod c r m =
      .ok { c with frame := m.store.frames.size }
        { m with store := (m.store.pushWith c.frame [("this", r)]).2 }) ∧
    (∀ fuel, Run.AnchorsAt fuel) ∧
    (∀ level lines (s' : Session) reports,
      (Session.new level).runLines lines = .ok (s', reports) → s'.machine.store.Anchored) ∧
    (∀ (x y : Token) d₁ d₂ env₁ env₂ v (m m' : Machine), m.store.Anchored →
      env₁ < m.store.frames.size → y.lexeme = x.lexeme →
      Run.assignTo x (some d₁) env₁ v m = .ok () m' →
      m.store.ancestor env₂ d₂ = m.store.ancestor env₁ d₁ →
      Run.lookUp y (some d₂) env₂ m' = .ok v m') ∧
    (∀ (s : Store) F₁ F₂ p, s.Anchored → (s.frame F₁).parent = some p →
      (s.frame F₂).parent = some p → F₁ ≠ F₂ → s.Apart F₁ F₂) ∧
    (∀ (x y : Token) F₁ F₂ d₁ env₁ T k G d₂ d v w (m m' : Machine),
      m.store.Apart F₁ F₂ → m.store.ancestor env₁ d₁ = .ok T →
      m.store.ancestor T k = .ok F₁ → m.store.ancestor G d₂ = .ok F₂ →
      Run.assignTo x (some d₁) env₁ v m = .ok () m' → Run.lookUp y (some d) G m = .ok w m →
      Run.lookUp y (some d) G m' = .ok w m') :=
  ⟨fun fuel depth paren c args m hdepth =>
      Run.callClosure_runs_body fuel depth paren c args m hdepth,
    Run.exec_block,
    fun s parent slots => ⟨Store.frame_pushWith_self s parent slots,
      fun _ hg => Store.frame_pushWith_ne s parent slots (Nat.ne_of_lt hg)⟩,
    Run.exec_funDecl,
    fun env sup m => (Run.methodFrame_run env sup m).imp fun f => Exists.imp fun _ h =>
      ⟨h.1, h.2, fun ms => Run.methodTable_frame ms f⟩,
    Run.bindMethod_run,
    Run.anchorsAt,
    fun level lines _ _ h => (Session.runLines_anchored level lines h).1,
    fun _ _ _ _ _ _ _ _ _ hm henv hxy ha hc => Run.assignTo_lookUp_shared hm henv hxy ha hc,
    fun _ _ _ _ hs h₁ h₂ hne => hs.apart_of_siblings h₁ h₂ hne,
    fun _ _ _ _ _ _ _ _ _ _ _ _ _ _ _ h ht hT hc ha hr =>
      Run.assignTo_lookUp_isolated h ht hT hc ha hr⟩

/-- Frames as two calls of one function leave them: frames 1 and 2 are nested in the globals and
bind `a` apart, and frame 3 is a block inside frame 1. -/
def siblingFrames : Store :=
  (((Store.initial.pushWith Store.globals [("a", .num 1)]).2.pushWith Store.globals
    [("a", .num 2)]).2.pushWith 1 []).2

theorem siblingFrames_anchored : siblingFrames.Anchored :=
  ((Store.anchored_initial.pushWith (by decide) (by simp [Value.Below])).pushWith (by decide)
    (by simp [Value.Below])).pushWith (by decide) (by simp)

/-- The activations of `siblingFrames` at work: a call from a fresh machine runs its body in a new
frame; a session that ran no line is anchored; `a` assigned in frame 1 is read back through the
block nested in it; and frames 1 and 2 are apart, so frame 2 still reads its own `a`. -/
theorem sibling_activations_share_and_stay_apart :
    (∃ k, Run.callClosure 1 0 default ⟨.mk default [] [], Store.globals, false⟩ [] {} =
      (Run.execList 0 1 1 [] >>= k) { store := (Store.initial.pushWith Store.globals []).2 }) ∧
    (Session.new 0).machine.store.Anchored ∧
    Run.lookUp ⟨.terminal .identifier, "a", .null, 1, 1⟩ (some 1) 3
        { store := siblingFrames.define 1 "a" (.num 3) } =
      .ok (.num 3) { store := siblingFrames.define 1 "a" (.num 3) } ∧
    siblingFrames.Apart 1 2 ∧
    Run.lookUp ⟨.terminal .identifier, "a", .null, 1, 1⟩ (some 0) 2
        { store := siblingFrames.define 1 "a" (.num 3) } =
      .ok (.num 2) { store := siblingFrames.define 1 "a" (.num 3) } := by
  obtain ⟨hcall, -, -, -, -, -, -, hlines, hshared, hapart, hisolated⟩ :=
    activations_are_fresh_and_closures_share_them
  have hassign : Run.assignTo ⟨.terminal .identifier, "a", .null, 1, 1⟩ (some 0) 1 (.num 3)
      { store := siblingFrames } = .ok () { store := siblingFrames.define 1 "a" (.num 3) } := rfl
  have happart := hapart siblingFrames 1 2 Store.globals siblingFrames_anchored rfl rfl (by decide)
  refine ⟨hcall 0 0 default _ [] {} (by decide), hlines 0 [] _ _ rfl,
    hshared _ _ 0 1 1 3 _ _ _ siblingFrames_anchored (by decide) rfl hassign rfl, happart, ?_⟩
  exact hisolated _ _ 1 2 0 1 1 0 2 0 0 _ _ _ _ happart rfl rfl rfl hassign rfl

-- Two counters made by two calls of one function advance independently: each increment
-- extends the string its own activation holds.
example :
    let ident (text : String) : Token := { kind := .terminal .identifier, lexeme := text }
    let paren : Token := { kind := .terminal .rightParen, lexeme := ")" }
    let plus : Token := { kind := .terminal .plus, lexeme := "+" }
    let ret : Token := { kind := .terminal .kwReturn, lexeme := "return" }
    let count : Expr := .var (ident "count") (some 1)
    let increment : FunDecl := .mk (ident "increment") []
      [.expr (.assign (ident "count") (.binary count plus (.literal (.str "i"))) (some 1)),
       .returnStmt ret (some count)]
    let makeCounter : FunDecl := .mk (ident "makeCounter") []
      [.varDecl (ident "count") (some (.literal (.str ""))), .funDecl increment,
       .returnStmt ret (some (.var (ident "increment") (some 0)))]
    let callOf (name : String) : Expr := .call (.var (ident name) none) paren []
    let counters : List Stmt :=
      [.funDecl makeCounter, .varDecl (ident "a") (some (callOf "makeCounter")),
       .varDecl (ident "b") (some (callOf "makeCounter")), .print (callOf "a"),
       .print (callOf "a"), .print (callOf "b"), .print (callOf "a")]
    (match (Run.program counters).run {} with
      | .ok _ m => m.output
      | .error _ m => m.output) = #["i\n", "ii\n", "i\n", "iii\n"] := by
  decide +kernel

end Lox
