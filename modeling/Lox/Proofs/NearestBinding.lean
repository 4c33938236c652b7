import Mathlib.Data.Fintype.Card
import Lox.Store.Cursor
import Lox.Proofs.Activations

/-!
# Names along a chain of frames

Reading a name along the chain of a frame (`Store.lookup`, and `Cursor.get` above it) gives its
binding in the nearest frame of the chain that binds it (`Store.NearestBinder`), and fails exactly
when no frame of the chain binds it. Assigning a name along the chain (`Store.assign`,
`Cursor.assign`) succeeds exactly when some frame of the chain binds it; it then sets that nearest
binding and changes no other binding, no frame and no instance (`Store.Rebinds`), so it never
makes a binding. The interpreter reads and assigns the globals, and rebinds the name of a class,
through the same `binder`.

The search follows the chain for at most one step more than there are frames, and the statements
hold of every store, even one whose parents run in a circle: the frames the chain passes before
the nearest binder are all different frames of the store (`Store.steps_le_size`), so this bound
never cuts the search short.
-/

namespace Lox

namespace Store

variable {s : Store} {name : String}

/-- The frames of the chain of `f`: `f` itself and, one after another, the frames it is nested
in. -/
inductive OnChain (s : Store) : Nat → Nat → Prop
  | self (f : Nat) : OnChain s f f
  | parent {f p g : Nat} : (s.frame f).parent = some p → OnChain s p g → OnChain s f g

/-- `b` is the nearest frame of the chain of `f` that binds `name`: the frames before it on the
chain bind it not. -/
inductive NearestBinder (s : Store) (name : String) : Nat → Nat → Prop
  | here {f : Nat} : ((s.frame f).slots.lookup name).isSome → NearestBinder s name f f
  | parent {f p b : Nat} : (s.frame f).slots.lookup name = none → (s.frame f).parent = some p →
      NearestBinder s name p b → NearestBinder s name f b

theorem any_key_eq_isSome_lookup (slots : List (String × Value)) (name : String) :
    slots.any (·.1 == name) = (slots.lookup name).isSome := by
  rw [Bool.eq_iff_iff, List.any_eq_true, List.lookup_isSome_iff]
  simp only [beq_iff_eq]
  exact ⟨fun ⟨p, hp, h⟩ => ⟨p, hp, h.symm⟩, fun ⟨p, hp, h⟩ => ⟨p, hp, h.symm⟩⟩

theorem NearestBinder.onChain {f b : Nat} (h : s.NearestBinder name f b) : s.OnChain f b := by
  induction h with
  | here _ => exact .self _
  | parent _ hp _ ih => exact .parent hp ih

theorem NearestBinder.binds {f b : Nat} (h : s.NearestBinder name f b) :
    ((s.frame b).slots.lookup name).isSome := by
  induction h with
  | here hb => exact hb
  | parent _ _ _ ih => exact ih

/-- A chain that reaches a frame binding the name has a nearest such frame. -/
theorem OnChain.nearestBinder {f g : Nat} (hg : s.OnChain f g)
    (hb : ((s.frame g).slots.lookup name).isSome) : ∃ b, s.NearestBinder name f b := by
  induction hg with
  | self _ => exact ⟨_, .here hb⟩
  | @parent f p _ hp _ ih =>
    cases hf : (s.frame f).slots.lookup name with
    | some _ => exact ⟨f, .here (by rw [hf]; rfl)⟩
    | none =>
      obtain ⟨b, hnear⟩ := ih hb
      exact ⟨b, .parent hf hp hnear⟩

/-- Stepping out to a frame `k` steps out passes a frame at every smaller number of steps. -/
theorem ancestor_of_le : ∀ {f k b i : Nat}, s.ancestor f k = .ok b → i ≤ k →
    ∃ g, s.ancestor f i = .ok g ∧ s.ancestor g (k - i) = .ok b
  | f, _, _, 0, hk, _ => ⟨f, rfl, hk⟩
  | _, 0, _, _ + 1, _, hi => absurd hi (by omega)
  | f, k + 1, b, i + 1, hk, hi => by
    cases hp : (s.frame f).parent with
    | none => simp [ancestor, hp] at hk
    | some p =>
      simp only [ancestor, hp] at hk ⊢
      obtain ⟨g, hg, hgb⟩ := ancestor_of_le (i := i) hk (by omega)
      exact ⟨g, hg, by rwa [show k + 1 - (i + 1) = k - i by omega]⟩

/-- The nearest binder is some number of steps out, and no frame passed on the way binds the
name. -/
theorem NearestBinder.exists_steps {f b : Nat} (h : s.NearestBinder name f b) :
    ∃ k, s.ancestor f k = .ok b ∧
      ∀ i < k, ∀ g, s.ancestor f i = .ok g → (s.frame g).slots.lookup name = none := by
  induction h with
  | here _ => exact ⟨0, rfl, fun i hi => absurd hi (Nat.not_lt_zero i)⟩
  | @parent f p b hf hp _ ih =>
    obtain ⟨k, hk, hpass⟩ := ih
    refine ⟨k + 1, by simp [ancestor, hp, hk], fun i hi g hg => ?_⟩
    cases i with
    | zero =>
      cases hg
      exact hf
    | succ i =>
      simp only [ancestor, hp] at hg
      exact hpass i (by omega) g hg

/-- The frames passed on the way out to the nearest binder are different frames of the store:
a chain that came back to a frame it passed would run in a circle and never reach the binder.
So there are no more of them than frames. -/
theorem steps_le_size {f b k : Nat} (hk : s.ancestor f k = .ok b)
    (hb : ((s.frame b).slots.lookup name).isSome)
    (hpass : ∀ i < k, ∀ g, s.ancestor f i = .ok g → (s.frame g).slots.lookup name = none) :
    k ≤ s.frames.size := by
  have hpassed : ∀ i : Fin k, ∃ g, s.ancestor f i = .ok g ∧ s.ancestor g (k - i) = .ok b :=
    fun i => ancestor_of_le hk i.2.le
  choose g hg using hpassed
  -- a frame passed before the binder has a parent, so it is a frame of the store
  have hlt : ∀ i : Fin k, g i < s.frames.size := by
    intro i
    have hout := (hg i).2
    rw [show k - i = (k - i - 1) + 1 by omega] at hout
    cases hp : (s.frame (g i)).parent with
    | none => simp [ancestor, hp] at hout
    | some p => exact lt_of_parent hp
  have hdistinct : ∀ i j : Fin k, i < j → g i ≠ g j := by
    intro i j hij heq
    have hback : s.ancestor f (i + (k - j)) = .ok b := by
      rw [ancestor_add _ (hg i).1, heq]
      exact (hg j).2
    have hnone := hpass (i + (k - j)) (by omega) b hback
    rw [hnone] at hb
    exact Bool.false_ne_true hb
  have hinj : Function.Injective fun i : Fin k => (⟨g i, hlt i⟩ : Fin s.frames.size) := by
    intro i j hij
    have heq : g i = g j := congrArg Fin.val hij
    rcases lt_trichotomy i j with hij' | hij' | hij'
    · exact absurd heq (hdistinct i j hij')
    · exact hij'
    · exact absurd heq.symm (hdistinct j i hij')
  simpa using Fintype.card_le_of_injective _ hinj

/-- With more fuel than steps to a frame binding the name, past frames that bind it not, the
search by name stops at that frame. -/
theorem search_of_steps {b : Nat} (hb : ((s.frame b).slots.lookup name).isSome) :
    ∀ {k f fuel : Nat}, k < fuel → s.ancestor f k = .ok b →
      (∀ i < k, ∀ g, s.ancestor f i = .ok g → (s.frame g).slots.lookup name = none) →
      s.lookupWith name fuel f = (s.frame b).slots.lookup name ∧
        s.binderWith name fuel f = some b
  | 0, f, fuel + 1, _, hk, _ => by
    cases hk
    obtain ⟨v, hv⟩ := Option.isSome_iff_exists.mp hb
    have hany : (s.frame b).slots.any (·.1 == name) = true := by
      rw [any_key_eq_isSome_lookup, hv]; rfl
    simp only [lookupWith, binderWith, hv, hany, if_true, and_self]
  | k + 1, f, fuel + 1, hfuel, hk, hpass => by
    have hf : (s.frame f).slots.lookup name = none := hpass 0 (by omega) f rfl
    have hany : (s.frame f).slots.any (·.1 == name) = false := by
      rw [any_key_eq_isSome_lookup, hf]; rfl
    cases hp : (s.frame f).parent with
    | none => simp [ancestor, hp] at hk
    | some p =>
      simp only [ancestor, hp] at hk
      have hrest := search_of_steps hb (k := k) (f := p) (by omega : k < fuel) hk
        fun i hi g hg => hpass (i + 1) (by omega) g (by simp only [ancestor, hp]; exact hg)
      simp only [lookupWith, binderWith, hf, hany, hp, Bool.false_eq_true, if_false]
      exact hrest

/-- What the search by name finds is the value in the nearest binder. -/
theorem lookupWith_eq_some : ∀ {fuel f : Nat} {v : Value}, s.lookupWith name fuel f = some v →
    ∃ b, s.NearestBinder name f b ∧ (s.frame b).slots.lookup name = some v
  | 0, _, _, h => by simp [lookupWith] at h
  | fuel + 1, f, v, h => by
    rw [lookupWith] at h
    split at h
    · next w hw => exact ⟨f, .here (by rw [hw]; rfl), by rw [hw]; exact h⟩
    · next hf =>
      split at h
      · next p hp =>
        obtain ⟨b, hb, hv⟩ := lookupWith_eq_some h
        exact ⟨b, .parent hf hp hb, hv⟩
      · cases h

/-- The frame the search for a binder finds is the nearest binder. -/
theorem binderWith_eq_some : ∀ {fuel f b : Nat}, s.binderWith name fuel f = some b →
    s.NearestBinder name f b
  | 0, _, _, h => by simp [binderWith] at h
  | fuel + 1, f, b, h => by
    rw [binderWith] at h
    split at h
    · next hany =>
      cases h
      exact .here (by rw [← any_key_eq_isSome_lookup]; exact hany)
    · next hany =>
      have hf : (s.frame f).slots.lookup name = none := by
        rw [any_key_eq_isSome_lookup] at hany
        exact Option.not_isSome_iff_eq_none.mp hany
      split at h
      · next p hp => exact .parent hf hp (binderWith_eq_some h)
      · cases h

/-- Both searches by name reach the nearest binder within their bound. -/
theorem NearestBinder.search {f b : Nat} (h : s.NearestBinder name f b) :
    s.lookup f name = (s.frame b).slots.lookup name ∧ s.binder f name = some b := by
  obtain ⟨k, hk, hpass⟩ := h.exists_steps
  have hle := steps_le_size hk h.binds hpass
  exact search_of_steps h.binds (by omega) hk hpass

/-- No frame of the chain of `f` binds `name`. -/
def Unbound (s : Store) (f : Nat) (name : String) : Prop :=
  ∀ g, s.OnChain f g → (s.frame g).slots.lookup name = none

theorem Unbound.not_nearestBinder {f b : Nat} (hu : s.Unbound f name) :
    ¬ s.NearestBinder name f b := by
  intro hb
  have hnone := hu b hb.onChain
  have hsome := hb.binds
  rw [hnone] at hsome
  exact Bool.false_ne_true hsome

theorem unbound_of_no_nearestBinder {f : Nat} (h : ∀ b, ¬ s.NearestBinder name f b) :
    s.Unbound f name := by
  intro g hg
  cases hl : (s.frame g).slots.lookup name with
  | none => rfl
  | some _ =>
    obtain ⟨b, hb⟩ := hg.nearestBinder (by rw [hl]; rfl)
    exact absurd hb (h b)

theorem lookup_eq_some_iff {f : Nat} {v : Value} :
    s.lookup f name = some v ↔
      ∃ b, s.NearestBinder name f b ∧ (s.frame b).slots.lookup name = some v :=
  ⟨lookupWith_eq_some, fun ⟨_, hb, hv⟩ => hb.search.1.trans hv⟩

theorem lookup_eq_none_iff {f : Nat} : s.lookup f name = none ↔ s.Unbound f name := by
  constructor
  · intro h
    refine unbound_of_no_nearestBinder fun b hb => ?_
    have hsome := hb.binds
    rw [← hb.search.1, h] at hsome
    exact Bool.false_ne_true hsome
  · intro hu
    cases hl : s.lookup f name with
    | none => rfl
    | some _ =>
      obtain ⟨b, hb, _⟩ := lookup_eq_some_iff.mp hl
      exact absurd hb hu.not_nearestBinder

theorem binder_eq_some_iff {f b : Nat} : s.binder f name = some b ↔ s.NearestBinder name f b :=
  ⟨binderWith_eq_some, fun h => h.search.2⟩

theorem binder_eq_none_iff {f : Nat} : s.binder f name = none ↔ s.Unbound f name := by
  constructor
  · intro h
    refine unbound_of_no_nearestBinder fun b hb => ?_
    rw [hb.search.2] at h
    cases h
  · intro hu
    cases hl : s.binder f name with
    | none => rfl
    | some b => exact absurd (binder_eq_some_iff.mp hl) hu.not_nearestBinder

/-- `s'` is `s` with the binding of `name` in frame `b` set to `v`, and nothing else changed: no
frame is added, every frame keeps its parent and the names it binds, in their order, every other
binding keeps its value, and the instances are as they were. -/
structure Rebinds (s s' : Store) (b : Nat) (name : String) (v : Value) : Prop where
  size : s'.frames.size = s.frames.size
  parent : ∀ g, (s'.frame g).parent = (s.frame g).parent
  names : ∀ g, (s'.frame g).slots.map Prod.fst = (s.frame g).slots.map Prod.fst
  lookup : ∀ g key, (s'.frame g).slots.lookup key =
    if g = b ∧ key = name then some v else (s.frame g).slots.lookup key
  objects : s'.objects = s.objects

/-- Setting a name a list binds keeps the names of the list. -/
theorem names_put {v : Value} :
    ∀ {slots : List (String × Value)}, (slots.lookup name).isSome →
      (put slots name v).map Prod.fst = slots.map Prod.fst
  | [], h => by simp at h
  | (k, w) :: rest, h => by
    by_cases hk : k = name
    · simp [put, hk]
    · have hkb : (k == name) = false := by simpa using hk
      have hnk : (name == k) = false := by simpa using Ne.symm hk
      have hrest : (rest.lookup name).isSome := by simpa [List.lookup_cons, hnk] using h
      simp only [put, hkb, Bool.false_eq_true, if_false, List.map_cons, names_put hrest]

/-- Binding a name again in a frame that binds it rebinds it there and changes nothing else. -/
theorem rebinds_define {b : Nat} {v : Value} (hb : ((s.frame b).slots.lookup name).isSome) :
    s.Rebinds (s.define b name v) b name v := by
  obtain ⟨w, hw⟩ := Option.isSome_iff_exists.mp hb
  have hlt : b < s.frames.size := lt_of_lookup hw
  refine ⟨size_define s b name v, fun g => parent_define s b g name v, fun g => ?_,
    fun g key => ?_, rfl⟩
  · by_cases hg : b = g
    · subst hg
      simp only [define, frame, Array.getElem?_modify]
      rw [Array.getElem?_eq_getElem hlt]
      exact names_put (by simpa [frame, Array.getElem?_eq_getElem hlt] using hb)
    · rw [frame_define_ne s name v hg]
  · rw [lookup_define]
    by_cases hg : g = b
    · subst hg
      simp [hlt]
    · simp [hg, Ne.symm hg]

theorem assign_eq_some_iff {f : Nat} {v : Value} {s' : Store} :
    s.assign f name v = some s' ↔ ∃ b, s.NearestBinder name f b ∧ s' = s.define b name v := by
  unfold assign
  constructor
  · intro h
    obtain ⟨b, hb, rfl⟩ := Option.map_eq_some_iff.mp h
    exact ⟨b, binder_eq_some_iff.mp hb, rfl⟩
  · rintro ⟨b, hb, rfl⟩
    rw [binder_eq_some_iff.mpr hb]
    rfl

theorem assign_eq_none_iff {f : Nat} {v : Value} : s.assign f name v = none ↔ s.Unbound f name := by
  unfold assign
  rw [Option.map_eq_none_iff, binder_eq_none_iff]

end Store

namespace Cursor

variable {s : Store} {f : Nat} {name : String} {line : Nat}

/-- A read through a cursor at a frame gives what the search by name finds. -/
theorem get_eq_ok_iff {v : Value} :
    (Cursor.mk s (some f)).get name line = .ok v ↔ s.lookup f name = some v := by
  simp only [get, frame, bind, Except.bind]
  cases s.lookup f name <;> simp [pure, Except.pure]

/-- A read through a cursor at a frame fails, naming the name and the line, exactly when the
search by name finds nothing. -/
theorem get_eq_error_iff {e : CursorError} :
    (Cursor.mk s (some f)).get name line = .error e ↔
      s.lookup f name = none ∧ e = .undefined name line := by
  simp only [get, frame, bind, Except.bind]
  cases s.lookup f name <;> simp [pure, Except.pure, eq_comm]

/-- An assignment through a cursor at a frame is the assignment by name, and keeps the frame. -/
theorem assign_eq_ok_iff {v : Value} {c : Cursor} :
    (Cursor.mk s (some f)).assign name v line = .ok c ↔
      ∃ s', s.assign f name v = some s' ∧ c = ⟨s', some f⟩ := by
  simp only [assign, frame, bind, Except.bind]
  cases s.assign f name v <;> simp [pure, Except.pure, eq_comm]

/-- An assignment through a cursor at a frame fails, as the read does, exactly when the
assignment by name finds no binder. -/
theorem assign_eq_error_iff {v : Value} {e : CursorError} :
    (Cursor.mk s (some f)).assign name v line = .error e ↔
      s.assign f name v = none ∧ e = .undefined name line := by
  simp only [assign, frame, bind, Except.bind]
  cases s.assign f name v <;> simp [pure, Except.pure, eq_comm]

end Cursor

/-- Names are found along a chain of frames. Reading a name through a cursor at frame `f` gives
its binding in the nearest frame of the chain that binds it, and fails, with the message
`Undefined variable`, exactly when no frame of the chain binds it. Assigning it succeeds exactly
when some frame of the chain binds it; the assignment then keeps the current frame and rebinds
the name in the nearest such frame and nowhere else, adding no binding; otherwise it fails in the
same way as the read. -/
theorem names_resolve_to_their_nearest_binding (s : Store) (f : Nat) (name : String)
    (line : Nat) :
    (∀ v, (Cursor.mk s (some f)).get name line = .ok v ↔
      ∃ b, s.NearestBinder name f b ∧ (s.frame b).slots.lookup name = some v) ∧
    ((∃ e, (Cursor.mk s (some f)).get name line = .error e) ↔ s.Unbound f name) ∧
    (∀ e, (Cursor.mk s (some f)).get name line = .error e →
      e = .undefined name line ∧ e.message = "Undefined variable '" ++ name ++ "'.") ∧
    ∀ v, ((∃ c, (Cursor.mk s (some f)).assign name v line = .ok c) ↔
        ∃ g, s.OnChain f g ∧ ((s.frame g).slots.lookup name).isSome) ∧
      (∀ c, (Cursor.mk s (some f)).assign name v line = .ok c →
        c.current = some f ∧ ∃ b, s.NearestBinder name f b ∧ s.Rebinds c.store b name v) ∧
      ((∃ e, (Cursor.mk s (some f)).assign name v line = .error e) ↔ s.Unbound f name) ∧
      (∀ e, (Cursor.mk s (some f)).assign name v line = .error e → e = .undefined name line) := by
  refine ⟨fun v => ?_, ?_, fun e he => ?_, fun v => ⟨⟨?_, ?_⟩, fun c hc => ?_, ?_, fun e he => ?_⟩⟩
  · rw [Cursor.get_eq_ok_iff, Store.lookup_eq_some_iff]
  · simp only [Cursor.get_eq_error_iff, exists_eq_right, Store.lookup_eq_none_iff]
  · obtain ⟨-, rfl⟩ := Cursor.get_eq_error_iff.mp he
    exact ⟨rfl, rfl⟩
  · -- a successful assignment found a nearest binder on the chain
    rintro ⟨c, hc⟩
    obtain ⟨_, ha, -⟩ := Cursor.assign_eq_ok_iff.mp hc
    obtain ⟨b, hb, -⟩ := Store.assign_eq_some_iff.mp ha
    exact ⟨b, hb.onChain, hb.binds⟩
  · rintro ⟨g, hg, hbinds⟩
    obtain ⟨b, hb⟩ := hg.nearestBinder hbinds
    exact ⟨_, Cursor.assign_eq_ok_iff.mpr ⟨_, Store.assign_eq_some_iff.mpr ⟨b, hb, rfl⟩, rfl⟩⟩
  · obtain ⟨_, ha, rfl⟩ := Cursor.assign_eq_ok_iff.mp hc
    obtain ⟨b, hb, rfl⟩ := Store.assign_eq_some_iff.mp ha
    exact ⟨rfl, b, hb, Store.rebinds_define hb.binds⟩
  · simp only [Cursor.assign_eq_error_iff, exists_eq_right, Store.assign_eq_none_iff]
  · exact (Cursor.assign_eq_error_iff.mp he).2

end Lox
