import Lox.Value

/-!
The store of a run: frames of bindings and the instances of classes, each by number. A frame
records the frame it is nested in, which was made before it, and its bindings in the order
they were first made; defining a name again keeps its place. The chain of a frame is the frame
and the frames it is nested in, out to a frame nested in none.

Names are found two ways. By name along the chain (`lookup`, `assign`): the nearest frame that
binds the name. By depth (`getAt`, `assignAt`): the frame that many steps out, which must exist
and, for reading, bind the name; a `Fault` says which of the two failed.
-/

namespace Lox

structure Frame where
  parent : Option Nat
  -- The bindings, in the order they were first made.
  slots : List (String × Value)
  deriving Inhabited

/-- The fields of an instance, in the order they were first set. -/
structure Object where
  fields : List (String × Value)
  deriving Inhabited

/-- A lookup by depth that does not fit the frames. -/
inductive Fault where
  -- The chain ends before the depth is reached: while stepping out (`enclosing`) or at the last
  -- step (`values`).
  | noFrame (part : String)
  | unbound (name : String)
  deriving Inhabited

structure Store where
  -- The frames; frame `0` holds the globals.
  frames : Array Frame
  objects : Array Object
  deriving Inhabited

namespace Store

/-- Sets a binding in a list, keeping the place of a name already there and adding a new name
at the end. -/
def put : List (String × Value) → String → Value → List (String × Value)
  | [], name, v => [(name, v)]
  | (k, w) :: rest, name, v => if k == name then (k, v) :: rest else (k, w) :: put rest name v

/-- A binding set in a list reads back, and every other name reads as before. -/
theorem lookup_put (slots : List (String × Value)) (name key : String) (v : Value) :
    (put slots name v).lookup key = if key = name then some v else slots.lookup key := by
  induction slots with
  | nil =>
    by_cases h : key = name
    · simp [put, h]
    · have hb : (key == name) = false := by simpa using h
      simp [put, List.lookup_cons, h, hb]
  | cons p rest ih =>
    obtain ⟨k, w⟩ := p
    by_cases hk : k = name
    · subst hk
      by_cases h : key = k
      · simp [put, h]
      · have hb : (key == k) = false := by simpa using h
        simp [put, List.lookup_cons, h, hb]
    · have hkn : (k == name) = false := by simpa using hk
      by_cases h : key = k
      · subst h
        simp [put, hk]
      · have hkey : (key == k) = false := by simpa using h
        simp [put, List.lookup_cons, hkn, hkey, ih]

/-- The bindings of a list of pairs set one after another: a name given twice keeps its first
place and its last value. -/
def putAll (slots : List (String × Value)) : List (String × Value) :=
  slots.foldl (fun acc (k, v) => put acc k v) []

/-- A store with one frame of globals, which binds the native functions. -/
def initial : Store := ⟨#[⟨none, [(Native.clock.name, .native .clock)]⟩], #[]⟩

def globals : Nat := 0

def push (s : Store) (parent : Option Nat) : Nat × Store :=
  (s.frames.size, { s with frames := s.frames.push ⟨parent, []⟩ })

/-- A new frame nested in `parent` with bindings, and its number. -/
def pushWith (s : Store) (parent : Nat) (slots : List (String × Value)) : Nat × Store :=
  (s.frames.size, { s with frames := s.frames.push ⟨some parent, putAll slots⟩ })

def frame (s : Store) (f : Nat) : Frame := s.frames[f]?.getD ⟨none, []⟩

def define (s : Store) (f : Nat) (name : String) (v : Value) : Store :=
  { s with frames := s.frames.modify f fun fr => { fr with slots := put fr.slots name v } }

theorem push_fst (s : Store) (parent : Option Nat) : (s.push parent).1 = s.frames.size := rfl

theorem frame_push_self (s : Store) (parent : Option Nat) :
    (s.push parent).2.frame s.frames.size = ⟨parent, []⟩ := by
  simp [push, frame]

theorem frame_push_lt (s : Store) (parent : Option Nat) {g : Nat} (h : g < s.frames.size) :
    (s.push parent).2.frame g = s.frame g := by
  simp [push, frame, Array.getElem?_push, Nat.ne_of_lt h]

theorem frame_define_ne (s : Store) {f g : Nat} (name : String) (v : Value) (h : f ≠ g) :
    (s.define f name v).frame g = s.frame g := by
  simp [define, frame, Array.getElem?_modify, h]

theorem parent_define (s : Store) (f g : Nat) (name : String) (v : Value) :
    ((s.define f name v).frame g).parent = (s.frame g).parent := by
  by_cases h : f = g
  · subst h
    simp only [define, frame, Array.getElem?_modify]
    cases s.frames[f]? <;> rfl
  · rw [frame_define_ne s name v h]

/-- In the frame bound in, the name reads back, and every other name as before. -/
theorem lookup_define_self (s : Store) {f : Nat} (name key : String) (v : Value)
    (h : f < s.frames.size) :
    ((s.define f name v).frame f).slots.lookup key =
      if key = name then some v else (s.frame f).slots.lookup key := by
  simp only [define, frame, Array.getElem?_modify]
  rw [Array.getElem?_eq_getElem h]
  simp [lookup_put]

/-- The value of a name in the nearest frame of the chain that binds it; `fuel` bounds the
frames visited. -/
def lookupWith (s : Store) (name : String) : Nat → Nat → Option Value
  | 0, _ => none
  | fuel + 1, f =>
    let fr := s.frame f
    match fr.slots.lookup name with
    | some v => some v
    | none =>
      match fr.parent with
      | some p => s.lookupWith name fuel p
      | none => none

def lookup (s : Store) (f : Nat) (name : String) : Option Value :=
  s.lookupWith name (s.frames.size + 1) f

/-- The nearest frame of the chain that binds a name; `fuel` bounds the frames visited. -/
def binderWith (s : Store) (name : String) : Nat → Nat → Option Nat
  | 0, _ => none
  | fuel + 1, f =>
    let fr := s.frame f
    if fr.slots.any (·.1 == name) then some f
    else
      match fr.parent with
      | some p => s.binderWith name fuel p
      | none => none

def binder (s : Store) (f : Nat) (name : String) : Option Nat :=
  s.binderWith name (s.frames.size + 1) f

/-- Changes the nearest binding of a name along the chain; `none` when no frame binds it. -/
def assign (s : Store) (f : Nat) (name : String) (v : Value) : Option Store :=
  (s.binder f name).map fun b => s.define b name v

/-- The frame `d` steps out along the chain. -/
def ancestor (s : Store) : Nat → Nat → Except Fault Nat
  | f, 0 => .ok f
  | f, d + 1 =>
    match (s.frame f).parent with
    | some p => s.ancestor p d
    | none => .error (.noFrame (if d = 0 then "values" else "enclosing"))

/-- The value of a name in the frame `d` steps out. -/
def getAt (s : Store) (f d : Nat) (name : String) : Except Fault Value := do
  let a ← s.ancestor f d
  match (s.frame a).slots.lookup name with
  | some v => pure v
  | none => .error (.unbound name)

def assignAt (s : Store) (f d : Nat) (name : String) (v : Value) : Except Fault Store := do
  let a ← s.ancestor f d
  pure (s.define a name v)

def newObject (s : Store) : Nat × Store :=
  (s.objects.size, { s with objects := s.objects.push ⟨[]⟩ })

def field? (s : Store) (id : Nat) (name : String) : Option Value :=
  (s.objects[id]?.map (·.fields)).bind (·.lookup name)

def setField (s : Store) (id : Nat) (name : String) (v : Value) : Store :=
  { s with objects := s.objects.modify id fun o => { o with fields := put o.fields name v } }

/-- The names a frame binds and those of the frames it is nested in, as
`<env [a, b] -> <env [c]>>`; `fuel` bounds the frames shown. -/
def describeWith (s : Store) : Nat → Nat → String
  | 0, _ => ""
  | fuel + 1, f =>
    let fr := s.frame f
    let names := ", ".intercalate (fr.slots.map (·.1))
    match fr.parent with
    | none => "<env [" ++ names ++ "]>"
    | some p => "<env [" ++ names ++ "] -> " ++ s.describeWith fuel p ++ ">"

def describe (s : Store) (f : Nat) : String := s.describeWith (s.frames.size + 1) f

end Store

end Lox
