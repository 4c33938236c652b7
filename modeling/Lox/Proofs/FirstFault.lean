import Lox.Tree.Json
import Lox.Uncaught

/-!
# Reading a document stops at its first fault

A syntax-tree document is read place by place in one fixed order: a node before its fields, the
fields of a node in the order its kind lists them (`NodeKind.fields`), all of a field's places
before the next field, and the items of a list one after another. Each field is read by what it
holds (`Role`): a node, a node that may be missing, a token, a parameter list or a constant.

`Json.check` walks the places in that order, checks each for what it must hold, and stops at the
first that fails, with that place's error. Reading a document (`Tree.ofJson`) fails exactly when
the walk does, with the same error, and succeeds exactly when every place passes
(`document_reading_stops_at_first_fault`).

A node place holds `null`, a list or an object whose `type` names a kind; a token place holds an
object with a `type` and a `lexeme`; a required field must be present, an optional node field
reads as `null` when missing. Beyond these, a parameter list must be something the reader can
iterate (a list, or an object or a string whose keys or characters are then token places).

Integer constants are meant to read as numbers like any other, as the same numeral in a source
does. Reading converts an integer to a double, though, and fails when the conversion overflows:
`{"type": "Literal", "value": 10^400}` stops reading although its node is well formed
(`oversized_constant_stops_reading`). For documents whose integers all fit a double
(`Json.fitsDoubles`), reading stops only at the faults above
(`fitting_documents_stop_at_first_fault`).
-/

namespace Lox

/-- What a field of a node holds, as a reader reads it. -/
inductive Role where
  -- A node, a list or `null`, under a key that must be present.
  | node
  -- A node, a list or `null`, read as `null` when the key is missing.
  | optional
  | token
  | params
  | constant
  deriving DecidableEq, Repr

namespace NodeKind

/-- The fields of a node of each kind, in the order they are read. -/
def fields : NodeKind → List (String × Role)
  | block => [("statements", .node)]
  | classDecl => [("name", .token), ("superclass", .optional), ("methods", .node)]
  | exprStmt => [("expr", .node)]
  | functionDecl => [("name", .token), ("params", .params), ("body", .node)]
  | ifStmt => [("condition", .node), ("then_branch", .node), ("else_branch", .optional)]
  | printStmt => [("value", .node)]
  | returnStmt => [("keyword", .token), ("value", .optional)]
  | varDecl => [("name", .token), ("initializer", .optional)]
  | whileStmt => [("condition", .node), ("body", .node)]
  | assign => [("name", .token), ("value", .node)]
  | binary => [("left", .node), ("op", .token), ("right", .node)]
  | call => [("callee", .node), ("paren", .token), ("arguments", .node)]
  | get => [("obj", .node), ("name", .token)]
  | grouping => [("expression", .node)]
  | literal => [("value", .constant)]
  | logical => [("left", .node), ("op", .token), ("right", .node)]
  | set => [("obj", .node), ("name", .token), ("value", .node)]
  | superExpr => [("keyword", .token), ("method", .token)]
  | thisExpr => [("keyword", .token)]
  | unary => [("op", .token), ("right", .node)]
  | varRef => [("name", .token)]

end NodeKind

namespace Json

/-- The kind a node's `type` field names. -/
def kindOf : Option Json → Except DecodeError NodeKind
  | some (.str s) =>
    match NodeKind.ofName? s with
    | some k => .ok k
    | none => .error (.unknownKind (some (.str s)))
  | other => .error (.unknownKind other)

/-- A token place: an object with a `type` and then a `lexeme`. -/
def checkToken : Json → Except DecodeError Unit
  | .obj fields =>
    if (fields.lookup "type").isNone then .error (.missingKey "type")
    else if (fields.lookup "lexeme").isNone then .error (.missingKey "lexeme")
    else .ok ()
  | other => .error (.tokenNotObject other)

/-- A parameter place: the items of a list, the keys of an object or the characters of a
string, each a token place in turn. -/
def checkParams : Json → Except DecodeError Unit
  | .arr items => items.forM checkToken
  | .obj fields => fields.forM fun (k, _) => checkToken (.str k)
  | .str s => s.toList.forM fun c => checkToken (.str (String.ofList [c]))
  | other => .error (.paramsNotList other)

/-- A constant place: an integer must round to a finite double. -/
def checkConstant : Json → Except DecodeError Unit
  | .int n => if n.natAbs ≥ Nat.pow 2 1024 - Nat.pow 2 970 then .error .tooLarge else .ok ()
  | _ => .ok ()

mutual

/-- Every integer of a document rounds to a finite double. -/
def fitsDoubles : Json → Bool
  | .int n => decide (n.natAbs < Nat.pow 2 1024 - Nat.pow 2 970)
  | .arr items => itemsFitDoubles items
  | .obj fields => fieldsFitDoubles fields
  | _ => true

/-- Every integer of the items of an array rounds to a finite double. -/
def itemsFitDoubles : List Json → Bool
  | [] => true
  | j :: rest => fitsDoubles j && itemsFitDoubles rest

/-- Every integer of the values of an object rounds to a finite double. -/
def fieldsFitDoubles : List (String × Json) → Bool
  | [] => true
  | (_, j) :: rest => fitsDoubles j && fieldsFitDoubles rest

end

end Json

/-- The check of a field's place, given the value under its key and the check of a node place
for that value. -/
def Role.checkField (key : String) (role : Role) (value : Option Json)
    (node : (j : Json) → value = some j → Except DecodeError Unit) : Except DecodeError Unit :=
  match role, value, node with
  | .optional, none, _ => .ok ()
  | .node, some j, node | .optional, some j, node => node j rfl
  | .token, some j, _ => Json.checkToken j
  | .params, some j, _ => Json.checkParams j
  | .constant, some j, _ => Json.checkConstant j
  | _, none, _ => .error (.missingKey key)

namespace Json

theorem depth_lt_of_lookup {fields : List (String × Json)} {key : String} {j : Json}
    (h : fields.lookup key = some j) : j.depth < (Json.obj fields).depth := by
  induction fields with
  | nil => simp at h
  | cons kv rest ih =>
    obtain ⟨k, v⟩ := kv
    simp only [List.lookup_cons] at h
    split at h
    · cases h
      simp only [depth, depthOfFields]
      omega
    · have := ih h
      simp only [depth, depthOfFields] at this ⊢
      omega

theorem depth_lt_of_mem_items {items : List Json} {j : Json} (h : j ∈ items) :
    j.depth < (Json.arr items).depth := by
  induction items with
  | nil => simp at h
  | cons i rest ih =>
    simp only [depth, depthOfItems]
    rcases List.mem_cons.mp h with rfl | h
    · omega
    · have := ih h
      simp only [depth] at this
      omega

/-- Checks the places of a node place in reading order and stops at the first that fails. -/
def check : Json → Except DecodeError Unit
  | .null => .ok ()
  | .arr items => items.attach.forM fun ⟨j, _⟩ => check j
  | .obj fields => do
    let k ← kindOf (fields.lookup "type")
    k.fields.forM fun (key, role) =>
      role.checkField key (fields.lookup key) fun j _ => check j
  | _ => .error .notNode
termination_by j => j.depth
decreasing_by
  · exact depth_lt_of_mem_items ‹_›
  · exact depth_lt_of_lookup ‹_›

end Json

section FailsLike

variable {ε α β γ δ : Type}

/-- The error a result fails with, if it fails. -/
def failureOf : Except ε α → Option ε
  | .error e => some e
  | .ok _ => none

/-- Two results that fail alike: with the same error, or both not at all. -/
def FailsLike (x : Except ε α) (y : Except ε β) : Prop := failureOf x = failureOf y

theorem FailsLike.error_iff {x : Except ε α} {y : Except ε β} (h : FailsLike x y) (e : ε) :
    x = .error e ↔ y = .error e := by
  unfold FailsLike at h
  cases x <;> cases y <;> simp_all [failureOf]

theorem FailsLike.ok_iff {x : Except ε α} {y : Except ε β} (h : FailsLike x y) :
    (∃ a, x = .ok a) ↔ ∃ b, y = .ok b := by
  unfold FailsLike at h
  cases x <;> cases y <;> simp_all [failureOf]

theorem FailsLike.error (e : ε) : FailsLike (.error e : Except ε α) (.error e : Except ε β) := rfl

theorem FailsLike.pure (a : α) (b : β) : FailsLike (Pure.pure a : Except ε α) (Pure.pure b) :=
  rfl

theorem FailsLike.map {x : Except ε α} {y : Except ε β} (h : FailsLike x y) (f : α → γ) :
    FailsLike (f <$> x) y := by
  cases x <;> exact h

theorem FailsLike.bind {x : Except ε α} {y : Except ε β} {f : α → Except ε γ}
    {g : β → Except ε δ} (hx : FailsLike x y)
    (hf : ∀ a b, x = .ok a → y = .ok b → FailsLike (f a) (g b)) :
    FailsLike (x >>= f) (y >>= g) := by
  cases x with
  | error e =>
    cases y with
    | error e' => exact hx
    | ok b => cases hx
  | ok a =>
    cases y with
    | error e => cases hx
    | ok b => exact hf a b rfl rfl

/-- A step followed by a rest that fails alike whatever the step gave. -/
theorem FailsLike.then {x : Except ε α} {y : Except ε β} {f : α → Except ε γ}
    {rest : Except ε δ} (hx : FailsLike x y) (hf : ∀ a, FailsLike (f a) rest) :
    FailsLike (x >>= f) (y >>= fun _ => rest) :=
  hx.bind fun a _ _ _ => hf a

/-- Mapping the items of a list one after another fails like checking them one after another
when each item's step fails like its check. -/
theorem FailsLike.mapM_forM {ι : Type} {f : ι → Except ε α} {g : ι → Except ε PUnit} :
    ∀ items : List ι, (∀ i ∈ items, FailsLike (f i) (g i)) →
      FailsLike (items.mapM f) (items.forM g)
  | [], _ => FailsLike.pure _ _
  | i :: rest, h => by
    simp only [List.mapM_cons, bind_pure_comp]
    exact (h i (List.mem_cons_self ..)).bind fun _ _ _ _ =>
      (FailsLike.mapM_forM rest fun j hj => h j (List.mem_cons_of_mem _ hj)).map _

end FailsLike

theorem Token.ofJson_failsLike (j : Json) : FailsLike (Token.ofJson j) (Json.checkToken j) := by
  cases j with
  | obj fields =>
    cases ht : fields.lookup "type" <;> cases hl : fields.lookup "lexeme" <;>
      simp [Token.ofJson, Json.checkToken, ht, hl, FailsLike, failureOf, bind, Except.bind, pure,
        Except.pure]
  | _ => exact FailsLike.error _

theorem Token.paramsOfJson_failsLike (j : Json) :
    FailsLike (Token.paramsOfJson j) (Json.checkParams j) := by
  cases j with
  | arr items =>
    exact FailsLike.mapM_forM items fun i _ => Token.ofJson_failsLike i
  | obj fields =>
    exact FailsLike.mapM_forM fields fun i _ => Token.ofJson_failsLike (.str i.1)
  | str s =>
    exact FailsLike.mapM_forM s.toList fun c _ => Token.ofJson_failsLike (.str (String.ofList [c]))
  | _ => exact FailsLike.error _

theorem Tree.constantOfJson_failsLike (j : Json) :
    FailsLike (Tree.constantOfJson j) (Json.checkConstant j) := by
  cases j with
  | int n =>
    by_cases hn : n.natAbs ≥ Nat.pow 2 1024 - Nat.pow 2 970
    · simp only [Tree.constantOfJson, Json.checkConstant, if_pos hn]
      exact FailsLike.error _
    · simp only [Tree.constantOfJson, Json.checkConstant, if_neg hn]
      exact FailsLike.pure _ _
  | _ => exact FailsLike.pure _ _

namespace Tree

variable (fields : List (String × Json)) (key : String)

theorem tokenField_failsLike :
    FailsLike (tokenField fields key)
      (Role.token.checkField key (fields.lookup key) fun j _ => j.check) := by
  unfold tokenField required
  cases fields.lookup key with
  | none => exact FailsLike.error _
  | some j => exact Token.ofJson_failsLike j

theorem paramsField_failsLike :
    FailsLike (required fields key >>= Token.paramsOfJson)
      (Role.params.checkField key (fields.lookup key) fun j _ => j.check) := by
  unfold required
  cases fields.lookup key with
  | none => exact FailsLike.error _
  | some j => exact Token.paramsOfJson_failsLike j

theorem constantField_failsLike :
    FailsLike (required fields key >>= constantOfJson)
      (Role.constant.checkField key (fields.lookup key) fun j _ => j.check) := by
  unfold required
  cases fields.lookup key with
  | none => exact FailsLike.error _
  | some j => exact constantOfJson_failsLike j

variable {fields key} {fuel : Nat}

theorem nodeField_failsLike
    (ih : ∀ j, fields.lookup key = some j → FailsLike (ofJsonWith fuel j) j.check) :
    FailsLike (required fields key >>= ofJsonWith fuel)
      (Role.node.checkField key (fields.lookup key) fun j _ => j.check) := by
  unfold required
  cases h : fields.lookup key with
  | none => exact FailsLike.error _
  | some j => exact ih j h

theorem optionalField_failsLike (hfuel : 0 < fuel)
    (ih : ∀ j, fields.lookup key = some j → FailsLike (ofJsonWith fuel j) j.check) :
    FailsLike (ofJsonWith fuel (optional fields key))
      (Role.optional.checkField key (fields.lookup key) fun j _ => j.check) := by
  unfold optional
  cases h : fields.lookup key with
  | none =>
    obtain ⟨fuel, rfl⟩ := Nat.exists_eq_add_one_of_ne_zero (Nat.pos_iff_ne_zero.mp hfuel)
    exact FailsLike.pure _ _
  | some j => exact ih j h

theorem obj_failsLike_of_kind {k : NodeKind} (h : fields.lookup "type" = some (.str k.name))
    (hfuel : 0 < fuel)
    (ih : ∀ key j, fields.lookup key = some j → FailsLike (ofJsonWith fuel j) j.check) :
    FailsLike (ofJsonWith (fuel + 1) (.obj fields))
      (k.fields.forM fun (key, role) => role.checkField key (fields.lookup key) fun j _ => j.check) := by
  have tok := tokenField_failsLike fields
  have node := fun key => nodeField_failsLike (ih key)
  have opt := fun key => optionalField_failsLike hfuel (ih key)
  -- one case per kind: each field in the order the kind lists it
  cases k <;> simp only [ofJsonWith, h, NodeKind.name, NodeKind.fields, List.forM_eq_forM,
    List.forM_cons, List.forM_nil]
  case block => exact (node _).then fun _ => FailsLike.pure _ _
  case classDecl =>
    exact (tok _).then fun _ => (opt _).then fun _ => (node _).then fun _ => FailsLike.pure _ _
  case exprStmt => exact (node _).then fun _ => FailsLike.pure _ _
  case functionDecl =>
    refine (tok _).then fun _ => ?_
    rw [← bind_assoc]
    exact (paramsField_failsLike _ _).then fun _ => (node _).then fun _ => FailsLike.pure _ _
  case ifStmt =>
    exact (node _).then fun _ => (node _).then fun _ => (opt _).then fun _ => FailsLike.pure _ _
  case printStmt => exact (node _).then fun _ => FailsLike.pure _ _
  case returnStmt => exact (tok _).then fun _ => (opt _).then fun _ => FailsLike.pure _ _
  case varDecl => exact (tok _).then fun _ => (opt _).then fun _ => FailsLike.pure _ _
  case whileStmt => exact (node _).then fun _ => (node _).then fun _ => FailsLike.pure _ _
  case assign => exact (tok _).then fun _ => (node _).then fun _ => FailsLike.pure _ _
  case binary =>
    exact (node _).then fun _ => (tok _).then fun _ => (node _).then fun _ => FailsLike.pure _ _
  case call =>
    exact (node _).then fun _ => (tok _).then fun _ => (node _).then fun _ => FailsLike.pure _ _
  case get => exact (node _).then fun _ => (tok _).then fun _ => FailsLike.pure _ _
  case grouping => exact (node _).then fun _ => FailsLike.pure _ _
  case literal =>
    rw [← bind_assoc]
    exact (constantField_failsLike _ _).then fun _ => FailsLike.pure _ _
  case logical =>
    exact (node _).then fun _ => (tok _).then fun _ => (node _).then fun _ => FailsLike.pure _ _
  case set =>
    exact (node _).then fun _ => (tok _).then fun _ => (node _).then fun _ => FailsLike.pure _ _
  case superExpr => exact (tok _).then fun _ => (tok _).then fun _ => FailsLike.pure _ _
  case thisExpr => exact (tok _).then fun _ => FailsLike.pure _ _
  case unary => exact (tok _).then fun _ => (node _).then fun _ => FailsLike.pure _ _
  case varRef => exact (tok _).then fun _ => FailsLike.pure _ _

/-- An object whose `type` names no kind is refused with that `type`, before any field is
read. -/
theorem ofJsonWith_obj_of_kindOf {e : DecodeError}
    (h : Json.kindOf (fields.lookup "type") = .error e) :
    ofJsonWith (fuel + 1) (.obj fields) = .error e := by
  cases ht : fields.lookup "type" with
  | none =>
    simp only [ht, Json.kindOf] at h
    cases h
    simp [ofJsonWith, ht]
  | some v =>
    cases v with
    | str s =>
      simp only [ht, Json.kindOf] at h
      split at h
      · cases h
      · cases h
        simp only [ofJsonWith, ht]
        split
        -- a place naming a kind is found by `ofName?`; only the last alternative is left
        all_goals first
          | rfl
          | rename_i hnone _ heq
            cases heq
            exact absurd hnone (by decide)
    | _ =>
      simp only [ht, Json.kindOf] at h
      cases h
      simp [ofJsonWith, ht]

end Tree

theorem Json.kindOf_eq_ok {v : Option Json} {k : NodeKind} (h : Json.kindOf v = .ok k) :
    v = some (.str k.name) := by
  unfold Json.kindOf at h
  split at h
  · split at h
    · next s k' hk =>
      cases h
      have := List.find?_some hk
      simp only [beq_iff_eq] at this
      rw [this]
    · cases h
  · cases h

/-- Reading with more fuel than the document nests fails like checking its places. One case per
shape of document; an object is read by its kind, field by field. -/
theorem Tree.ofJsonWith_failsLike : ∀ (fuel : Nat) (j : Json), j.depth < fuel →
    FailsLike (Tree.ofJsonWith fuel j) j.check
  | 0, _, h => absurd h (Nat.not_lt_zero _)
  | fuel + 1, .null, _ => by
    rw [Json.check]
    exact FailsLike.pure _ _
  | fuel + 1, .arr items, hd => by
    have hitems : ∀ j ∈ items, FailsLike (Tree.ofJsonWith fuel j) j.check := fun j hj =>
      Tree.ofJsonWith_failsLike fuel j (by have := Json.depth_lt_of_mem_items hj; omega)
    rw [Json.check, Tree.ofJsonWith]
    -- the items are checked through `attach`, which the reading does not use
    have hattach : items.attach.mapM (fun x => Tree.ofJsonWith fuel x.1) =
        items.mapM (Tree.ofJsonWith fuel) := by simp
    rw [← hattach]
    exact (FailsLike.mapM_forM items.attach fun x _ => hitems x.1 x.2).map _
  | fuel + 1, .obj fields, hd => by
    have ih : ∀ key j, fields.lookup key = some j → FailsLike (Tree.ofJsonWith fuel j) j.check :=
      fun _ j hj => Tree.ofJsonWith_failsLike fuel j (by have := Json.depth_lt_of_lookup hj; omega)
    have hfuel : 0 < fuel := by simp only [Json.depth] at hd; omega
    rw [Json.check]
    cases hk : Json.kindOf (fields.lookup "type") with
    | error e =>
      rw [Tree.ofJsonWith_obj_of_kindOf hk]
      exact FailsLike.error e
    | ok k =>
      exact Tree.obj_failsLike_of_kind (Json.kindOf_eq_ok hk) hfuel ih
  | fuel + 1, .bool _, _ | fuel + 1, .int _, _ | fuel + 1, .float _, _ | fuel + 1, .str _, _ => by
    simp only [Json.check.eq_def]
    exact FailsLike.error _

/-- Reading a syntax-tree document stops at its first fault. Its places are visited in one
order: a node before its fields, the fields of a node in the order its kind lists them, the items
of a list in turn. Reading fails exactly when a place does not hold what it must, with the error
of the first such place: a scalar in a node place, an object whose `type` names no kind, a
missing required key, a token place holding no object, a parameter list that cannot be iterated,
or an integer constant too large for a double. When every place holds what it must, reading
succeeds; a missing optional field or token position never fails. -/
theorem document_reading_stops_at_first_fault (j : Json) :
    (∀ e, Tree.ofJson j = .error e ↔ j.check = .error e) ∧
      ((∃ t, Tree.ofJson j = .ok t) ↔ j.check = .ok ()) := by
  have h := Tree.ofJsonWith_failsLike (j.depth + 2) j (by omega)
  refine ⟨h.error_iff, ?_⟩
  rw [Tree.ofJson, h.ok_iff]
  exact ⟨fun ⟨_, hu⟩ => hu, fun hu => ⟨(), hu⟩⟩

/-- A check over a list fails with a given error only if some item's check does. -/
theorem forM_ne_error {ι : Type} {f : ι → Except DecodeError PUnit} {e : DecodeError}
    (items : List ι) (h : ∀ i ∈ items, f i ≠ .error e) : items.forM f ≠ .error e := by
  induction items with
  | nil =>
    intro hnil
    cases hnil
  | cons i rest ih =>
    simp only [List.forM_eq_forM, List.forM_cons]
    cases hi : f i with
    | error e' =>
      have hne := h i (List.mem_cons_self ..)
      rw [hi] at hne
      exact hne
    | ok u => exact ih fun j hj => h j (List.mem_cons_of_mem _ hj)

namespace Json

theorem fitsDoubles_of_mem_items {items : List Json} (h : (Json.arr items).fitsDoubles = true)
    {j : Json} (hj : j ∈ items) : j.fitsDoubles = true := by
  rw [fitsDoubles] at h
  induction items with
  | nil => cases hj
  | cons i rest ih =>
    rw [itemsFitDoubles, Bool.and_eq_true] at h
    rcases List.mem_cons.mp hj with rfl | hj
    · exact h.1
    · exact ih h.2 hj

theorem fitsDoubles_of_lookup {fields : List (String × Json)}
    (h : (Json.obj fields).fitsDoubles = true) {key : String} {j : Json}
    (hj : fields.lookup key = some j) : j.fitsDoubles = true := by
  rw [fitsDoubles] at h
  induction fields with
  | nil => simp at hj
  | cons kv rest ih =>
    obtain ⟨k, v⟩ := kv
    rw [fieldsFitDoubles, Bool.and_eq_true] at h
    rw [List.lookup_cons] at hj
    split at hj
    · cases hj
      exact h.1
    · exact ih h.2 hj

theorem kindOf_ne_tooLarge (v : Option Json) : kindOf v ≠ .error .tooLarge := by
  unfold kindOf
  split
  · split <;> simp
  · simp

theorem checkToken_ne_tooLarge (j : Json) : checkToken j ≠ .error .tooLarge := by
  unfold checkToken
  split
  · split
    · simp
    · split <;> simp
  · simp

theorem checkParams_ne_tooLarge (j : Json) : checkParams j ≠ .error .tooLarge := by
  unfold checkParams
  split
  · exact forM_ne_error _ fun i _ => checkToken_ne_tooLarge i
  · exact forM_ne_error _ fun i _ => checkToken_ne_tooLarge _
  · exact forM_ne_error _ fun c _ => checkToken_ne_tooLarge _
  · simp

theorem checkConstant_of_fitsDoubles {j : Json} (h : j.fitsDoubles = true) :
    checkConstant j = .ok () := by
  cases j with
  | int n =>
    rw [fitsDoubles, decide_eq_true_eq] at h
    rw [checkConstant, if_neg (Nat.not_le_of_lt h)]
  | _ => rfl

end Json

/-- A field's check fails with an overflow only where its constant or its node does. -/
theorem Role.checkField_ne_tooLarge (key : String) (role : Role) (value : Option Json)
    (node : (j : Json) → value = some j → Except DecodeError Unit)
    (hfit : ∀ j, value = some j → j.fitsDoubles = true)
    (hnode : ∀ j h, node j h ≠ .error .tooLarge) :
    role.checkField key value node ≠ .error .tooLarge := by
  cases value with
  | none => cases role <;> simp [Role.checkField]
  | some j =>
    cases role
    case node | optional => exact hnode j rfl
    case token => exact Json.checkToken_ne_tooLarge j
    case params => exact Json.checkParams_ne_tooLarge j
    case constant =>
      show Json.checkConstant j ≠ _
      rw [Json.checkConstant_of_fitsDoubles (hfit j rfl)]
      simp

/-- The walk over a document whose integers fit a double never stops at an overflow. The
induction is on a bound above the document's depth, as for reading. -/
theorem Json.check_ne_tooLarge (fuel : Nat) : ∀ j : Json, j.depth < fuel →
    j.fitsDoubles = true → j.check ≠ .error .tooLarge := by
  induction fuel with
  | zero =>
    intro j h
    exact absurd h (Nat.not_lt_zero _)
  | succ fuel ih =>
    intro j hd hfit
    cases j with
    | arr items =>
      rw [Json.check]
      refine forM_ne_error _ fun x _ => ih x.1 ?_ (Json.fitsDoubles_of_mem_items hfit x.2)
      have := Json.depth_lt_of_mem_items x.2
      omega
    | obj fields =>
      rw [Json.check]
      cases hk : Json.kindOf (fields.lookup "type") with
      | error e =>
        have hne := Json.kindOf_ne_tooLarge (fields.lookup "type")
        rw [hk] at hne
        simp only [bind, Except.bind, ne_eq, Except.error.injEq] at hne ⊢
        exact hne
      | ok k =>
        refine forM_ne_error _ fun field _ => Role.checkField_ne_tooLarge _ _ _ _
          (fun j hj => Json.fitsDoubles_of_lookup hfit hj) fun j hj => ?_
        exact ih j (by have := Json.depth_lt_of_lookup hj; omega)
          (Json.fitsDoubles_of_lookup hfit hj)
    | _ =>
      simp only [Json.check.eq_def]
      simp

/-- Reading a document whose integers all fit a double stops at its first fault, and that fault
is never an overflow: the error of the first place that does not hold what it must, a scalar in
a node place, an object whose `type` names no kind, a missing required key, a token place holding
no object, or a parameter list that cannot be iterated. -/
theorem fitting_documents_stop_at_first_fault (j : Json) (hfit : j.fitsDoubles = true) :
    (∀ e, Tree.ofJson j = .error e ↔ j.check = .error e) ∧
      ((∃ t, Tree.ofJson j = .ok t) ↔ j.check = .ok ()) ∧ j.check ≠ .error .tooLarge :=
  ⟨(document_reading_stops_at_first_fault j).1, (document_reading_stops_at_first_fault j).2,
    Json.check_ne_tooLarge (j.depth + 1) j (Nat.lt_succ_self _) hfit⟩

/-- A function whose parameter list is a number. -/
def numericParams : Json :=
  .arr [.obj [("type", .str "FunctionDecl"),
    ("name", .obj [("type", .str "IDENTIFIER"), ("lexeme", .str "f")]),
    ("params", .int 5), ("body", .arr [])]]

/-- A parameter list that is a number stops reading with the failed iteration over it, after the
node and its name were read. -/
theorem numeric_params_stop_reading :
    numericParams.fitsDoubles = true ∧
      Tree.ofJson numericParams = .error (.paramsNotList (.int 5)) := by
  have hfit : numericParams.fitsDoubles = true := by decide +kernel
  refine ⟨hfit, ((fitting_documents_stop_at_first_fault numericParams hfit).1 _).mpr ?_⟩
  simp [numericParams, Json.check, Json.kindOf, NodeKind.ofName?, NodeKind.all, NodeKind.name,
    NodeKind.fields, Role.checkField, Json.checkToken, Json.checkParams, List.lookup_cons,
    List.forM_eq_forM, List.forM_cons, bind, Except.bind]

/-- A constant too large for a double stops reading although every node holding it is well
formed: objects naming kinds, with their required keys present. The failure is an overflow, none
of a scalar in a node place, an unknown kind, a missing key or a token that is no object. -/
theorem oversized_constant_stops_reading :
    Tree.ofJson (.arr [.obj [("type", .str "ExprStmt"), ("expr",
        .obj [("type", .str "Literal"), ("value", .int (Nat.pow 10 400))])]]) = .error .tooLarge ∧
      Uncaught.ofDecode .tooLarge = ⟨"OverflowError", "int too large to convert to float"⟩ := by
  let literal : List (String × Json) := [("type", .str "Literal"), ("value", .int (Nat.pow 10 400))]
  let stmt : List (String × Json) := [("type", .str "ExprStmt"), ("expr", .obj literal)]
  have hbig : (Nat.pow 10 400 : Int).natAbs ≥ Nat.pow 2 1024 - Nat.pow 2 970 := by decide +kernel
  have hstmt : stmt.lookup "type" = some (.str "ExprStmt") := rfl
  have hexpr : stmt.lookup "expr" = some (.obj literal) := rfl
  have hkind : literal.lookup "type" = some (.str "Literal") := rfl
  have hvalue : literal.lookup "value" = some (.int (Nat.pow 10 400)) := rfl
  refine ⟨?_, rfl⟩
  show Tree.ofJsonWith 5 (.arr [.obj stmt]) = _
  simp only [Tree.ofJsonWith, List.mapM_cons, hstmt, hexpr, hkind, Tree.required, hvalue,
    Option.elim, Tree.constantOfJson, bind, Except.bind, if_pos hbig, Functor.map, Except.map]

end Lox
