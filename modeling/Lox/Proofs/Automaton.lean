import Lox.Grammar.Table

/-!
# What the states of the automaton mean

`Automaton.ofAugmented` finds its states breadth first, keyed by kernel in a hash map, and stops
after a bound. What a parser needs of the result is what each state found means, not that every
state was found: each closure is the closure of its state's kernel, and each transition on a
symbol leads to a state whose kernel is the goto of the source's closure on that symbol
(`Automaton.Coherent`, `Automaton.ofAugmented_coherent`). The start state's kernel is the root
item. A closure item is a kernel item or has its dot at the start (`Grammar.mem_closure`), and a
goto item is a closure item with its dot moved over the symbol (`Grammar.mem_gotoKernel`).

The parse table is read back in the same terms: a shift follows a transition on the terminal, a
reduction is by a complete item of the state's closure other than the root item
(`Table.action?_spec`), and a goto follows a transition on the nonterminal
(`Table.goto?_spec`). Nothing here depends on the lookaheads, which only choose among the
complete items.
-/

namespace Lox

theorem foldl_invariant {β γ : Type} {f : β → γ → β} {I : β → Prop} :
    ∀ (l : List γ) (b : β), I b → (∀ b, ∀ x ∈ l, I b → I (f b x)) → I (l.foldl f b)
  | [], _, hb, _ => hb
  | x :: rest, b, hb, hs =>
    foldl_invariant rest (f b x) (hs b x List.mem_cons_self hb)
      fun b' x' hx' => hs b' x' (List.mem_cons_of_mem _ hx')

namespace Grammar

instance : LawfulBEq Symbol where
  eq_of_beq {a b} h := by
    cases a <;> cases b <;> simp_all [BEq.beq, instBEqSymbol.beq]
  rfl {a} := by cases a <;> simp [BEq.beq, instBEqSymbol.beq]

instance : LawfulBEq Item where
  eq_of_beq {a b} h := by
    cases a
    cases b
    simp_all [BEq.beq, instBEqItem.beq]
  rfl {a} := by
    cases a
    simp [BEq.beq, instBEqItem.beq]

variable {g : Grammar} {byLhs : Array (List Nat)}

theorem mem_closure {kernel : List Item} {i : Item} (h : i ∈ g.closure byLhs kernel) :
    i ∈ kernel ∨ i.dot = 0 := by
  unfold closure at h
  simp only [List.mem_toArray, List.mem_append, List.mem_filter, List.mem_flatMap,
    List.mem_map] at h
  rcases h with h | ⟨⟨_, _, _, _, rfl⟩, _⟩
  · exact .inl h
  · exact .inr rfl

/-- The goto of a closure on a symbol moves the dot over the symbol in the items that allow it. -/
theorem mem_gotoKernel {items : Array Item} {x : Symbol} {i : Item} :
    i ∈ g.gotoKernel items x ↔
      ∃ j ∈ items, g.next? j = some x ∧ i = ⟨j.production, j.dot + 1⟩ := by
  unfold gotoKernel
  rw [List.mem_mergeSort, List.mem_filterMap]
  constructor
  · rintro ⟨j, hj, hsome⟩
    split at hsome
    · next hx => exact ⟨j, Array.mem_toList_iff.mp hj, by simpa using hx, (Option.some.inj hsome).symm⟩
    · cases hsome
  · rintro ⟨j, hj, hx, rfl⟩
    exact ⟨j, Array.mem_toList_iff.mpr hj, by simp [hx]⟩

end Grammar

namespace Automaton

open Grammar

variable {g : Grammar} {byLhs : Array (List Nat)}

/-- What the states of an automaton mean: each closure is the closure of its state's kernel,
and each transition of a state on a symbol leads to a state whose kernel is the goto of that
state's closure on the symbol. -/
structure Coherent (g : Grammar) (byLhs : Array (List Nat)) (a : Automaton) : Prop where
  closure : ∀ (s : Nat) k, a.kernels[s]? = some k → a.closures[s]? = some (g.closure byLhs k)
  closures_size : a.closures.size = a.kernels.size
  edge : ∀ (s : Nat) x (j : Nat), (x, j) ∈ a.transitions[s]?.getD [] →
    ∃ k, a.kernels[s]? = some k ∧ a.kernels[j]? = some (g.gotoKernel (g.closure byLhs k) x)

/-- A later automaton keeps the states of an earlier one. -/
def Extends (a a' : Automaton) : Prop :=
  ∀ (s : Nat) k, a.kernels[s]? = some k → a'.kernels[s]? = some k

theorem Extends.refl (a : Automaton) : Extends a a := fun _ _ h => h

theorem Extends.trans {a₁ a₂ a₃ : Automaton} (h₁ : Extends a₁ a₂) (h₂ : Extends a₂ a₃) :
    Extends a₁ a₃ :=
  fun s k h => h₂ s k (h₁ s k h)

theorem kernels_addState (a : Automaton) (kernel : List Item) :
    (addState g byLhs a kernel).kernels = a.kernels.push kernel := rfl

theorem extends_addState (a : Automaton) (kernel : List Item) :
    Extends a (addState g byLhs a kernel) := by
  intro s k h
  rw [kernels_addState, Array.getElem?_push, if_neg]
  · exact h
  · intro hs
    subst hs
    simp at h

theorem Coherent.addState {a : Automaton} (h : Coherent g byLhs a) (kernel : List Item) :
    Coherent g byLhs (Automaton.addState g byLhs a kernel) := by
  refine ⟨fun s k hk => ?_, by simp [Automaton.addState, h.closures_size], fun s x j hx => ?_⟩
  · simp only [Automaton.addState, Array.getElem?_push] at hk ⊢
    rw [h.closures_size]
    split
    · next hs =>
      rw [if_pos hs] at hk
      rw [Option.some.inj hk]
    · next hs =>
      rw [if_neg hs] at hk
      exact h.closure s k hk
  · simp only [Automaton.addState, Array.getElem?_push] at hx
    split at hx
    · simp at hx
    · obtain ⟨k, hk, hj⟩ := h.edge s x j hx
      exact ⟨k, extends_addState a kernel s k hk, extends_addState a kernel j _ hj⟩

/-- The hash map from kernels to state numbers points at states with those kernels. -/
def Indexed (index : Std.HashMap (List Item) Nat) (a : Automaton) : Prop :=
  ∀ k (j : Nat), index.get? k = some j → a.kernels[j]? = some k

/-- What exploring one state keeps while it adds the targets of its transitions: the automaton
stays coherent and indexed and keeps its states, and every edge found so far leads to the goto
of the explored closure. -/
def Exploring (g : Grammar) (byLhs : Array (List Nat)) (a₀ : Automaton) (items : Array Item)
    (acc : Automaton × Std.HashMap (List Item) Nat × List (Symbol × Nat)) : Prop :=
  Coherent g byLhs acc.1 ∧ Indexed acc.2.1 acc.1 ∧ Extends a₀ acc.1 ∧
    ∀ y ∈ acc.2.2, acc.1.kernels[y.2]? = some (g.gotoKernel items y.1)

theorem Indexed.insert {a : Automaton} {index : Std.HashMap (List Item) Nat} (h : Indexed index a)
    (kernel : List Item) :
    Indexed (index.insert kernel a.kernels.size) (Automaton.addState g byLhs a kernel) := by
  intro k j hj
  rw [Std.HashMap.get?_eq_getElem?, Std.HashMap.getElem?_insert] at hj
  split at hj
  · next hk =>
    rw [← Option.some.inj hj, kernels_addState, Array.getElem?_push_size, eq_of_beq hk]
  · exact extends_addState a kernel j k (h k j (by rw [Std.HashMap.get?_eq_getElem?]; exact hj))

/-- Exploring states keeps an automaton coherent, whatever bound the exploration has. -/
theorem explore_coherent :
    ∀ (fuel i : Nat) (a : Automaton) (index : Std.HashMap (List Item) Nat),
      Coherent g byLhs a → Indexed index a →
        Coherent g byLhs (explore g byLhs fuel i a index) ∧ Extends a (explore g byLhs fuel i a index)
  | 0, _, a, _, h, _ => by
    rw [explore]
    exact ⟨h, Extends.refl a⟩
  | fuel + 1, i, a, index, h, hidx => by
    rw [explore]
    split
    · exact ⟨h, Extends.refl a⟩
    · next items hitems =>
      -- the explored state has a kernel, and `items` is its closure
      have hi : i < a.kernels.size := by
        rw [← h.closures_size]
        exact (Array.getElem?_eq_some_iff.mp hitems).1
      obtain ⟨k, hk⟩ : ∃ k, a.kernels[i]? = some k := ⟨_, Array.getElem?_eq_getElem hi⟩
      have hclosure : items = g.closure byLhs k := by
        rw [h.closure i k hk] at hitems
        exact (Option.some.inj hitems).symm
      dsimp only
      generalize hfold : List.foldl _ (a, index, []) (g.symbolsAfterDot items) = res
      have hinv : Exploring g byLhs a items res := by
        rw [← hfold]
        refine foldl_invariant _ _ ⟨h, hidx, Extends.refl a, nofun⟩ ?_
        rintro ⟨a₁, index₁, edges₁⟩ x - ⟨hc₁, hidx₁, hext₁, hedges₁⟩
        dsimp only
        split
        · next j hj =>
          refine ⟨hc₁, hidx₁, hext₁, fun y hy => ?_⟩
          rcases List.mem_append.mp hy with hy | hy
          · exact hedges₁ y hy
          · rw [List.mem_singleton.mp hy]
            exact hidx₁ _ j hj
        · refine ⟨hc₁.addState _, hidx₁.insert _, hext₁.trans (extends_addState a₁ _),
            fun y hy => ?_⟩
          rcases List.mem_append.mp hy with hy | hy
          · exact extends_addState a₁ _ _ _ (hedges₁ y hy)
          · rw [List.mem_singleton.mp hy, kernels_addState, Array.getElem?_push_size]
      obtain ⟨a', index', edges'⟩ := res
      obtain ⟨hc', hidx', hext', hedges'⟩ := hinv
      dsimp only
      -- the edges found become the explored state's transitions
      have hset : Coherent g byLhs { a' with transitions := a'.transitions.set! i edges' } := by
        refine ⟨hc'.closure, hc'.closures_size, fun s x j hx => ?_⟩
        simp only [Array.set!_eq_setIfInBounds, Array.getElem?_setIfInBounds] at hx
        split at hx
        · next hs =>
          subst hs
          split at hx
          · refine ⟨k, hext' i k hk, ?_⟩
            rw [← hclosure]
            exact hedges' (x, j) hx
          · simp at hx
        · exact hc'.edge s x j hx
      obtain ⟨hcoh, hext⟩ := explore_coherent fuel (i + 1) _ index' hset hidx'
      exact ⟨hcoh, hext'.trans hext⟩

/-- The automaton of an augmented grammar is coherent, and its start state's kernel is the root
item. -/
theorem ofAugmented_coherent (g : Grammar) :
    Coherent g g.productionsOf (ofAugmented g) ∧
      (ofAugmented g).kernels[0]? = some [⟨g.productions.size - 1, 0⟩] := by
  unfold ofAugmented
  dsimp only
  have hempty : Coherent g g.productionsOf ⟨#[], #[], #[]⟩ :=
    ⟨fun _ _ h => by simp at h, rfl, fun _ _ _ h => by simp at h⟩
  have hnone : Indexed (∅ : Std.HashMap (List Item) Nat) ⟨#[], #[], #[]⟩ := by
    intro k j h
    simp at h
  have hidx : Indexed (((∅ : Std.HashMap (List Item) Nat)).insert [⟨g.productions.size - 1, 0⟩] 0)
      (addState g g.productionsOf ⟨#[], #[], #[]⟩ [⟨g.productions.size - 1, 0⟩]) :=
    hnone.insert _
  obtain ⟨hc, hext⟩ := explore_coherent _ 0 _ _ (hempty.addState _) hidx
  exact ⟨hc, hext 0 _ rfl⟩

theorem target?_edge {a : Automaton} {s : Nat} {x : Symbol} {j : Nat}
    (h : a.target? s x = some j) : (x, j) ∈ a.transitions[s]?.getD [] := by
  unfold target? at h
  obtain ⟨⟨y, j'⟩, hfind, hj⟩ := Option.map_eq_some_iff.mp h
  have hy : y = x := by simpa using List.find?_some hfind
  dsimp only at hj
  subst hy hj
  exact List.mem_of_find?_eq_some hfind

theorem Coherent.target? {a : Automaton} (h : Coherent g byLhs a) {s : Nat} {x : Symbol}
    {j : Nat} (ht : a.target? s x = some j) :
    ∃ k, a.kernels[s]? = some k ∧ a.kernels[j]? = some (g.gotoKernel (g.closure byLhs k) x) :=
  h.edge s x j (target?_edge ht)

end Automaton

namespace Grammar

theorem augmented_size (g : Grammar) : g.augmented.productions.size - 1 = g.productions.size := by
  simp [augmented]

theorem augmented_production (g : Grammar) {p : Nat} (hp : p ≠ g.productions.size) :
    g.augmented.production p = g.production p := by
  simp [augmented, production, Array.getElem?_push, hp]

theorem augmented_rhs (g : Grammar) {p : Nat} (hp : p ≠ g.productions.size) :
    g.augmented.rhs p = g.rhs p := by
  rw [rhs, rhs, augmented_production g hp]

theorem complete_iff {g : Grammar} {i : Item} :
    g.complete i = true ↔ (g.rhs i.production).length ≤ i.dot := by
  simp [complete]

end Grammar

namespace Table

open Grammar

variable {g0 : Grammar}

/-- An action of a state of the table: a shift follows the state's transition on the terminal,
and a reduction is by a complete item of the state's closure other than the root item. -/
theorem stateActions_spec {g : Grammar} {a : Automaton} {la : Lookaheads} {s t : Nat}
    {act : Action} (h : (stateActions g a la s)[t]? = some (some act)) :
    (∃ s', act = .shift s' ∧ a.target? s (.terminal t) = some s') ∨
      ∃ i ∈ a.closures[s]?.getD #[], g.complete i = true ∧
        i.production ≠ g.productions.size - 1 ∧ act = .reduce i.production := by
  unfold stateActions at h
  simp only [Array.getElem?_map, Array.getElem?_range] at h
  split at h
  · simp only [Option.map_some, Option.some.injEq] at h
    split at h
    · next s' hs' => exact .inl ⟨s', (Option.some.inj h).symm, hs'⟩
    · obtain ⟨k, -, hk⟩ := List.exists_of_findSome?_eq_some h
      split at hk
      · next item hitem =>
        split at hk
        · next hcond =>
          simp only [Bool.and_eq_true, bne_iff_ne, ne_eq] at hcond
          exact .inr ⟨item, Array.mem_of_getElem? hitem, hcond.1.1, hcond.1.2,
            (Option.some.inj hk).symm⟩
        · cases hk
      · cases hk
  · simp at h

/-- An action of a grammar's table: a shift follows a transition of the automaton on the
terminal, and a reduction is by a complete item of the state's closure other than the root
item. -/
theorem action?_spec {s t : Nat} {act : Action} (h : (ofGrammar g0).action? s t = some act) :
    (∃ s', act = .shift s' ∧ (Automaton.ofAugmented g0.augmented).target? s (.terminal t) = some s') ∨
      ∃ i ∈ (Automaton.ofAugmented g0.augmented).closures[s]?.getD #[],
        g0.augmented.complete i = true ∧ i.production ≠ g0.productions.size ∧
          act = .reduce i.production := by
  unfold action? ofGrammar at h
  simp only [Array.getElem?_map, Array.getElem?_range] at h
  split at h
  · simp only [Option.map_some, Option.bind_some] at h
    rw [Option.join_eq_some_iff] at h
    rw [← augmented_size]
    exact stateActions_spec h
  · simp at h

theorem goto?_spec {s n s' : Nat} (h : (ofGrammar g0).goto? s n = some s') :
    (Automaton.ofAugmented g0.augmented).target? s (.nonterminal n) = some s' := by
  unfold goto? ofGrammar at h
  simp only [Array.getElem?_map, Array.getElem?_range] at h
  split at h
  · simp only [Option.map_some, Option.bind_some, Array.getElem?_map, Array.getElem?_range] at h
    split at h
    · simpa using h
    · simp at h
  · simp at h

theorem shapes_getD (p : Nat) :
    (ofGrammar g0).shapes[p]?.getD (0, 0) = ((g0.production p).lhs, (g0.rhs p).length) := by
  simp only [ofGrammar, Array.getElem?_map, Grammar.rhs, Grammar.production]
  cases g0.productions[p]? <;> rfl

end Table

end Lox
