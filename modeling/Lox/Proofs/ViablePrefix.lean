import Lox.Grammar.Run
import Lox.Proofs.Automaton
import Mathlib.Data.List.Forall2
import Mathlib.Data.List.Induction

/-!
# What the parser's stack reads

A run of a table over a word keeps its stack a path of the automaton from the start state:
each state on it is where its symbol leads from the state below, and each value has its
symbol's type (`Table.Reads`). The items of the state on top have read what the stack read last
(`Table.Reads.closure`), so a reduction by a complete item pops exactly the values of its
production's right side, each of the type of its symbol (`Table.Reads.pop`). Given reductions
that build a value of the left side's type from values of the right side's types, every value a
run accepts has the type of some nonterminal (`Table.feedWord_reads`, `Table.feed_reads`).
-/

namespace Lox

namespace Table

open Grammar Automaton

variable {α ε : Type}

/-- The state on top of a stack; the start state when it is empty. -/
def stackTop (st : List (Nat × α)) : Nat := (st.head?.map (·.1)).getD 0

/-- `Reads a V stack xs`: the stack, innermost first, has read the symbols `xs`, outermost
first, from the start state: each state on it is where its symbol leads from the state below,
and each value has its symbol's type `V`. -/
inductive Reads (a : Automaton) (V : Symbol → α → Prop) : List (Nat × α) → List Symbol → Prop
  | nil : Reads a V [] []
  | push {st : List (Nat × α)} {xs : List Symbol} {x : Symbol} {s : Nat} {v : α} :
      Reads a V st xs → a.target? (stackTop st) x = some s → V x v →
        Reads a V ((s, v) :: st) (xs ++ [x])

variable {g : Grammar} {byLhs : Array (List Nat)} {a : Automaton} {V : Symbol → α → Prop}

/-- The items of the state on top of a stack have read what the stack read last: the part of an
item's right side before its dot ends the symbols read. This is what makes the stack a viable
prefix. -/
theorem Reads.closure (hc : Coherent g byLhs a)
    (h0 : a.kernels[0]? = some [⟨g.productions.size - 1, 0⟩]) :
    ∀ {st : List (Nat × α)} {xs : List Symbol}, Reads a V st xs →
      ∀ k, a.kernels[stackTop st]? = some k → ∀ i ∈ g.closure byLhs k,
        i.dot ≤ (g.rhs i.production).length ∧ ∃ ys, xs = ys ++ (g.rhs i.production).take i.dot
  | _, _, .nil, k, hk, i, hi => by
    rcases mem_closure hi with hi | hi
    · rw [stackTop, List.head?_nil, Option.map_none, Option.getD_none, h0] at hk
      rw [← Option.some.inj hk, List.mem_singleton] at hi
      subst hi
      exact ⟨Nat.zero_le _, [], rfl⟩
    · rw [hi]
      exact ⟨Nat.zero_le _, [], rfl⟩
  | _, _, @Reads.push _ _ _ _ xs x _ _ hst ht _, k', hk', i, hi => by
    rcases mem_closure hi with hi | hi
    · -- a kernel item of the new state moved its dot over the symbol just read
      obtain ⟨k, hk, hj⟩ := hc.target? ht
      rw [stackTop, List.head?_cons, Option.map_some, Option.getD_some, hj] at hk'
      rw [← Option.some.inj hk', mem_gotoKernel] at hi
      obtain ⟨j, hjmem, hnext, rfl⟩ := hi
      obtain ⟨-, ys, hys⟩ := Reads.closure hc h0 hst k hk j hjmem
      have hlt : j.dot < (g.rhs j.production).length := by
        unfold next? at hnext
        exact (List.getElem?_eq_some_iff.mp hnext).1
      refine ⟨hlt, ys, ?_⟩
      dsimp only
      rw [List.take_add_one, hys, List.append_assoc]
      unfold next? at hnext
      rw [hnext]
      rfl
    · rw [hi]
      exact ⟨Nat.zero_le _, xs ++ [x], by simp⟩

/-- The top `zs.length` entries of a stack that read `ys ++ zs` hold values of the types of
`zs`, outermost first, and the stack below them read `ys`. -/
theorem Reads.pop {ys : List Symbol} (zs : List Symbol) :
    ∀ {st : List (Nat × α)}, Reads a V st (ys ++ zs) →
      Reads a V (st.drop zs.length) ys ∧
        List.Forall₂ V zs ((st.take zs.length).reverse.map (·.2)) := by
  induction zs using List.reverseRecOn with
  | nil =>
    intro st h
    simpa using h
  | append_singleton zs z ih =>
    intro st h
    generalize hxs : ys ++ (zs ++ [z]) = xs at h
    cases h with
    | nil => simp at hxs
    | @push st' xs' x s v hst _ hv =>
      -- the entry on top is the one that read `z`
      obtain ⟨hinit, hlast⟩ := List.append_inj' (hxs.symm.trans (List.append_assoc ..).symm) rfl
      obtain rfl := (List.singleton_inj.mp hlast).symm
      rw [hinit] at hst
      obtain ⟨hdrop, hvals⟩ := ih hst
      refine ⟨by simpa using hdrop, ?_⟩
      simp only [List.length_append, List.length_singleton, List.take_succ_cons,
        List.reverse_cons, List.map_append, List.map_singleton]
      exact List.rel_append hvals (List.Forall₂.cons hv List.Forall₂.nil)

/-- A configuration whose stack reads some symbols, as `Reads` says. -/
def Config.Reads (a : Automaton) (V : Symbol → α → Prop) (c : Config α ε) : Prop :=
  ∃ xs, Table.Reads a V c.stack xs

/-- What feeding a terminal leaves: a stack that reads some symbols, or an accepted value of the
type of some nonterminal. -/
def Fed.Reads (a : Automaton) (V : Symbol → α → Prop) : Fed α ε → Prop
  | .shifted c => c.Reads a V
  | .accepted w _ => ∃ n, V (.nonterminal n) w
  | .rejected _ => True

/-- What feeding a word leaves: a stack that reads some symbols. -/
def Reading.Reads (a : Automaton) (V : Symbol → α → Prop) : Reading α ε → Prop
  | .consumed c => c.Reads a V
  | .stopped _ _ => True

section Run

variable {g0 : Grammar} {build : Nat → List α → α × List ε}
  (hbuild : ∀ p args, List.Forall₂ V (g0.rhs p) args →
    V (.nonterminal (g0.production p).lhs) (build p args).1)
include hbuild

/-- Feeding a terminal with a value of its type keeps the stack reading symbols: a shift
follows a transition, and a reduction pops exactly the values of its right side, by
`Reads.closure` and `Reads.pop`, and pushes the value built from them. -/
theorem feedWith_reads (t : Nat) {v : α} (hv : V (.terminal t) v) (atEnd : Bool) :
    ∀ (fuel : Nat) (c : Config α ε), c.Reads (Automaton.ofAugmented g0.augmented) V →
      ((ofGrammar g0).feedWith build t v atEnd fuel c).Reads
        (Automaton.ofAugmented g0.augmented) V := by
  obtain ⟨hcoh, h0⟩ := Automaton.ofAugmented_coherent g0.augmented
  intro fuel
  induction fuel with
  | zero => intro c _; trivial
  | succ fuel ih =>
    intro c ⟨xs, hc⟩
    rw [feedWith]
    split
    · trivial
    · next s' hact =>
      rcases action?_spec hact with ⟨s'', heq, ht⟩ | ⟨_, _, _, _, hne⟩
      · cases heq
        exact ⟨_, hc.push ht hv⟩
      · cases hne
    · next p hact =>
      rcases action?_spec hact with ⟨_, hne, _⟩ | ⟨i, hi, hcomplete, hroot, heq⟩
      · cases hne
      cases heq
      -- the complete item's right side is what the top of the stack read last
      have hsome : ((Automaton.ofAugmented g0.augmented).closures[c.top]?).isSome := by
        cases h : (Automaton.ofAugmented g0.augmented).closures[c.top]? with
        | none => rw [h] at hi; simp at hi
        | some _ => rfl
      obtain ⟨items, hitems⟩ := Option.isSome_iff_exists.mp hsome
      have htop : c.top < (Automaton.ofAugmented g0.augmented).kernels.size := by
        rw [← hcoh.closures_size]
        exact (Array.getElem?_eq_some_iff.mp hitems).1
      obtain ⟨k, hk⟩ : ∃ k, (Automaton.ofAugmented g0.augmented).kernels[c.top]? = some k :=
        ⟨_, Array.getElem?_eq_getElem htop⟩
      rw [hitems, Option.getD_some, (Option.some.inj (hitems.symm.trans (hcoh.closure _ k hk)))]
        at hi
      obtain ⟨hdot, ys, hys⟩ := hc.closure hcoh h0 k hk i hi
      have hlen : i.dot = (g0.augmented.rhs i.production).length :=
        Nat.le_antisymm hdot (complete_iff.mp hcomplete)
      rw [hlen, List.take_length, augmented_rhs _ hroot] at hys
      rw [hys] at hc
      obtain ⟨hrest, hvals⟩ := hc.pop (g0.rhs i.production)
      have hw := hbuild _ _ hvals
      rw [shapes_getD]
      dsimp only
      split
      · trivial
      · next s'' hgoto =>
        split
        · exact ⟨_, hw⟩
        · exact ih _ ⟨_, hrest.push (goto?_spec hgoto) hw⟩

theorem feed_reads (t : Nat) {v : α} (hv : V (.terminal t) v) (atEnd : Bool) {c : Config α ε}
    (hc : c.Reads (Automaton.ofAugmented g0.augmented) V) :
    ((ofGrammar g0).feed build t v atEnd c).Reads (Automaton.ofAugmented g0.augmented) V :=
  feedWith_reads hbuild t hv atEnd _ c hc

/-- Feeding a word of values of their terminals' types keeps the stack reading symbols. -/
theorem feedWord_reads (word : List (Nat × α)) (hword : ∀ x ∈ word, V (.terminal x.1) x.2) :
    ∀ (i : Nat) (c : Config α ε), c.Reads (Automaton.ofAugmented g0.augmented) V →
      ((ofGrammar g0).feedWord build i word c).Reads (Automaton.ofAugmented g0.augmented) V := by
  induction word with
  | nil => intro i c hc; exact hc
  | cons x rest ih =>
    intro i c hc
    obtain ⟨t, v⟩ := x
    have hfed := feed_reads hbuild t (hword (t, v) List.mem_cons_self) false hc
    rw [feedWord]
    split
    · next c' hshift =>
      rw [hshift] at hfed
      exact ih (fun x hx => hword x (List.mem_cons_of_mem _ hx)) (i + 1) c' hfed
    · trivial
    · trivial

end Run

end Table

end Lox
