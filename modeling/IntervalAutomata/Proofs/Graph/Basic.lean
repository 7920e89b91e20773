import IntervalAutomata.Operation
import IntervalAutomata.Proofs.Thompson.Block
import Mathlib.Data.Finset.Card
import Mathlib.Data.Finset.Image
import Mathlib.Logic.Relation

/-!
Automata as plain sets of states and of transitions, and what each edit of such sets does and
answers. Nothing here knows of slots, searches or orders.
-/

namespace IntervalAutomata

universe u

structure Graph (α : Type u) where
  states : Finset State
  initial : Option State
  accepting : Finset State
  transitions : Finset (Transition α)

namespace Graph

variable {α : Type u}

instance : EmptyCollection (Graph α) where
  emptyCollection := ⟨∅, none, ∅, ∅⟩

@[simp] theorem states_empty : (∅ : Graph α).states = ∅ := rfl

@[simp] theorem accepting_empty : (∅ : Graph α).accepting = ∅ := rfl

@[simp] theorem transitions_empty : (∅ : Graph α).transitions = ∅ := rfl

def without (g : Graph α) (doomed : Finset State) : Graph α where
  states := g.states \ doomed
  initial := g.initial.filter (· ∉ doomed)
  accepting := g.accepting \ doomed
  transitions := g.transitions.filter fun t => t.source ∉ doomed ∧ t.target ∉ doomed

theorem without_empty (g : Graph α) : g.without ∅ = g := by
  obtain ⟨states, initial, accepting, transitions⟩ := g
  cases initial <;> simp [without]

def Leads (g : Graph α) : State → State → Prop :=
  Relation.ReflTransGen fun p q => ∃ label, ⟨p, label, q⟩ ∈ g.transitions

def block (base size : Nat) : Finset State :=
  (Finset.range size).image fun offset => ⟨base + offset⟩

theorem mem_block (base size : Nat) (q : State) : q ∈ block base size ↔ q.InBlock base size := by
  simp only [block, Finset.mem_image, Finset.mem_range]
  constructor
  · intro h
    obtain ⟨offset, less, rfl⟩ := h
    exact ⟨Nat.le_add_right base offset, Nat.add_lt_add_left less base⟩
  · intro inside
    obtain ⟨low, high⟩ := inside
    exact ⟨q.index - base, by omega, State.ext (Nat.add_sub_cancel' low)⟩

variable [Ord α] [Alphabet α] [DecidableEq α]

/-- What an operation makes of a graph, and what it answers: an edit, whether it changed the set
    that it edits. A new state is numbered above all that are there. -/
inductive Step (g : Graph α) : Operation α → Reply α → Graph α → Prop where
  | newState (q : State) (above : ∀ p ∈ g.states, p.index < q.index) :
    Step g .newState (.state q) { g with states := insert q g.states }
  | setInitial (q : State) :
    Step g (.setInitial q) .done { g with states := insert q g.states, initial := some q }
  | addAccepting (q : State) (changed : Bool) (answer : changed = true ↔ q ∉ g.accepting) :
    Step g (.addAccepting q) (.changed changed)
      { g with states := insert q g.states, accepting := insert q g.accepting }
  | removeAccepting (q : State) (changed : Bool) (answer : changed = true ↔ q ∈ g.accepting) :
    Step g (.removeAccepting q) (.changed changed) { g with accepting := g.accepting.erase q }
  | addTransition (t : Transition α) (changed : Bool)
    (answer : changed = true ↔ t ∉ g.transitions) :
    Step g (.addTransition t) (.changed changed)
      { g with
        states := insert t.source (insert t.target g.states)
        transitions := insert t g.transitions }
  | removeTransition (t : Transition α) (changed : Bool)
    (answer : changed = true ↔ t ∈ g.transitions) :
    Step g (.removeTransition t) (.changed changed)
      { g with transitions := g.transitions.erase t }
  | removeStates (doomed : List State) :
    Step g (.removeStates doomed) .done (g.without doomed.toFinset)
  | pruneFrom (seed : State) (doomed : Finset State) (changed : Bool)
    (unreachable : ∀ q, q ∈ doomed ↔ q ∈ g.states ∧ ¬(seed ∈ g.states ∧ g.Leads seed q))
    (answer : changed = true ↔ doomed.Nonempty) :
    Step g (.pruneFrom seed) (.changed changed) (g.without doomed)
  | prune (seed : State) (reply : Reply α) (next : Graph α) (marked : g.initial = some seed)
    (pruned : Step g (.pruneFrom seed) reply next) : Step g .prune reply next
  | pruneUnmarked (unmarked : g.initial = none) : Step g .prune (.changed false) g
  | construct (compiler : Compiler) (regex : Regex α) (count base : Nat) (f : Fragment α)
    (allowed : compiler.allowance regex = .ok count)
    (above : ∀ p ∈ g.states, p.index < base) (built : f = Fragment.ofCore base regex.desugar) :
    Step g (.construct compiler regex) (.fragment f.start f.stop)
      { g with
        states := g.states ∪ block base f.size
        transitions := g.transitions ∪ f.transitions.toFinset }
  | refuse (compiler : Compiler) (regex : Regex α) (error : Error α)
    (refused : compiler.allowance regex = .error error) :
    Step g (.construct compiler regex) (.refused error) g

end Graph

end IntervalAutomata
