import IntervalAutomata.Nfa.Basic
import IntervalAutomata.Regex.Core

/-!
Fragments: automata of core expressions on consecutive new states. A fragment is entered at its
start and left at its stop; that of a compound expression wires those of its parts together.
-/

namespace IntervalAutomata

universe u

structure Fragment (α : Type u) where
  start : State
  stop : State
  size : Nat
  /-- The transitions, in the order in which they are added. -/
  transitions : List (Transition α)

namespace Fragment

variable {α : Type u}

def ofLabels (base : Nat) (labels : List (Label α)) : Fragment α where
  start := ⟨base⟩
  stop := ⟨base + 1⟩
  size := 2
  transitions := labels.map fun label => ⟨⟨base⟩, label, ⟨base + 1⟩⟩

def epsilon (source target : State) : Transition α :=
  ⟨source, .epsilon, target⟩

def ofCore [Ord α] (base : Nat) : Core α → Fragment α
  | .empty => ofLabels base [.epsilon]
  | .nothing => ofLabels base []
  | .literal a => ofLabels base [.symbol (.singleton a)]
  | .range a b => ofLabels base [.symbol (.closed a b)]
  | .seq first second =>
    let f := ofCore base first
    let g := ofCore (base + f.size) second
    { start := f.start
      stop := g.stop
      size := f.size + g.size
      transitions := f.transitions ++ g.transitions ++ [epsilon f.stop g.start] }
  | .alt first second =>
    let f := ofCore (base + 2) first
    let g := ofCore (base + 2 + f.size) second
    { start := ⟨base⟩
      stop := ⟨base + 1⟩
      size := 2 + f.size + g.size
      transitions := f.transitions ++ g.transitions ++
        [epsilon ⟨base⟩ f.start, epsilon ⟨base⟩ g.start,
          epsilon f.stop ⟨base + 1⟩, epsilon g.stop ⟨base + 1⟩] }
  | .star inner =>
    let f := ofCore (base + 2) inner
    { start := ⟨base⟩
      stop := ⟨base + 1⟩
      size := 2 + f.size
      transitions := f.transitions ++
        [epsilon ⟨base⟩ f.start, epsilon ⟨base⟩ ⟨base + 1⟩,
          epsilon f.stop f.start, epsilon f.stop ⟨base + 1⟩] }

end Fragment

def Nfa.newStates {α : Type u} (nfa : Nfa α) (count : Nat) : Nfa α :=
  { nfa with
    slots := nfa.slots ++ Array.replicate count (some {})
    live := nfa.live + count }

def Nfa.addFragment {α : Type u} [Ord α] [DecidableEq α] (nfa : Nfa α) (f : Fragment α) : Nfa α :=
  f.transitions.foldl (fun nfa t => (nfa.addTransition t).1) (nfa.newStates f.size)

end IntervalAutomata
