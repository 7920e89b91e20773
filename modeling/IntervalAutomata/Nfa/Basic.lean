import IntervalAutomata.Nfa.Edges

/-!
Nondeterministic automata with interval and epsilon transitions, as editable graphs. The index of a
state is its slot, an index is never given out twice, and naming a state that the automaton does not
hold adds it. Edits fail never; they tell whether they changed anything.
-/

namespace IntervalAutomata

universe u

structure Transition (α : Type u) where
  source : State
  label : Label α
  target : State
deriving DecidableEq

def Transition.render {α : Type u} [Written α] (t : Transition α) : String :=
  let arrow := if t.label.isEpsilon then "~~" ++ t.label.render ++ "~~>"
    else "--" ++ t.label.render ++ "-->"
  t.source.render ++ " " ++ arrow ++ " " ++ t.target.render

structure Nfa (α : Type u) where
  /-- The edges of each state; an empty slot is no state. -/
  slots : Array (Option (Edges α)) := #[]
  /-- The number of states. -/
  live : Nat := 0
  initial : Option State := none
  accepting : StateSet := ∅

namespace Nfa

variable {α : Type u}

instance : EmptyCollection (Nfa α) where
  emptyCollection := {}

def edges? (nfa : Nfa α) (q : State) : Option (Edges α) :=
  nfa.slots[q.index]?.join

def edges (nfa : Nfa α) (q : State) : Edges α :=
  (nfa.edges? q).getD {}

def contains (nfa : Nfa α) (q : State) : Bool :=
  (nfa.edges? q).isSome

def states (nfa : Nfa α) : List State :=
  ((List.range nfa.slots.size).map State.mk).filter nfa.contains

def size (nfa : Nfa α) : Nat := nfa.live

def isEmpty (nfa : Nfa α) : Bool := nfa.live == 0

def acceptingStates (nfa : Nfa α) : List State := nfa.accepting.toList

def isAccepting (nfa : Nfa α) (q : State) : Bool := nfa.accepting.contains q

def symbolEdges (nfa : Nfa α) (q : State) : Array (SymbolEdge α) := (nfa.edges q).symbols

def epsilonTargets (nfa : Nfa α) (q : State) : List State := (nfa.edges q).epsilons

def transitionsFrom (nfa : Nfa α) (q : State) : List (Transition α) :=
  (nfa.edges q).toList.map fun (label, target) => ⟨q, label, target⟩

def transitions (nfa : Nfa α) : List (Transition α) :=
  nfa.states.flatMap nfa.transitionsFrom

def newState (nfa : Nfa α) : Nfa α × State :=
  ({ nfa with slots := nfa.slots.push (some {}), live := nfa.live + 1 }, ⟨nfa.slots.size⟩)

def setEdges (nfa : Nfa α) (q : State) (edges : Edges α) : Nfa α :=
  { nfa with slots := nfa.slots.setIfInBounds q.index (some edges) }

/-- Adds a state without edges unless the automaton holds it. Slots that are missing below it stay
    empty. -/
def ensure (nfa : Nfa α) (q : State) : Nfa α :=
  if nfa.contains q then nfa
  else
    let missing := q.index + 1 - nfa.slots.size
    { nfa with
      slots := (nfa.slots ++ Array.replicate missing none).setIfInBounds q.index (some {})
      live := nfa.live + 1 }

def setInitial (nfa : Nfa α) (q : State) : Nfa α :=
  { nfa.ensure q with initial := some q }

def addAccepting (nfa : Nfa α) (q : State) : Nfa α × Bool :=
  let nfa := nfa.ensure q
  ({ nfa with accepting := nfa.accepting.insert q }, !nfa.accepting.contains q)

def removeAccepting (nfa : Nfa α) (q : State) : Nfa α × Bool :=
  ({ nfa with accepting := nfa.accepting.erase q }, nfa.accepting.contains q)

def removeStates (nfa : Nfa α) (doomed : StateSet) : Nfa α where
  slots := nfa.slots.mapIdx fun index slot =>
    if ⟨index⟩ ∈ doomed then none else slot.map (·.dropTargets doomed)
  live := nfa.live - (doomed.toList.filter nfa.contains).length
  initial := nfa.initial.filter (· ∉ doomed)
  accepting := nfa.accepting.filter (· ∉ doomed)

variable [Ord α] [DecidableEq α]

/-- Adds a transition, and either end if the automaton does not hold it. -/
def addTransition (nfa : Nfa α) (t : Transition α) : Nfa α × Bool :=
  let nfa := (nfa.ensure t.target).ensure t.source
  match (nfa.edges t.source).insert? t.label t.target with
  | some edges => (nfa.setEdges t.source edges, true)
  | none => (nfa, false)

def removeTransition (nfa : Nfa α) (t : Transition α) : Nfa α × Bool :=
  match (nfa.edges t.source).erase? t.label t.target with
  | some edges => (nfa.setEdges t.source edges, true)
  | none => (nfa, false)

end Nfa

end IntervalAutomata
