import IntervalAutomata.Nfa.Basic
import IntervalAutomata.Nfa.Traversal

namespace IntervalAutomata.Nfa

universe u

variable {α : Type u}

theorem edges_eq_of_size_le {nfa : Nfa α} {q : State} (beyond : nfa.slots.size ≤ q.index) :
    nfa.edges q = {} := by
  simp [edges, edges?, Array.getElem?_eq_none beyond]

def successors (nfa : Nfa α) (q : State) : List State :=
  (nfa.transitionsFrom q).map (·.target)

theorem successors_eq_nil_of_size_le (nfa : Nfa α) (q : State)
    (beyond : nfa.slots.size ≤ q.index) : nfa.successors q = [] := by
  simp [successors, transitionsFrom, edges_eq_of_size_le beyond, Edges.toList]

/-- The states that a state leads to, itself included, in breadth-first order. A state that the
    automaton does not hold leads nowhere. -/
def reachableFrom (nfa : Nfa α) (q : State) : List State :=
  if nfa.contains q then
    Traversal.layers nfa.successors nfa.slots.size nfa.successors_eq_nil_of_size_le ∅ [q]
  else []

def unreachableFrom (nfa : Nfa α) (q : State) : List State :=
  let reachable : StateSet := .ofList (nfa.reachableFrom q)
  nfa.states.filter (· ∉ reachable)

def pruneFrom (nfa : Nfa α) (q : State) : Nfa α × Bool :=
  let doomed := nfa.unreachableFrom q
  if doomed.isEmpty then (nfa, false) else (nfa.removeStates (.ofList doomed), true)

def prune (nfa : Nfa α) : Nfa α × Bool :=
  match nfa.initial with
  | some q => nfa.pruneFrom q
  | none => (nfa, false)

end IntervalAutomata.Nfa
