import IntervalAutomata.Nfa.Basic
import IntervalAutomata.Nfa.Traversal

namespace IntervalAutomata.Nfa

universe u

variable {α : Type u}

theorem epsilonTargets_eq_nil_of_size_le (nfa : Nfa α) (q : State)
    (beyond : nfa.slots.size ≤ q.index) : nfa.epsilonTargets q = [] := by
  simp [epsilonTargets, edges, edges?, Array.getElem?_eq_none beyond]

def epsilonClosure (nfa : Nfa α) (starts : List State) : StateSet :=
  .ofList (Traversal.layers nfa.epsilonTargets nfa.slots.size
    nfa.epsilonTargets_eq_nil_of_size_le ∅ starts)

variable [Ord α]

def targetsOn (nfa : Nfa α) (q : State) (a : α) : List State :=
  (nfa.edges q).targetsOn a

def step (nfa : Nfa α) (states : StateSet) (a : α) : StateSet :=
  nfa.epsilonClosure (states.toList.flatMap (nfa.targetsOn · a))

def run (nfa : Nfa α) (states : StateSet) (word : List α) : StateSet :=
  word.foldl nfa.step states

/-- Whether a word leads from a set of states to an accepting one. Where no states are left the rest
    of the word is not read. -/
def acceptsFrom (nfa : Nfa α) (states : StateSet) : List α → Bool
  | [] => states.toList.any nfa.isAccepting
  | a :: rest =>
    let next := nfa.step states a
    if next.isEmpty then false else nfa.acceptsFrom next rest

def accepts (nfa : Nfa α) (word : List α) : Bool :=
  match nfa.initial with
  | some q => nfa.acceptsFrom (nfa.epsilonClosure [q]) word
  | none => false

end IntervalAutomata.Nfa
