import IntervalAutomata.Event
import IntervalAutomata.Nfa.Reachability
import IntervalAutomata.Thompson.Compiler

namespace IntervalAutomata

universe u

inductive Operation (α : Type u) where
  | newState
  | setInitial (state : State)
  | addAccepting (state : State)
  | removeAccepting (state : State)
  | addTransition (transition : Transition α)
  | removeTransition (transition : Transition α)
  | removeStates (doomed : List State)
  | pruneFrom (seed : State)
  | prune
  | construct (compiler : Compiler) (regex : Regex α)

inductive Reply (α : Type u) where
  | done
  | state (state : State)
  | changed (anything : Bool)
  | fragment (start stop : State)
  | refused (error : Error α)

namespace Operation

variable {α : Type u} [Ord α] [Alphabet α] [DecidableEq α]

def changing : Nfa α × Bool → Nfa α × Reply α
  | (nfa, anything) => (nfa, .changed anything)

def apply (nfa : Nfa α) : Operation α → Nfa α × Reply α
  | newState =>
    let (nfa, q) := nfa.newState
    (nfa, .state q)
  | setInitial q => (nfa.setInitial q, .done)
  | addAccepting q => changing (nfa.addAccepting q)
  | removeAccepting q => changing (nfa.removeAccepting q)
  | addTransition t => changing (nfa.addTransition t)
  | removeTransition t => changing (nfa.removeTransition t)
  | removeStates doomed => (nfa.removeStates (.ofList doomed), .done)
  | pruneFrom seed => changing (nfa.pruneFrom seed)
  | prune => changing nfa.prune
  | construct compiler regex =>
    match compiler.extend regex nfa with
    | (nfa, .ok (start, stop)) => (nfa, .fragment start stop)
    | (nfa, .error e) => (nfa, .refused e)

def applyAll (nfa : Nfa α) (operations : List (Operation α)) : Nfa α :=
  operations.foldl (fun nfa operation => (operation.apply nfa).1) nfa

def pruneEvents (nfa : Nfa α) (seed : State) : List (Event α) :=
  let doomed := nfa.unreachableFrom seed
  if doomed.isEmpty then [] else [.removingUnreachable doomed.length seed]

def constructEvents (nfa : Nfa α) (compiler : Compiler) (regex : Regex α) : List (Event α) :=
  match compiler.allowance regex with
  | .ok count =>
    let f := Fragment.ofCore nfa.slots.size regex.desugar
    f.transitions.map .addingTransition ++ [.constructed count f.start f.stop]
  | .error _ => []

def events (nfa : Nfa α) : Operation α → List (Event α)
  | addTransition t => [.addingTransition t]
  | removeTransition t => if (nfa.removeTransition t).2 then [.removedTransition t] else []
  | pruneFrom seed => pruneEvents nfa seed
  | prune => nfa.initial.toList.flatMap (pruneEvents nfa)
  | construct compiler regex => constructEvents nfa compiler regex
  | newState | setInitial _ | addAccepting _ | removeAccepting _ | removeStates _ => []

end Operation

end IntervalAutomata
