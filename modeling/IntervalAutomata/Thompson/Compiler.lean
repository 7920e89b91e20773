import IntervalAutomata.Regex.StateCount
import IntervalAutomata.Thompson.Fragment

namespace IntervalAutomata

universe u

structure Compiler where
  /-- The most states that one construction may add; without one, whatever fits in a size. -/
  stateLimit : Option Nat := none
deriving DecidableEq

structure Construction (α : Type u) where
  nfa : Nfa α
  start : State
  stop : State

namespace Compiler

variable {α : Type u} [Ord α] [Alphabet α] [DecidableEq α]

def limit (compiler : Compiler) : Nat :=
  compiler.stateLimit.getD Size.greatest

def allowance (compiler : Compiler) (regex : Regex α) : Except (Error α) Nat :=
  match regex.stateCount? with
  | some count =>
    if count ≤ compiler.limit then .ok count else .error (.stateLimitExceeded compiler.limit)
  | none => .error (.stateLimitExceeded compiler.limit)

/-- Adds the automaton of an expression to one that is there, with no link between the two and all
    marks as they were. Beside its start and stop, or beside an error, stands the automaton as it is
    by then. -/
def extend (compiler : Compiler) (regex : Regex α) (nfa : Nfa α) :
    Nfa α × Except (Error α) (State × State) :=
  match compiler.allowance regex with
  | .error e => (nfa, .error e)
  | .ok _ =>
    let f := Fragment.ofCore nfa.slots.size regex.desugar
    (nfa.addFragment f, .ok (f.start, f.stop))

theorem extend_of_allowed {compiler : Compiler} {regex : Regex α} {count : Nat}
    (allowed : compiler.allowance regex = .ok count) (nfa : Nfa α) :
    compiler.extend regex nfa = (nfa.addFragment (.ofCore nfa.slots.size regex.desugar),
      .ok ((Fragment.ofCore nfa.slots.size regex.desugar).start,
        (Fragment.ofCore nfa.slots.size regex.desugar).stop)) := by
  simp only [extend, allowed]

theorem extend_of_refused {compiler : Compiler} {regex : Regex α} {error : Error α}
    (refused : compiler.allowance regex = .error error) (nfa : Nfa α) :
    compiler.extend regex nfa = (nfa, .error error) := by
  simp only [extend, refused]

def construct (compiler : Compiler) (regex : Regex α) (nfa : Nfa α) :
    Except (Error α) (Construction α) :=
  match compiler.extend regex nfa with
  | (next, .ok (start, stop)) => .ok ⟨next, start, stop⟩
  | (_, .error e) => .error e

def compile (compiler : Compiler) (regex : Regex α) : Except (Error α) (Nfa α) :=
  (compiler.construct regex ∅).map fun c => ((c.nfa.setInitial c.start).addAccepting c.stop).1

end Compiler

def Regex.construct {α : Type u} [Ord α] [Alphabet α] [DecidableEq α] (regex : Regex α)
    (nfa : Nfa α) : Except (Error α) (Construction α) :=
  ({} : Compiler).construct regex nfa

end IntervalAutomata
