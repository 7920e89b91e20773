import IntervalAutomata.Nfa.Basic

namespace IntervalAutomata

universe u

inductive Event (α : Type u) where
  /-- A transition is about to be added, be it new or not. -/
  | addingTransition (transition : Transition α)
  | removedTransition (transition : Transition α)
  | removingUnreachable (count : Nat) (seed : State)
  | constructed (count : Nat) (start stop : State)
deriving DecidableEq

namespace Event

variable {α : Type u}

inductive Level where
  | debug
  | trace
deriving DecidableEq

def Level.name : Level → String
  | debug => "DEBUG"
  | trace => "TRACE"

def level : Event α → Level
  | addingTransition _ | removedTransition _ | removingUnreachable _ _ => .trace
  | constructed _ _ _ => .debug

def renderTransition [Written α] (t : Transition α) : String :=
  t.source.render ++ " --" ++ t.label.describe ++ "--> " ++ t.target.render

def message [Written α] : Event α → String
  | addingTransition t => "adding transition " ++ renderTransition t
  | removedTransition t => "removed transition " ++ renderTransition t
  | removingUnreachable count seed =>
    "removing " ++ toString count ++ " states unreachable from " ++ seed.describe
  | constructed count start stop =>
    "thompson construction added " ++ toString count ++ " states (start " ++ start.render ++
      ", end " ++ stop.render ++ ")"

def render [Written α] (event : Event α) : String :=
  event.level.name ++ " " ++ event.message

end Event

end IntervalAutomata
