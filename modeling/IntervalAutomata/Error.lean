import IntervalAutomata.Bound

namespace IntervalAutomata

universe u

inductive Error (α : Type u) where
  | invalidRange (lower upper : Bound α)
  | invalidQuantifier (min max : Nat)
  | stateLimitExceeded (limit : Nat)
deriving DecidableEq

def Error.message {α : Type u} [Written α] : Error α → String
  | invalidRange lower upper =>
    "The interval lower bound " ++ lower.describe ++ " is greater than its upper bound " ++
      upper.describe ++ "."
  | invalidQuantifier min max =>
    "The repetition minimum " ++ toString min ++ " is greater than its maximum " ++
      toString max ++ "."
  | stateLimitExceeded limit =>
    "The automaton for the regular expression would exceed the limit of " ++ toString limit ++
      " states."

end IntervalAutomata
