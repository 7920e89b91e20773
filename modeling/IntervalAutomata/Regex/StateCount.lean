import IntervalAutomata.Regex.Basic
import IntervalAutomata.Size

/-!
How many states the automaton of an expression takes, found without building anything. A count that
does not fit in a size is none, and so is one that needs such a number on the way.
-/

namespace IntervalAutomata

universe u

def Regex.stateCount? {α : Type u} [Ord α] [Alphabet α] : Regex α → Option Nat
  | empty | nothing | literal _ | range _ _ => some 2
  | seq first second => do
    let m ← first.stateCount?
    let n ← second.stateCount?
    Size.add? m n
  | alt first second => do
    let m ← first.stateCount?
    let n ← second.stateCount?
    Size.add? (← Size.add? m n) 2
  | star inner => do Size.add? (← inner.stateCount?) 2
  | optional inner => do Size.add? (← inner.stateCount?) 4
  | plus inner => do Size.add? (← Size.mul? (← inner.stateCount?) 2) 2
  | repeated inner min max =>
    -- no repetition at all: the part is not looked at
    if min = 0 ∧ max = some 0 then some 2
    else do
      let n ← inner.stateCount?
      let required ← Size.mul? n min
      let optional ← match max with
        | some max => do Size.mul? (← Size.add? n 4) (max - min)
        | none => Size.add? n 2
      Size.add? required optional
  | string symbols => if symbols.isEmpty then some 2 else Size.mul? symbols.length 2
  | oneOf negated spans =>
    let n := (Span.cover negated spans).length
    -- two states for each span and two for each alternation between them
    if n = 0 then some 2 else (Size.mul? n 4).map (· - 2)

end IntervalAutomata
