import IntervalAutomata.Error
import IntervalAutomata.Span

namespace IntervalAutomata

universe u

inductive Regex (α : Type u) where
  /-- Matches the empty word. -/
  | empty
  /-- Matches no word. -/
  | nothing
  | literal (symbol : α)
  | range (first last : α)
  | seq (first second : Regex α)
  | alt (first second : Regex α)
  | star (inner : Regex α)
  | optional (inner : Regex α)
  | plus (inner : Regex α)
  /-- Matches from `min` to `max` repetitions, or without a `max` any number from `min` on. -/
  | repeated (inner : Regex α) (min : Nat) (max : Option Nat)
  | string (symbols : List α)
  /-- Matches one symbol inside the spans, or outside if negated. -/
  | oneOf (negated : Bool) (spans : List (Span α))
deriving DecidableEq

namespace Regex

variable {α : Type u}

/-- One symbol between two, given in either order. -/
def between [Ord α] (a b : α) : Regex α :=
  let span := Span.between a b
  range span.first span.last

def times (inner : Regex α) (min : Nat) (max : Option Nat) : Except (Error α) (Regex α) :=
  match max with
  | some greatest =>
    if greatest < min then .error (.invalidQuantifier min greatest)
    else .ok (repeated inner min max)
  | none => .ok (repeated inner min none)

def inside [Ord α] (ranges : List (α × α)) : Regex α :=
  oneOf false (ranges.map fun (a, b) => .between a b)

def outside [Ord α] (ranges : List (α × α)) : Regex α :=
  oneOf true (ranges.map fun (a, b) => .between a b)

def isPrimitive : Regex α → Bool
  | empty | nothing | literal _ | range _ _ => true
  | seq first second | alt first second => first.isPrimitive && second.isPrimitive
  | star inner => inner.isPrimitive
  | optional _ | plus _ | repeated _ _ _ | string _ | oneOf _ _ => false

end Regex

end IntervalAutomata
