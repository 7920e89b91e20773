import IntervalAutomata.Balance
import IntervalAutomata.Regex.Basic

/-!
The core of the expressions, which automata are built from, and the core form of every expression.
Lists of parts become balanced trees, and the copies of a repeated part share their nodes, so a
core form stays shallow and takes little room even where it stands for very many parts.
-/

namespace IntervalAutomata

universe u

inductive Core (α : Type u) where
  | empty
  | nothing
  | literal (symbol : α)
  | range (first last : α)
  | seq (first second : Core α)
  | alt (first second : Core α)
  | star (inner : Core α)
deriving DecidableEq

namespace Core

variable {α : Type u}

def toRegex : Core α → Regex α
  | empty => .empty
  | nothing => .nothing
  | literal a => .literal a
  | range a b => .range a b
  | seq first second => .seq first.toRegex second.toRegex
  | alt first second => .alt first.toRegex second.toRegex
  | star inner => .star inner.toRegex

def inSequence : Option (Core α) → Option (Core α) → Core α
  | some first, some second => seq first second
  | some only, none | none, some only => only
  | none, none => empty

/-- From `min` to `max` repetitions of a part: the required ones, then the optional ones. -/
def repeated (part : Core α) (min : Nat) (max : Option Nat) : Core α :=
  inSequence (Balance.copies? seq part min) <|
    match max with
    | some max => Balance.copies? seq (alt part empty) (max - min)
    | none => some (star part)

def ofSpan [DecidableEq α] (span : Span α) : Core α :=
  if span.first = span.last then literal span.first else range span.first span.last

end Core

def Regex.desugar {α : Type u} [Ord α] [Alphabet α] [DecidableEq α] : Regex α → Core α
  | empty => .empty
  | nothing => .nothing
  | literal a => .literal a
  | range a b => .range a b
  | seq first second => .seq first.desugar second.desugar
  | alt first second => .alt first.desugar second.desugar
  | star inner => .star inner.desugar
  | optional inner => .alt inner.desugar .empty
  | plus inner =>
    let part := inner.desugar
    .seq part (.star part)
  | repeated inner min max => .repeated inner.desugar min max
  | string symbols => Balance.joinAll .seq .empty (symbols.map .literal)
  | oneOf negated spans => Balance.joinAll .alt .nothing ((Span.cover negated spans).map .ofSpan)

end IntervalAutomata
