import IntervalAutomata.Interval.Basic
import IntervalAutomata.Nfa.State
import IntervalAutomata.Search

/-!
The edges that leave one state. Symbol edges ascend by the lower bound of their interval, and those
with level bounds keep the order in which they came; epsilon edges are kept in that order too. No
edge is kept twice.
-/

namespace IntervalAutomata

universe u

inductive Label (α : Type u) where
  | epsilon
  | symbol (interval : Interval α)
deriving DecidableEq

namespace Label

variable {α : Type u}

def isEpsilon : Label α → Bool
  | epsilon => true
  | symbol _ => false

def render [Written α] : Label α → String
  | epsilon => "ε"
  | symbol interval => interval.render

def describe [Written α] : Label α → String
  | epsilon => "Epsilon"
  | symbol interval => "Interval(" ++ interval.describe ++ ")"

end Label

structure SymbolEdge (α : Type u) where
  interval : Interval α
  target : State
deriving DecidableEq

structure Edges (α : Type u) where
  symbols : Array (SymbolEdge α) := #[]
  epsilons : List State := []

namespace Edges

variable {α : Type u}

def toList (edges : Edges α) : List (Label α × State) :=
  edges.symbols.toList.map (fun e => (.symbol e.interval, e.target)) ++
    edges.epsilons.map fun q => (.epsilon, q)

def dropTargets (edges : Edges α) (doomed : StateSet) : Edges α where
  symbols := edges.symbols.filter fun e => e.target ∉ doomed
  epsilons := edges.epsilons.filter (· ∉ doomed)

variable [Ord α]

/-- The targets of the edges that admit a symbol, ascending and once each. The search finds how many
    edges start low enough to admit it. -/
def targetsOn (edges : Edges α) (a : α) : List State :=
  let started := Search.binarySearch edges.symbols a (·.interval.lower) (Bound.compareToLower compare)
  let admitting := (edges.symbols.toList.take started.index).filter (·.interval.contains a)
  (Std.TreeSet.ofList (admitting.map (·.target))).toList

variable [DecidableEq α]

/-- Where an edge stands among symbol edges, or else where it belongs. The search lands on any edge
    with a level lower bound; the run of all such edges around it is where the edge can be, and the
    end of the run is where a new one goes. -/
def place (symbols : Array (SymbolEdge α)) (edge : SymbolEdge α) : Search.Position :=
  let landed := Search.binarySearch symbols edge.interval.lower (·.interval.lower)
    (Bound.compareLower compare)
  if landed.exact then
    let level (other : SymbolEdge α) : Bool :=
      other.interval.lower.compareLower compare edge.interval.lower == .eq
    let before := ((symbols.toList.take landed.index).reverse.takeWhile level).reverse
    let after := (symbols.toList.drop landed.index).takeWhile level
    let start := landed.index - before.length
    match (before ++ after).idxOf? edge with
    | some offset => ⟨start + offset, true⟩
    | none => ⟨start + (before ++ after).length, false⟩
  else landed

/-- The edges with one more, or none if it is among them already. -/
def insert? (edges : Edges α) (label : Label α) (target : State) : Option (Edges α) :=
  match label with
  | .epsilon =>
    if target ∈ edges.epsilons then none
    else some { edges with epsilons := edges.epsilons ++ [target] }
  | .symbol interval =>
    let position := place edges.symbols ⟨interval, target⟩
    if position.exact then none
    else some { edges with
      symbols := edges.symbols.insertIdxIfInBounds position.index ⟨interval, target⟩ }

def erase? (edges : Edges α) (label : Label α) (target : State) : Option (Edges α) :=
  match label with
  | .epsilon =>
    if target ∈ edges.epsilons then some { edges with epsilons := edges.epsilons.erase target }
    else none
  | .symbol interval =>
    let position := place edges.symbols ⟨interval, target⟩
    if position.exact then
      some { edges with symbols := edges.symbols.eraseIdxIfInBounds position.index }
    else none

end Edges

end IntervalAutomata
