import IntervalAutomata.Interval.Basic

namespace IntervalAutomata

universe u

inductive Interval.Relation (α : Type u) where
  /-- There is a gap between them. -/
  | disjoint (first second : Interval α)
  /-- They share no value and leave no gap. -/
  | touching (first second : Interval α)
  | overlapping (before overlap after : Interval α)
  | containing (before contained after : Interval α)
  | starting (overlap rest : Interval α)
  | finishing (rest overlap : Interval α)
  | equal (interval : Interval α)
deriving DecidableEq

inductive Junction where
  | gap
  | touch
  | overlap
deriving DecidableEq

variable {α : Type u}

def Bound.junction (cmp : α → α → Ordering) : Bound α → Bound α → Junction
  | unbounded, _ | _, unbounded => .overlap
  | inclusive u, inclusive l => if cmp u l = .lt then .gap else .overlap
  | exclusive u, exclusive l => if cmp u l = .gt then .overlap else .gap
  | inclusive u, exclusive l | exclusive u, inclusive l =>
    match cmp u l with
    | .lt => .gap
    | .eq => .touch
    | .gt => .overlap

namespace Interval

/-- The relation of two intervals that share a start or an end or overlap properly, the one that
    comes first being given first. -/
def cut (cmp : α → α → Ordering) (lowerOrder upperOrder : Ordering) (first second : Interval α) :
    Relation α :=
  if lowerOrder = .eq then
    .starting first ⟨first.upper.flip, second.upper⟩
  else if upperOrder = .eq then
    .finishing ⟨first.lower, second.lower.flip⟩ second
  else if first.upper.compareUpper cmp second.upper = .gt then
    .containing ⟨first.lower, second.lower.flip⟩ second ⟨second.upper.flip, first.upper⟩
  else
    .overlapping ⟨first.lower, second.lower.flip⟩ ⟨second.lower, first.upper⟩
      ⟨first.upper.flip, second.upper⟩

def relationBy (cmp : α → α → Ordering) (i j : Interval α) : Relation α :=
  let lowerOrder := i.lower.compareLower cmp j.lower
  let upperOrder := i.upper.compareUpper cmp j.upper
  if lowerOrder = .eq ∧ upperOrder = .eq then .equal i
  else
    let (first, second) := if lowerOrder.then upperOrder = .gt then (j, i) else (i, j)
    match first.upper.junction cmp second.lower with
    | .gap => .disjoint first second
    | .touch => .touching first second
    | .overlap => cut cmp lowerOrder upperOrder first second

def relation [Ord α] : Interval α → Interval α → Relation α :=
  relationBy compare

end Interval

def Interval.Relation.pieces : Relation α → List (Interval α)
  | disjoint first second => [first, second]
  | touching first second => [first, second]
  | overlapping before overlap after => [before, overlap, after]
  | containing before contained after => [before, contained, after]
  | starting overlap rest => [overlap, rest]
  | finishing rest overlap => [rest, overlap]
  | equal interval => [interval]

end IntervalAutomata
