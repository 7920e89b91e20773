import IntervalAutomata.Error

/-!
Intervals of an ordered type. The elements are taken to be dense: no element is assumed to have a
next one, so `(x, y)` with `x` below `y` counts as inhabited. Each operation that compares takes
the order as an argument, and a form without one uses the order of the type.
-/

namespace IntervalAutomata

universe u

@[ext] structure Interval (α : Type u) where
  lower : Bound α
  upper : Bound α
deriving DecidableEq

namespace Interval

variable {α : Type u}

def full : Interval α where
  lower := .unbounded
  upper := .unbounded

def singleton (v : α) : Interval α where
  lower := .inclusive v
  upper := .inclusive v

/-- The interval between two bounds, refused if the lower value is greater than the upper one. Level
    values pass, whatever the kinds of the bounds. -/
def ofBoundsBy (cmp : α → α → Ordering) (lower upper : Bound α) :
    Except (Error α) (Interval α) :=
  match lower.value?, upper.value? with
  | some l, some u => if cmp l u = .gt then .error (.invalidRange lower upper) else .ok ⟨lower, upper⟩
  | _, _ => .ok ⟨lower, upper⟩

def ofBounds [Ord α] : Bound α → Bound α → Except (Error α) (Interval α) :=
  ofBoundsBy compare

/-- The closed interval between two values, given in either order. -/
def closed [Ord α] (a b : α) : Interval α :=
  if compare b a = .lt then ⟨.inclusive b, .inclusive a⟩ else ⟨.inclusive a, .inclusive b⟩

def containsBy (cmp : α → α → Ordering) (i : Interval α) (v : α) : Bool :=
  i.lower.admitsAbove cmp v && i.upper.admitsBelow cmp v

def contains [Ord α] : Interval α → α → Bool :=
  containsBy compare

def isEmptyBy (cmp : α → α → Ordering) (i : Interval α) : Bool :=
  match i.lower, i.upper with
  | .inclusive l, .inclusive u => cmp l u == .gt
  | .inclusive l, .exclusive u | .exclusive l, .inclusive u | .exclusive l, .exclusive u =>
    cmp l u != .lt
  | .unbounded, _ | _, .unbounded => false

def isEmpty [Ord α] : Interval α → Bool :=
  isEmptyBy compare

def sameBy (cmp : α → α → Ordering) (i j : Interval α) : Bool :=
  i.lower.sameBy cmp j.lower && i.upper.sameBy cmp j.upper

def render [Written α] (i : Interval α) : String :=
  let left := match i.lower with
    | .unbounded => "(-inf"
    | .inclusive v => "[" ++ Written.plain v
    | .exclusive v => "(" ++ Written.plain v
  let right := match i.upper with
    | .unbounded => "+inf)"
    | .inclusive v => Written.plain v ++ "]"
    | .exclusive v => Written.plain v ++ ")"
  left ++ ", " ++ right

def describe [Written α] (i : Interval α) : String :=
  "Interval \x7b lower: " ++ i.lower.describe ++ ", upper: " ++ i.upper.describe ++ " \x7d"

end Interval

end IntervalAutomata
