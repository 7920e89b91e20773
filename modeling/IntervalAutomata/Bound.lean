import IntervalAutomata.Text.Written

/-!
Bounds: one side of an interval. A bound is read as a lower or as an upper one by its place, and
every comparison takes the order of the elements as an argument.
-/

namespace IntervalAutomata

universe u

inductive Bound (α : Type u) where
  | unbounded
  | inclusive (value : α)
  | exclusive (value : α)
deriving DecidableEq

namespace Bound

variable {α : Type u}

def value? : Bound α → Option α
  | unbounded => none
  | inclusive v => some v
  | exclusive v => some v

/-- The bound of the neighbouring piece when a cut is made here. -/
def flip : Bound α → Bound α
  | unbounded => unbounded
  | inclusive v => exclusive v
  | exclusive v => inclusive v

/-- Whether a value lies on the inner side of a lower bound. -/
def admitsAbove (cmp : α → α → Ordering) : Bound α → α → Bool
  | unbounded, _ => true
  | inclusive l, v => cmp v l != .lt
  | exclusive l, v => cmp v l == .gt

def admitsBelow (cmp : α → α → Ordering) : Bound α → α → Bool
  | unbounded, _ => true
  | inclusive u, v => cmp v u != .gt
  | exclusive u, v => cmp v u == .lt

/-- Orders lower bounds by where their intervals start: without a bound first, and at one value an
    inclusive bound before an exclusive one. -/
def compareLower (cmp : α → α → Ordering) : Bound α → Bound α → Ordering
  | unbounded, unbounded => .eq
  | unbounded, inclusive _ | unbounded, exclusive _ => .lt
  | inclusive _, unbounded | exclusive _, unbounded => .gt
  | inclusive a, inclusive b | exclusive a, exclusive b => cmp a b
  | inclusive a, exclusive b => (cmp a b).then .lt
  | exclusive a, inclusive b => (cmp a b).then .gt

/-- Orders upper bounds by where their intervals end: without a bound last, and at one value an
    exclusive bound before an inclusive one. -/
def compareUpper (cmp : α → α → Ordering) : Bound α → Bound α → Ordering
  | unbounded, unbounded => .eq
  | unbounded, inclusive _ | unbounded, exclusive _ => .gt
  | inclusive _, unbounded | exclusive _, unbounded => .lt
  | inclusive a, inclusive b | exclusive a, exclusive b => cmp a b
  | inclusive a, exclusive b => (cmp a b).then .gt
  | exclusive a, inclusive b => (cmp a b).then .lt

/-- Places a value beside a lower bound: after it if admitted and before it if not, never level. So
    a search by this comparison finds how many ascending bounds admit the value. -/
def compareToLower (cmp : α → α → Ordering) (v : α) (lower : Bound α) : Ordering :=
  if lower.admitsAbove cmp v then .gt else .lt

def sameBy (cmp : α → α → Ordering) : Bound α → Bound α → Bool
  | unbounded, unbounded => true
  | inclusive a, inclusive b | exclusive a, exclusive b => cmp a b == .eq
  | _, _ => false

def describe [Written α] : Bound α → String
  | unbounded => "Unbounded"
  | inclusive v => "Inclusive(" ++ Written.quoted v ++ ")"
  | exclusive v => "Exclusive(" ++ Written.quoted v ++ ")"

end Bound

end IntervalAutomata
