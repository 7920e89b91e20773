import IntervalAutomata.Size

/-!
Binary search in a window of an array, by a key whose type may differ from that of the items. The
comparison is called with the key first; nothing is assumed about the order of the items, and the
answer is the one that halving the window lands on.
-/

namespace IntervalAutomata.Search

universe u v w

/-- Where a search ended. If `exact`, the item at `index` is level with the key; if not, the key
    belongs right before it. -/
structure Position where
  index : Nat
  exact : Bool
deriving DecidableEq

/-- The item that halving lands on: while more than one is left, the upper half is kept if its first
    item is not beyond the key, and the lower part otherwise. -/
def landing (order : Nat → Ordering) (start size : Nat) : Nat :=
  if size ≤ 1 then start
  else
    let half := size / 2
    let start := if order (start + half) = .lt then start else start + half
    landing order start (size - half)
termination_by size

def locate (order : Nat → Ordering) (start size : Nat) : Position :=
  if size = 0 then ⟨start, false⟩
  else
    let index := landing order start size
    match order index with
    | .eq => ⟨index, true⟩
    | .gt => ⟨index + 1, false⟩
    | .lt => ⟨index, false⟩

structure OutOfBounds where
  start : Nat
  size : Nat
deriving DecidableEq

def OutOfBounds.message (_ : OutOfBounds) : String :=
  "binary_search_in() range is out of bounds"

variable {α : Type u} {β : Type v} {γ : Type w}

def orderAt (items : Array α) (key : β) (keyOf : α → γ) (cmp : β → γ → Ordering) (index : Nat) :
    Ordering :=
  match items[index]? with
  | some item => cmp key (keyOf item)
  | none => .lt

/-- Searches the `size` items from `start`; the index in the answer counts from the first item of
    all. -/
def binarySearchIn (items : Array α) (start size : Nat) (key : β) (keyOf : α → γ)
    (cmp : β → γ → Ordering) : Except OutOfBounds Position :=
  match Size.add? start size with
  | none => .error ⟨start, size⟩
  | some stop =>
    if stop ≤ items.size then .ok (locate (orderAt items key keyOf cmp) start size)
    else .error ⟨start, size⟩

def binarySearch (items : Array α) (key : β) (keyOf : α → γ) (cmp : β → γ → Ordering) : Position :=
  locate (orderAt items key keyOf cmp) 0 items.size

end IntervalAutomata.Search
