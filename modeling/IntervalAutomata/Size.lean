/-!
Sizes that must fit in 64 bits. Sums and products that do not fit are refused,
never wrapped.
-/

namespace IntervalAutomata.Size

def greatest : Nat := UInt64.size - 1

def fit? (n : Nat) : Option Nat :=
  if n ≤ greatest then some n else none

def add? (m n : Nat) : Option Nat := fit? (m + n)

def mul? (m n : Nat) : Option Nat := fit? (m * n)

theorem fit?_eq_some_iff {n k : Nat} : fit? n = some k ↔ n ≤ greatest ∧ n = k := by
  unfold fit?
  split
  · simp_all
  · simp only [reduceCtorEq, false_iff]
    omega

theorem fit?_eq_none_iff {n : Nat} : fit? n = none ↔ greatest < n := by
  unfold fit?
  split <;> simp_all

theorem add?_eq_some_iff {m n k : Nat} : add? m n = some k ↔ m + n ≤ greatest ∧ m + n = k :=
  fit?_eq_some_iff

end IntervalAutomata.Size
