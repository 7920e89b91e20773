import Std.Data.TreeSet

namespace IntervalAutomata

@[ext] structure State where
  index : Nat
deriving DecidableEq

namespace State

instance : Ord State where
  compare p q := compare p.index q.index

theorem compare_eq (p q : State) : compare p q = compare p.index q.index := rfl

instance : Std.TransOrd State where
  eq_swap {p q} := by
    rw [compare_eq, compare_eq]
    exact Std.OrientedCmp.eq_swap
  isLE_trans {p q r} pq qr := by
    rw [compare_eq] at *
    exact Std.TransCmp.isLE_trans pq qr

instance : Std.LawfulEqOrd State where
  eq_of_compare {p q} h := by
    rw [compare_eq] at h
    exact State.ext (Std.LawfulEqCmp.eq_of_compare h)

def render (q : State) : String :=
  "q" ++ toString q.index

def describe (q : State) : String :=
  "State(" ++ toString q.index ++ ")"

end State

abbrev StateSet := Std.TreeSet State

end IntervalAutomata
