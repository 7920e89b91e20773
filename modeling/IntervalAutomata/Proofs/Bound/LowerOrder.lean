import IntervalAutomata.Bound

namespace IntervalAutomata

open Std

universe u

variable {α : Type u} {cmp : α → α → Ordering}

theorem isLE_of_ne_lt [OrientedCmp cmp] {a b : α} (notLess : cmp a b ≠ .lt) : (cmp b a).isLE :=
  OrientedCmp.isLE_of_isGE (Ordering.ne_lt_iff_isGE.mp notLess)

theorem self_ne_lt [ReflCmp cmp] (a : α) : cmp a a ≠ .lt := by
  have level : cmp a a = .eq := ReflCmp.compare_self
  simp [level]

namespace Bound

theorem isLE_then_lt (o : Ordering) : (o.then .lt).isLE = o.isLE := by
  cases o <;> rfl

theorem isLE_then_gt (o : Ordering) : (o.then .gt).isLE = true ↔ o = .lt := by
  cases o <;> decide

theorem compareLower_swap [OrientedCmp cmp] (a b : Bound α) :
    a.compareLower cmp b = (b.compareLower cmp a).swap := by
  cases a <;> cases b <;> simp only [compareLower, Ordering.swap_then]
  case inclusive.inclusive a b => exact OrientedCmp.eq_swap
  case exclusive.exclusive a b => exact OrientedCmp.eq_swap
  case inclusive.exclusive a b =>
    have swap : cmp a b = (cmp b a).swap := OrientedCmp.eq_swap
    rw [swap]
    rfl
  case exclusive.inclusive a b =>
    have swap : cmp a b = (cmp b a).swap := OrientedCmp.eq_swap
    rw [swap]
    rfl
  all_goals rfl

theorem compareLower_trans [TransCmp cmp] (a b c : Bound α)
    (first : (a.compareLower cmp b).isLE) (second : (b.compareLower cmp c).isLE) :
    (a.compareLower cmp c).isLE := by
  cases a <;> cases b <;> cases c <;>
    simp only [compareLower, isLE_then_lt, isLE_then_gt] at first second ⊢
  -- what is left compares three values; a strict step comes from a change of kind
  all_goals first
    | rfl
    | contradiction
    | exact TransCmp.isLE_trans first second
    | exact TransCmp.lt_trans first second
    | exact TransCmp.lt_of_isLE_of_lt first second
    | exact TransCmp.lt_of_lt_of_isLE first second
    | exact TransCmp.isLE_trans (Ordering.isLE_of_eq_lt first) second
    | exact TransCmp.isLE_trans first (Ordering.isLE_of_eq_lt second)

instance [TransCmp cmp] : TransCmp (compareLower cmp) where
  eq_swap := compareLower_swap _ _
  isLE_trans := compareLower_trans _ _ _

theorem admitsAbove_inclusive [OrientedCmp cmp] (l v : α) :
    (inclusive l).admitsAbove cmp v = true ↔ (cmp l v).isLE := by
  have swap : cmp v l = (cmp l v).swap := OrientedCmp.eq_swap
  rw [admitsAbove, swap]
  cases cmp l v <;> decide

theorem admitsAbove_exclusive [OrientedCmp cmp] (l v : α) :
    (exclusive l).admitsAbove cmp v = true ↔ cmp l v = .lt := by
  have swap : cmp v l = (cmp l v).swap := OrientedCmp.eq_swap
  rw [admitsAbove, swap]
  cases cmp l v <;> decide

theorem admitsAbove_inclusive_eq_false (l v : α) :
    (inclusive l).admitsAbove cmp v = false ↔ cmp v l = .lt := by
  rw [admitsAbove]
  cases cmp v l <;> decide

theorem admitsAbove_exclusive_eq_false (l v : α) :
    (exclusive l).admitsAbove cmp v = false ↔ (cmp v l).isLE := by
  rw [admitsAbove]
  cases cmp v l <;> decide

theorem compareToLower_eq_gt (b : Bound α) (v : α) :
    b.compareToLower cmp v = .gt ↔ b.admitsAbove cmp v = true := by
  unfold compareToLower
  split <;> simp_all

theorem compareToLower_eq_lt (b : Bound α) (v : α) :
    b.compareToLower cmp v = .lt ↔ b.admitsAbove cmp v = false := by
  unfold compareToLower
  split <;> simp_all

theorem admitsAbove_of_isLE [TransCmp cmp] (a b : Bound α) (v : α)
    (ordered : (a.compareLower cmp b).isLE) (admitted : b.admitsAbove cmp v = true) :
    a.admitsAbove cmp v = true := by
  cases a with
  | unbounded => rfl
  | inclusive l =>
    rw [admitsAbove_inclusive]
    cases b with
    | unbounded => contradiction
    | inclusive m =>
      rw [admitsAbove_inclusive] at admitted
      exact TransCmp.isLE_trans ordered admitted
    | exclusive m =>
      rw [admitsAbove_exclusive] at admitted
      rw [compareLower, isLE_then_lt] at ordered
      exact TransCmp.isLE_trans ordered (Ordering.isLE_of_eq_lt admitted)
  | exclusive l =>
    rw [admitsAbove_exclusive]
    cases b with
    | unbounded => contradiction
    | inclusive m =>
      rw [admitsAbove_inclusive] at admitted
      rw [compareLower, isLE_then_gt] at ordered
      exact TransCmp.lt_of_lt_of_isLE ordered admitted
    | exclusive m =>
      rw [admitsAbove_exclusive] at admitted
      exact TransCmp.lt_of_isLE_of_lt ordered admitted

theorem not_admitsAbove_of_isLE [TransCmp cmp] (a b : Bound α) (v : α)
    (ordered : (a.compareLower cmp b).isLE) (refused : a.admitsAbove cmp v = false) :
    b.admitsAbove cmp v = false := by
  rw [← Bool.not_eq_true] at refused ⊢
  exact mt (admitsAbove_of_isLE a b v ordered) refused

end Bound

end IntervalAutomata
