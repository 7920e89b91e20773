import IntervalAutomata.Interval.Basic
import IntervalAutomata.Proofs.Bound.LowerOrder

namespace IntervalAutomata

open Std

universe u

variable {α : Type u} [Ord α]

/-- Whether a symbol lies between two others, given in either order. -/
def Between (a b c : α) : Prop :=
  ((compare a c).isLE ∧ (compare c b).isLE) ∨ ((compare b c).isLE ∧ (compare c a).isLE)

namespace Interval

theorem contains_between [TransOrd α] (a b c : α) :
    (Interval.mk (.inclusive a) (.inclusive b)).contains c = true ↔
      (compare a c).isLE ∧ (compare c b).isLE := by
  have below : (Bound.inclusive b).admitsBelow compare c = true ↔ (compare c b).isLE := by
    rw [Bound.admitsBelow]
    cases compare c b <;> decide
  rw [← Bound.admitsAbove_inclusive, ← below, ← Bool.and_eq_true]
  rfl

theorem contains_singleton [TransOrd α] [LawfulEqOrd α] (a b : α) :
    (singleton a).contains b = true ↔ b = a := by
  rw [singleton, contains_between]
  constructor
  · intro level
    exact LawfulEqCmp.eq_of_compare (OrientedCmp.isLE_antisymm level.2 level.1)
  · intro same
    rw [same]
    exact ⟨ReflCmp.isLE_rfl, ReflCmp.isLE_rfl⟩

theorem contains_closed [TransOrd α] (a b c : α) :
    (closed a b).contains c = true ↔ Between a b c := by
  unfold closed Between
  split
  · rename_i reversed
    rw [contains_between]
    constructor
    · exact .inr
    · intro between
      rcases between with absent | holds
      · have ordered := TransCmp.isLE_trans absent.1 absent.2
        exact absurd ordered (OrientedCmp.not_isLE_of_lt reversed)
      · exact holds
  · rename_i ordered
    have least : (compare a b).isLE := isLE_of_ne_lt ordered
    rw [contains_between]
    constructor
    · exact .inl
    · intro between
      rcases between with holds | level
      · exact holds
      · exact ⟨TransCmp.isLE_trans least level.1, TransCmp.isLE_trans level.2 least⟩

end Interval

end IntervalAutomata
