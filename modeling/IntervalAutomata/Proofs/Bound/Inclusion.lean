import IntervalAutomata.Proofs.Bound.Dense

/-!
The orders of bounds mean inclusion. Among lower bounds the one that comes later admits fewer
values, and among upper bounds more. The second order is the first one seen in a mirror, so that
whatever holds of lower bounds under every order of the values holds of upper bounds too.
-/

namespace IntervalAutomata

open Std

universe u

variable {α : Type u} {cmp : α → α → Ordering}

def reversed (cmp : α → α → Ordering) (a b : α) : Ordering :=
  cmp b a

theorem reversed_eq_swap [OrientedCmp cmp] (a b : α) : reversed cmp a b = (cmp a b).swap := by
  have swap : cmp b a = (cmp a b).swap := OrientedCmp.eq_swap
  exact swap

instance [TransCmp cmp] : TransCmp (reversed cmp) :=
  have opposite : TransCmp fun a b => cmp b a := TransCmp.opposite
  opposite

theorem denseOrder_reversed (dense : DenseOrder cmp) : DenseOrder (reversed cmp) where
  between a b less := by
    obtain ⟨c, above, below⟩ := dense.between b a less
    exact ⟨c, below, above⟩
  below := dense.above
  above := dense.below

namespace Bound

def valuesAbove (cmp : α → α → Ordering) (b : Bound α) : Set α :=
  {v | b.compareToLower cmp v = .gt}

def valuesBelow (cmp : α → α → Ordering) (b : Bound α) : Set α :=
  {v | b.admitsBelow cmp v = true}

theorem compareUpper_eq_swap [OrientedCmp cmp] (a b : Bound α) :
    a.compareUpper cmp b = (a.compareLower (reversed cmp) b).swap := by
  cases a <;> cases b <;>
    simp only [compareUpper, compareLower, reversed_eq_swap, Ordering.swap_then, Ordering.swap_swap,
      Ordering.swap_lt, Ordering.swap_gt, Ordering.swap_eq]

variable [TransCmp cmp]

theorem compareUpper_eq_reversed : compareUpper cmp = reversed (compareLower (reversed cmp)) := by
  funext a b
  rw [compareUpper_eq_swap, reversed_eq_swap]

instance : TransCmp (compareUpper cmp) := by
  rw [compareUpper_eq_reversed]
  infer_instance

theorem valuesBelow_eq (b : Bound α) : b.valuesBelow cmp = b.valuesAbove (reversed cmp) := by
  ext v
  change b.admitsBelow cmp v = true ↔ b.compareToLower (reversed cmp) v = .gt
  rw [compareToLower_eq_gt]
  cases b with
  | unbounded => rfl
  | inclusive u => simp [admitsBelow, admitsAbove, reversed_eq_swap]
  | exclusive u => simp [admitsBelow, admitsAbove, reversed_eq_swap]

theorem valuesAbove_subset {a b : Bound α} (ordered : a.compareLower cmp b ≠ .gt) :
    b.valuesAbove cmp ⊆ a.valuesAbove cmp := by
  intro v admitted
  have admits := (compareToLower_eq_gt b v).mp admitted
  have earlier := Ordering.isLE_iff_ne_gt.mpr ordered
  exact (compareToLower_eq_gt a v).mpr (admitsAbove_of_isLE a b v earlier admits)

theorem exists_answers_eq (bounds : List (Bound α))
    (ascending : bounds.Pairwise fun a b => a.compareLower cmp b ≠ .gt) (v : α) :
    ∃ n ≤ bounds.length, bounds.map (compareToLower cmp v) =
      List.replicate n .gt ++ List.replicate (bounds.length - n) .lt := by
  induction ascending with
  | nil => exact ⟨0, Nat.le_refl 0, rfl⟩
  | @cons b rest later _ ih =>
    cases admits : b.admitsAbove cmp v with
    | true =>
      obtain ⟨n, within, answers⟩ := ih
      have first : compareToLower cmp v b = .gt := (compareToLower_eq_gt b v).mpr admits
      refine ⟨n + 1, Nat.succ_le_succ within, ?_⟩
      simp [answers, first, List.replicate_succ]
    | false =>
      refine ⟨0, Nat.zero_le _, ?_⟩
      have refused : ∀ c ∈ b :: rest, compareToLower cmp v c = .lt := by
        intro c member
        rw [compareToLower_eq_lt]
        rcases List.mem_cons.mp member with rfl | member
        · exact admits
        · have earlier := Ordering.isLE_iff_ne_gt.mpr (later c member)
          exact not_admitsAbove_of_isLE b c v earlier admits
      simpa [List.eq_replicate_iff] using refused

theorem valuesAbove_subset_iff (dense : DenseOrder cmp) (a b : Bound α) :
    a.compareLower cmp b ≠ .gt ↔ b.valuesAbove cmp ⊆ a.valuesAbove cmp := by
  constructor
  · exact valuesAbove_subset
  · intro within later
    obtain ⟨v, admitted, refused⟩ :=
      b.exists_admitted_between dense a (OrientedCmp.gt_iff_lt.mp later)
    have admits := within ((compareToLower_eq_gt b v).mpr admitted)
    rw [(compareToLower_eq_gt a v).mp admits] at refused
    contradiction

theorem valuesBelow_subset {a b : Bound α} (ordered : a.compareUpper cmp b ≠ .gt) :
    a.valuesBelow cmp ⊆ b.valuesBelow cmp := by
  rw [compareUpper_eq_reversed] at ordered
  rw [valuesBelow_eq, valuesBelow_eq]
  exact valuesAbove_subset ordered

theorem valuesBelow_subset_iff (dense : DenseOrder cmp) (a b : Bound α) :
    a.compareUpper cmp b ≠ .gt ↔ a.valuesBelow cmp ⊆ b.valuesBelow cmp := by
  rw [valuesBelow_eq, valuesBelow_eq, compareUpper_eq_reversed]
  exact valuesAbove_subset_iff (denseOrder_reversed dense) b a

/-- Both orders of bounds are total preorders, each the other in a mirror. Later lower bounds admit
    no other values than earlier ones, so that a value is behind the first of ascending lower bounds
    and in front of the rest. In a dense order without ends the orders say just which bound admits
    the values of which. -/
theorem orders_mean_inclusion :
    (TransCmp (compareLower cmp) ∧ TransCmp (compareUpper cmp)) ∧
    (∀ a b : Bound α, a.compareUpper cmp b = (a.compareLower (reversed cmp) b).swap) ∧
    (∀ a b : Bound α,
      (a.compareLower cmp b ≠ .gt → b.valuesAbove cmp ⊆ a.valuesAbove cmp) ∧
        (a.compareUpper cmp b ≠ .gt → a.valuesBelow cmp ⊆ b.valuesBelow cmp)) ∧
    (∀ bounds : List (Bound α), bounds.Pairwise (fun a b => a.compareLower cmp b ≠ .gt) →
      ∀ v, ∃ n ≤ bounds.length, bounds.map (compareToLower cmp v) =
        List.replicate n .gt ++ List.replicate (bounds.length - n) .lt) ∧
    (DenseOrder cmp → ∀ a b : Bound α,
      (a.compareLower cmp b ≠ .gt ↔ b.valuesAbove cmp ⊆ a.valuesAbove cmp) ∧
        (a.compareUpper cmp b ≠ .gt ↔ a.valuesBelow cmp ⊆ b.valuesBelow cmp)) := by
  refine ⟨⟨inferInstance, inferInstance⟩, compareUpper_eq_swap, ?_, exists_answers_eq, ?_⟩
  · intro a b
    exact ⟨valuesAbove_subset, valuesBelow_subset⟩
  · intro dense a b
    exact ⟨valuesAbove_subset_iff dense a b, valuesBelow_subset_iff dense a b⟩

def byFirst : ℚ × Bool → ℚ × Bool → Ordering :=
  compareOn Prod.fst

instance : TransCmp byFirst :=
  inferInstanceAs (TransCmp (compareOn Prod.fst))

theorem denseOrder_byFirst : DenseOrder byFirst where
  between a b less := by
    obtain ⟨c, above, below⟩ := denseOrder_compare.between a.1 b.1 less
    exact ⟨(c, true), above, below⟩
  below a := by
    obtain ⟨b, less⟩ := denseOrder_compare.below a.1
    exact ⟨(b, true), less⟩
  above a := by
    obtain ⟨b, less⟩ := denseOrder_compare.above a.1
    exact ⟨(b, true), less⟩

def levelBounds : List (Bound (ℚ × Bool)) :=
  [.unbounded, .inclusive (1, true), .inclusive (1, false), .exclusive (1, true),
    .inclusive (2, true)]

theorem orders_levelBounds :
    levelBounds.Pairwise (fun a b => a.compareLower byFirst b ≠ .gt) ∧
    (∃ n ≤ 5, levelBounds.map (compareToLower byFirst (1, false)) =
      List.replicate n .gt ++ List.replicate (5 - n) .lt) ∧
    (inclusive (1, true)).valuesAbove byFirst = (inclusive (1, false)).valuesAbove byFirst ∧
    ¬(inclusive (1, false)).valuesAbove byFirst ⊆ (exclusive (1, true)).valuesAbove byFirst ∧
    (exclusive (1, true)).valuesBelow byFirst ⊆ (inclusive (1, false)).valuesBelow byFirst := by
  have ascending : levelBounds.Pairwise (fun a b => a.compareLower byFirst b ≠ .gt) := by decide
  obtain ⟨_, _, within, answers, dense⟩ := @orders_mean_inclusion _ byFirst _
  refine ⟨ascending, answers levelBounds ascending (1, false), ?_, ?_, ?_⟩
  · have one := within (inclusive (1, false)) (inclusive (1, true))
    have other := within (inclusive (1, true)) (inclusive (1, false))
    exact Set.Subset.antisymm (one.1 (by decide)) (other.1 (by decide))
  · exact (dense denseOrder_byFirst (exclusive (1, true)) (inclusive (1, false))).1.not.mp (by decide)
  · exact (dense denseOrder_byFirst _ _).2.mp (by decide)

end Bound

end IntervalAutomata
