import IntervalAutomata.Proofs.Bound.Cut
import Mathlib

namespace IntervalAutomata

open Std

universe u

variable {α : Type u} {cmp : α → α → Ordering}

/-- Between any two values lies a third, and no value is the least or the greatest. -/
structure DenseOrder (cmp : α → α → Ordering) : Prop where
  between : ∀ a b, cmp a b = .lt → ∃ c, cmp a c = .lt ∧ cmp c b = .lt
  below : ∀ a, ∃ b, cmp b a = .lt
  above : ∀ a, ∃ b, cmp a b = .lt

theorem denseOrder_compare [LinearOrder α] [DenselyOrdered α] [NoMinOrder α] [NoMaxOrder α] :
    DenseOrder (compare : α → α → Ordering) where
  between a b less := by
    obtain ⟨c, above, below⟩ := exists_between (compare_lt_iff_lt.mp less)
    exact ⟨c, compare_lt_iff_lt.mpr above, compare_lt_iff_lt.mpr below⟩
  below a := by
    obtain ⟨b, less⟩ := exists_lt a
    exact ⟨b, compare_lt_iff_lt.mpr less⟩
  above a := by
    obtain ⟨b, less⟩ := exists_gt a
    exact ⟨b, compare_lt_iff_lt.mpr less⟩

variable [TransCmp cmp]

variable (dense : DenseOrder cmp)
include dense

namespace Bound

theorem exists_admitted_between (a b : Bound α) (less : a.compareLower cmp b = .lt) :
    ∃ v, a.admitsAbove cmp v = true ∧ b.admitsAbove cmp v = false := by
  cases a with
  | unbounded =>
    cases b with
    | unbounded => contradiction
    | inclusive m =>
      obtain ⟨v, below⟩ := dense.below m
      exact ⟨v, rfl, (admitsAbove_inclusive_eq_false m v).mpr below⟩
    | exclusive m => exact ⟨m, rfl, (admitsAbove_exclusive_eq_false m m).mpr ReflCmp.isLE_rfl⟩
  | inclusive l =>
    have own : (inclusive l).admitsAbove cmp l = true :=
      (admitsAbove_inclusive l l).mpr ReflCmp.isLE_rfl
    cases b with
    | unbounded => contradiction
    | inclusive m => exact ⟨l, own, (admitsAbove_inclusive_eq_false m l).mpr less⟩
    | exclusive m =>
      have upTo := Ordering.isLE_of_eq_lt less
      rw [compareLower, isLE_then_lt] at upTo
      exact ⟨l, own, (admitsAbove_exclusive_eq_false m l).mpr upTo⟩
  | exclusive l =>
    cases b with
    | unbounded => contradiction
    | inclusive m =>
      have apart : cmp l m = .lt := (isLE_then_gt _).mp (Ordering.isLE_of_eq_lt less)
      obtain ⟨v, above, below⟩ := dense.between l m apart
      exact ⟨v, (admitsAbove_exclusive l v).mpr above,
        (admitsAbove_inclusive_eq_false m v).mpr below⟩
    | exclusive m =>
      exact ⟨m, (admitsAbove_exclusive l m).mpr less,
        (admitsAbove_exclusive_eq_false m m).mpr ReflCmp.isLE_rfl⟩

theorem exists_admitted [Nonempty α] (a : Bound α) : ∃ v, a.admitsAbove cmp v = true := by
  cases a with
  | unbounded =>
    obtain ⟨v⟩ := ‹Nonempty α›
    exact ⟨v, rfl⟩
  | inclusive l => exact ⟨l, (admitsAbove_inclusive l l).mpr ReflCmp.isLE_rfl⟩
  | exclusive l =>
    obtain ⟨v, above⟩ := dense.above l
    exact ⟨v, (admitsAbove_exclusive l v).mpr above⟩

end Bound

namespace Cut

variable [Nonempty α]

theorem exists_value_between (c d : Cut α) (less : c.compare cmp d = .lt) :
    ∃ v, c.precedes cmp v = true ∧ d.precedes cmp v = false := by
  cases c with
  | behindAll => cases d <;> contradiction
  | before a =>
    cases d with
    | before b => exact a.exists_admitted_between dense b less
    | behindAll =>
      obtain ⟨v, admitted⟩ := a.exists_admitted dense
      exact ⟨v, admitted, rfl⟩

theorem lt_iff_exists_value (c d : Cut α) :
    c.compare cmp d = .lt ↔ ∃ v, c.precedes cmp v = true ∧ d.precedes cmp v = false := by
  constructor
  · exact exists_value_between dense c d
  · rintro ⟨v, behind, front⟩
    by_cases less : c.compare cmp d = .lt
    · exact less
    · rw [precedes_of_isLE (isLE_of_ne_lt less) behind] at front
      contradiction

theorem exists_value_inside {c c' d d' : Cut α} (less : c.compare cmp d = .lt)
    (less' : c.compare cmp d' = .lt) (lessHere : c'.compare cmp d = .lt)
    (lessHere' : c'.compare cmp d' = .lt) :
    ∃ v, (c.precedes cmp v = true ∧ c'.precedes cmp v = true) ∧
      d.precedes cmp v = false ∧ d'.precedes cmp v = false := by
  obtain ⟨m, one, later, later'⟩ := exists_last cmp c c'
  obtain ⟨n, other, earlier, earlier'⟩ := exists_first cmp d d'
  have apart : m.compare cmp n = .lt := by
    rcases one with rfl | rfl <;> rcases other with rfl | rfl <;> assumption
  obtain ⟨v, behind, front⟩ := exists_value_between dense m n apart
  exact ⟨v, ⟨precedes_of_isLE later behind, precedes_of_isLE later' behind⟩,
    not_precedes_of_isLE earlier front, not_precedes_of_isLE earlier' front⟩

end Cut

end IntervalAutomata
