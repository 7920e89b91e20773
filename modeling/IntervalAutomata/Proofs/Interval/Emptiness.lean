import IntervalAutomata.Proofs.Bound.Inclusion
import IntervalAutomata.Proofs.Interval.Values

namespace IntervalAutomata.Interval

open Std

universe u

variable {α : Type u} {cmp : α → α → Ordering} [TransCmp cmp]

theorem not_contains_of_isEmptyBy {i : Interval α} (empty : i.isEmptyBy cmp = true) (v : α) :
    i.containsBy cmp v = false := by
  have crossed : i.start.compare cmp i.stop ≠ .lt := by
    intro less
    rw [← isEmptyBy_eq_false_iff, empty] at less
    contradiction
  apply Bool.eq_false_iff.mpr
  intro held
  obtain ⟨started, running⟩ := (containsBy_iff i v).mp held
  -- what lies behind the start lies behind a stop that comes no later
  rw [Cut.precedes_of_isLE (isLE_of_ne_lt crossed) started] at running
  contradiction

/-- An interval that counts as empty holds no value, whatever order its bounds were checked against
    when it was made. In a dense order without ends every other interval holds one, where there are
    values at all. Where there are none, no interval counts as empty. -/
theorem isEmptyBy_agrees_with_containsBy (i : Interval α) :
    (i.isEmptyBy cmp = true → ∀ v, i.containsBy cmp v = false) ∧
      (DenseOrder cmp → Nonempty α → i.isEmptyBy cmp = false →
        ∃ v, i.containsBy cmp v = true) ∧
      (IsEmpty α → i.isEmptyBy cmp = false) := by
  refine ⟨not_contains_of_isEmptyBy, ?_, fun _ => i.isEmptyBy_of_isEmpty⟩
  intro dense _ inhabited
  exact values_nonempty dense ((isEmptyBy_eq_false_iff i).mp inhabited)

def fiveDownToOne : Interval ℚ := ⟨.inclusive 5, .inclusive 1⟩

theorem isEmptyBy_fiveDownToOne :
    ofBoundsBy (reversed compare) (.inclusive 5) (.inclusive 1) = .ok fiveDownToOne ∧
    (fiveDownToOne.isEmptyBy compare = true ∧ ∀ v, fiveDownToOne.containsBy compare v = false) ∧
    fiveDownToOne.isEmptyBy (reversed compare) = false ∧
      ∃ v, fiveDownToOne.containsBy (reversed compare) v = true := by
  have empty : fiveDownToOne.isEmptyBy compare = true := by decide
  have inhabited : fiveDownToOne.isEmptyBy (reversed compare) = false := by decide
  have accepted : ofBoundsBy (reversed compare) (.inclusive 5) (.inclusive 1) =
      .ok fiveDownToOne := by
    unfold ofBoundsBy
    exact if_neg (by decide)
  obtain ⟨holdsNone, _⟩ := @isEmptyBy_agrees_with_containsBy _ compare _ fiveDownToOne
  obtain ⟨_, holdsSome, _⟩ := @isEmptyBy_agrees_with_containsBy _ (reversed compare) _ fiveDownToOne
  refine ⟨accepted, ⟨empty, holdsNone empty⟩, inhabited, ?_⟩
  exact holdsSome (denseOrder_reversed denseOrder_compare) inferInstance inhabited

end IntervalAutomata.Interval
