import IntervalAutomata.Balance
import Mathlib.Data.Finset.Card
import Mathlib.Data.Nat.Log

namespace IntervalAutomata.Balance

universe u

variable {β : Type u}

inductive Joined (β : Type u) where
  | item (x : β)
  | node (front back : Joined β)

namespace Joined

def items : Joined β → List β
  | item x => [x]
  | node front back => front.items ++ back.items

def height : Joined β → Nat
  | item _ => 0
  | node front back => max front.height back.height + 1

variable (join : β → β → β)

def value : Joined β → β
  | item x => x
  | node front back => join front.value back.value

/-- The values of the joins, equal ones once. -/
def joins [DecidableEq β] : Joined β → Finset β
  | item _ => ∅
  | node front back => insert (join (front.value join) (back.value join)) (front.joins ∪ back.joins)

theorem card_joins_twice_le [DecidableEq β] (half : Joined β) :
    ((node half half).joins join).card ≤ (half.joins join).card + 1 := by
  rw [joins, Finset.union_self]
  exact Finset.card_insert_le _ _

theorem card_joins_behind_le [DecidableEq β] (x : β) (back : Joined β) :
    ((node (item x) back).joins join).card ≤ (back.joins join).card + 1 := by
  rw [joins, joins, Finset.empty_union]
  exact Finset.card_insert_le _ _

end Joined

variable (join : β → β → β)

theorem clog_eq_of_halves {n : Nat} (several : 2 ≤ n) :
    max (Nat.clog 2 (n / 2)) (Nat.clog 2 (n - n / 2)) + 1 = Nat.clog 2 n := by
  have larger : Nat.clog 2 (n / 2) ≤ Nat.clog 2 (n - n / 2) :=
    Nat.clog_mono_right 2 (by omega)
  have back : n - n / 2 = (n + 1) / 2 := by omega
  rw [max_eq_right larger, back]
  simpa using (Nat.clog_of_two_le Nat.one_lt_two several).symm

theorem joinAll_eq_value (unit : β) (items : List β) (some : items ≠ []) :
    ∃ tree : Joined β, joinAll join unit items = tree.value join ∧ tree.items = items ∧
      tree.height = Nat.clog 2 items.length := by
  fun_induction joinAll join unit items with
  | case1 => contradiction
  | case2 item => exact ⟨.item item, rfl, rfl, by simp [Joined.height]⟩
  | case3 first second rest half ihFront ihBack =>
    have several : 2 ≤ (first :: second :: rest).length := by simp
    have front : ((first :: second :: rest).take half).length = half := by
      rw [List.length_take]
      omega
    have back : ((first :: second :: rest).drop half).length =
        (first :: second :: rest).length - half := List.length_drop
    obtain ⟨left, leftValue, leftItems, leftHeight⟩ :=
      ihFront (List.ne_nil_of_length_pos (by omega))
    obtain ⟨right, rightValue, rightItems, rightHeight⟩ :=
      ihBack (List.ne_nil_of_length_pos (by omega))
    refine ⟨.node left right, ?_, ?_, ?_⟩
    · rw [leftValue, rightValue, Joined.value]
    · rw [Joined.items, leftItems, rightItems, List.take_append_drop]
    · rw [Joined.height, leftHeight, rightHeight, front, back]
      exact clog_eq_of_halves several

/-- Halving a count takes away one level of doubling, and an odd copy costs another. -/
theorem copies?_eq_value [DecidableEq β] (item : β) (count : Nat) (positive : 0 < count) :
    ∃ tree : Joined β, copies? join item count = some (tree.value join) ∧
      tree.items = List.replicate count item ∧ tree.height ≤ 2 * Nat.log 2 count ∧
      (tree.joins join).card ≤ 2 * Nat.log 2 count := by
  fun_induction copies? join item count with
  | case1 => contradiction
  | case2 => exact ⟨.item item, rfl, rfl, Nat.zero_le _, Nat.zero_le _⟩
  | case3 count _ several ih =>
    obtain ⟨half, value, items, height, card⟩ := ih (by omega)
    have level : Nat.log 2 count = Nat.log 2 (count / 2) + 1 :=
      Nat.log_of_one_lt_of_le Nat.one_lt_two (by omega)
    have doubled : (Joined.node half half).height = half.height + 1 := by
      rw [Joined.height, max_self]
    have doubledCard := half.card_joins_twice_le join
    by_cases even : count % 2 = 0
    · refine ⟨.node half half, ?_, ?_, by omega, by omega⟩
      · simp only [value, Option.map_some, if_pos even, Joined.value]
      · rw [Joined.items, items, List.replicate_append_replicate]
        congr 1
        omega
    · have behind : (Joined.node (.item item) (.node half half)).height = half.height + 2 := by
        rw [Joined.height, doubled, Joined.height, Nat.zero_max]
      have behindCard := (Joined.node half half).card_joins_behind_le join item
      refine ⟨.node (.item item) (.node half half), ?_, ?_, by omega, by omega⟩
      · simp only [value, Option.map_some, if_neg even, Joined.value]
      · rw [Joined.items, Joined.items, Joined.items, items, List.replicate_append_replicate]
        show List.replicate (count / 2 + count / 2 + 1) item = _
        congr 1
        omega

end IntervalAutomata.Balance
