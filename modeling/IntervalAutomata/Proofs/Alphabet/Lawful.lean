import IntervalAutomata.Alphabet.Letter

namespace IntervalAutomata

open Std

universe u

theorem none_between_iff {α : Type u} [Ord α] [OrientedOrd α] (a b : α) :
    (∀ c, compare a c = .lt → (compare b c).isLE) ↔
      ∀ c, compare c b = .lt → (compare c a).isLE := by
  apply forall_congr'
  intro c
  constructor
  · intro reaches below
    by_cases short : (compare c a).isLE
    · exact short
    · have beyond := reaches (OrientedCmp.lt_of_not_isLE short)
      exact absurd beyond (OrientedCmp.not_isLE_of_lt below)
  · intro reaches above
    by_cases beyond : (compare b c).isLE
    · exact beyond
    · have short := reaches (OrientedCmp.lt_of_not_isLE beyond)
      exact absurd short (OrientedCmp.not_isLE_of_lt above)

class LawfulAlphabet (α : Type u) [Ord α] [Alphabet α] : Prop extends
    TransOrd α, LawfulEqOrd α where
  least_isLE (a : α) : (compare Alphabet.least a).isLE
  isLE_greatest (a : α) : (compare a Alphabet.greatest).isLE
  next?_eq_some_iff {a b : α} : Alphabet.next? a = some b ↔
    compare a b = .lt ∧ ∀ c, compare a c = .lt → (compare b c).isLE
  next?_eq_none_iff {a : α} : Alphabet.next? a = none ↔ a = Alphabet.greatest
  prev?_eq_some_iff {a b : α} : Alphabet.prev? a = some b ↔
    compare b a = .lt ∧ ∀ c, compare c a = .lt → (compare c b).isLE
  prev?_eq_none_iff {a : α} : Alphabet.prev? a = none ↔ a = Alphabet.least

namespace LawfulAlphabet

variable {α : Type u} [Ord α] [Alphabet α] [LawfulAlphabet α]

theorem exists_prev_iff (a b : α) :
    (∃ c, Alphabet.prev? b = some c ∧ (compare a c).isLE) ↔ compare a b = .lt := by
  constructor
  · intro h
    obtain ⟨c, found, below⟩ := h
    exact TransCmp.lt_of_isLE_of_lt below (prev?_eq_some_iff.mp found).1
  · intro less
    cases found : Alphabet.prev? b with
    | none =>
      rw [prev?_eq_none_iff.mp found] at less
      exact absurd (least_isLE a) (OrientedCmp.not_isLE_of_lt less)
    | some c => exact ⟨c, rfl, (prev?_eq_some_iff.mp found).2 a less⟩

theorem exists_next_iff (a b : α) :
    (∃ c, Alphabet.next? a = some c ∧ (compare c b).isLE) ↔ compare a b = .lt := by
  constructor
  · intro h
    obtain ⟨c, found, above⟩ := h
    exact TransCmp.lt_of_lt_of_isLE (next?_eq_some_iff.mp found).1 above
  · intro less
    cases found : Alphabet.next? a with
    | none =>
      rw [next?_eq_none_iff.mp found] at less
      exact absurd (isLE_greatest b) (OrientedCmp.not_isLE_of_lt less)
    | some c => exact ⟨c, rfl, (next?_eq_some_iff.mp found).2 b less⟩

theorem next?_eq_some_iff_prev? (a b : α) :
    Alphabet.next? a = some b ↔ Alphabet.prev? b = some a := by
  rw [next?_eq_some_iff, prev?_eq_some_iff, none_between_iff]

end LawfulAlphabet

namespace Letter

instance (p : Letter → Prop) [DecidablePred p] : Decidable (∀ a, p a) :=
  decidable_of_iff (p .A ∧ p .B ∧ p .C ∧ p .D ∧ p .E) <| by
    constructor
    · intro h a
      obtain ⟨hA, hB, hC, hD, hE⟩ := h
      cases a <;> assumption
    · intro h
      exact ⟨h _, h _, h _, h _, h _⟩

theorem compare_eq (a b : Letter) : compare a b = compare a.position b.position := rfl

theorem eq_of_position_eq : ∀ a b : Letter, a.position = b.position → a = b := by
  decide

instance : TransOrd Letter where
  eq_swap {a b} := by
    rw [compare_eq, compare_eq]
    exact OrientedCmp.eq_swap
  isLE_trans {a b c} first second := by
    rw [compare_eq] at *
    exact TransCmp.isLE_trans first second

instance : LawfulEqOrd Letter where
  eq_of_compare {a b} level := by
    rw [compare_eq] at level
    exact eq_of_position_eq a b (LawfulEqCmp.eq_of_compare level)

instance : LawfulAlphabet Letter where
  least_isLE := by decide
  isLE_greatest := by decide
  next?_eq_some_iff {a b} := by
    revert a b
    decide
  next?_eq_none_iff {a} := by
    revert a
    decide
  prev?_eq_some_iff {a b} := by
    revert a b
    decide
  prev?_eq_none_iff {a} := by
    revert a
    decide

end Letter

end IntervalAutomata
