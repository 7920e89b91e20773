import IntervalAutomata.Alphabet.Integers
import IntervalAutomata.Proofs.Alphabet.Numbered
import IntervalAutomata.Proofs.Alphabet.Scalars

namespace IntervalAutomata

open Std

universe u

theorem bits_greatest_usize :
    (Alphabet.greatest : USize).toBitVec = BitVec.allOnes _ := by
  have inhabited := USize.size_pos
  apply BitVec.eq_of_toNat_eq
  rw [BitVec.toNat_allOnes]
  exact USize.toNat_ofNat_of_lt' (by omega)

instance : LawfulAlphabet UInt8 :=
  ((Counts.toNat 8).numbered ⟨UInt8.toBitVec, UInt8.ofBitVec, fun _ => rfl, fun _ => rfl⟩ rfl rfl
    (fun _ _ => compareOfLessAndEq_eq_lt.trans (UInt8.lt_iff_toNat_lt.trans Int.ofNat_lt.symm))
    (fun _ => rfl) (fun _ => rfl)).lawful

instance : LawfulAlphabet UInt16 :=
  ((Counts.toNat 16).numbered ⟨UInt16.toBitVec, UInt16.ofBitVec, fun _ => rfl, fun _ => rfl⟩
    rfl rfl
    (fun _ _ => compareOfLessAndEq_eq_lt.trans (UInt16.lt_iff_toNat_lt.trans Int.ofNat_lt.symm))
    (fun _ => rfl) (fun _ => rfl)).lawful

instance : LawfulAlphabet UInt32 :=
  ((Counts.toNat 32).numbered ⟨UInt32.toBitVec, UInt32.ofBitVec, fun _ => rfl, fun _ => rfl⟩
    rfl rfl
    (fun _ _ => compareOfLessAndEq_eq_lt.trans (UInt32.lt_iff_toNat_lt.trans Int.ofNat_lt.symm))
    (fun _ => rfl) (fun _ => rfl)).lawful

instance : LawfulAlphabet UInt64 :=
  ((Counts.toNat 64).numbered ⟨UInt64.toBitVec, UInt64.ofBitVec, fun _ => rfl, fun _ => rfl⟩
    rfl rfl
    (fun _ _ => compareOfLessAndEq_eq_lt.trans (UInt64.lt_iff_toNat_lt.trans Int.ofNat_lt.symm))
    (fun _ => rfl) (fun _ => rfl)).lawful

instance : LawfulAlphabet USize :=
  ((Counts.toNat _).numbered ⟨USize.toBitVec, USize.ofBitVec, fun _ => rfl, fun _ => rfl⟩
    rfl bits_greatest_usize
    (fun _ _ => compareOfLessAndEq_eq_lt.trans (USize.lt_iff_toNat_lt.trans Int.ofNat_lt.symm))
    (fun _ => rfl) (fun _ => rfl)).lawful

instance : LawfulAlphabet Int8 :=
  ((Counts.toInt (by decide)).numbered
    ⟨Int8.toBitVec, Int8.ofBitVec, fun _ => rfl, fun _ => rfl⟩ rfl rfl
    (fun _ _ => compareOfLessAndEq_eq_lt.trans Int8.lt_iff_toInt_lt)
    (fun _ => rfl) (fun _ => rfl)).lawful

instance : LawfulAlphabet Int16 :=
  ((Counts.toInt (by decide)).numbered
    ⟨Int16.toBitVec, Int16.ofBitVec, fun _ => rfl, fun _ => rfl⟩ rfl rfl
    (fun _ _ => compareOfLessAndEq_eq_lt.trans Int16.lt_iff_toInt_lt)
    (fun _ => rfl) (fun _ => rfl)).lawful

instance : LawfulAlphabet Int32 :=
  ((Counts.toInt (by decide)).numbered
    ⟨Int32.toBitVec, Int32.ofBitVec, fun _ => rfl, fun _ => rfl⟩ rfl rfl
    (fun _ _ => compareOfLessAndEq_eq_lt.trans Int32.lt_iff_toInt_lt)
    (fun _ => rfl) (fun _ => rfl)).lawful

instance : LawfulAlphabet Int64 :=
  ((Counts.toInt (by decide)).numbered
    ⟨Int64.toBitVec, Int64.ofBitVec, fun _ => rfl, fun _ => rfl⟩ rfl rfl
    (fun _ _ => compareOfLessAndEq_eq_lt.trans Int64.lt_iff_toInt_lt)
    (fun _ => rfl) (fun _ => rfl)).lawful

structure StepsToNeighbours (α : Type u) [Ord α] [Alphabet α] : Prop where
  lawful : LawfulAlphabet α
  undone : ∀ a b : α, Alphabet.next? a = some b ↔ Alphabet.prev? b = some a

theorem stepsToNeighbours {α : Type u} [Ord α] [Alphabet α] [LawfulAlphabet α] :
    StepsToNeighbours α where
  lawful := inferInstance
  undone := LawfulAlphabet.next?_eq_some_iff_prev?

/-- Integers of every width, with a sign or without one, and characters are lawful alphabets. The
    characters are those of the numbers that are not surrogates, and their steps go from a number to
    the next one, or in one over the surrogates. No step looks for a character where there is none. -/
theorem alphabets_step_to_neighbours :
    (StepsToNeighbours UInt8 ∧ StepsToNeighbours UInt16 ∧ StepsToNeighbours UInt32 ∧
      StepsToNeighbours UInt64 ∧ StepsToNeighbours USize) ∧
    (StepsToNeighbours Int8 ∧ StepsToNeighbours Int16 ∧ StepsToNeighbours Int32 ∧
      StepsToNeighbours Int64) ∧
    StepsToNeighbours Char ∧
    (∀ n, (∃ c : Char, c.toNat = n) ↔ n < 0xD800 ∨ 0xDFFF < n ∧ n < 0x110000) ∧
    (∀ c d : Char, Alphabet.next? c = some d ↔ Scalar.Adjacent c d) ∧
    (∀ c : Char, Alphabet.next? c =
      if c = Alphabet.greatest then none
      else if c = Scalar.lastBelowGap then some Scalar.firstAboveGap
      else Scalar.ofNat? (c.toNat + 1)) ∧
    (∀ c : Char, Alphabet.prev? c =
      if c = Alphabet.least then none
      else if c = Scalar.firstAboveGap then some Scalar.lastBelowGap
      else Scalar.ofNat? (c.toNat - 1)) := by
  refine ⟨?unsigned, ?signed, stepsToNeighbours, Scalar.exists_toNat_eq_iff,
    Scalar.next?_eq_some_iff_adjacent, Scalar.next?_eq_ofNat?, Scalar.prev?_eq_ofNat?⟩
  case unsigned =>
    exact ⟨stepsToNeighbours, stepsToNeighbours, stepsToNeighbours, stepsToNeighbours,
      stepsToNeighbours⟩
  case signed =>
    exact ⟨stepsToNeighbours, stepsToNeighbours, stepsToNeighbours, stepsToNeighbours⟩

end IntervalAutomata
