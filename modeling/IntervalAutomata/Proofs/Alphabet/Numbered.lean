import IntervalAutomata.Proofs.Alphabet.Lawful
import Mathlib.Logic.Equiv.Defs

namespace IntervalAutomata

open Std

universe u

structure Numbered (α : Type u) [Ord α] [Alphabet α] (number : α → Int) : Prop where
  lt_iff : ∀ a b : α, compare a b = .lt ↔ number a < number b
  least_le : ∀ a : α, number Alphabet.least ≤ number a
  le_greatest : ∀ a : α, number a ≤ number Alphabet.greatest
  exists_number : ∀ n, number Alphabet.least ≤ n → n ≤ number Alphabet.greatest →
    ∃ a, number a = n
  next?_iff : ∀ a b : α, Alphabet.next? a = some b ↔ number b = number a + 1
  prev?_iff : ∀ a b : α, Alphabet.prev? b = some a ↔ number b = number a + 1

namespace Numbered

variable {α : Type u} [Ord α] [Alphabet α] [TransOrd α] [LawfulEqOrd α] {number : α → Int}
  (numbered : Numbered α number)
include numbered

omit [LawfulEqOrd α] in
theorem isLE_iff (a b : α) : (compare a b).isLE ↔ number a ≤ number b := by
  rw [← Int.not_lt, ← numbered.lt_iff, Ordering.ne_lt_iff_isGE]
  exact OrientedCmp.isGE_iff_isLE.symm

theorem eq_of_number_eq (a b : α) (level : number a = number b) : a = b := by
  have upTo : (compare a b).isLE := (numbered.isLE_iff a b).mpr (by omega)
  have downTo : (compare b a).isLE := (numbered.isLE_iff b a).mpr (by omega)
  exact LawfulEqCmp.eq_of_compare (OrientedCmp.isLE_antisymm upTo downTo)

omit [LawfulEqOrd α] in
theorem next?_eq_some_iff (a b : α) : Alphabet.next? a = some b ↔
    compare a b = .lt ∧ ∀ c, compare a c = .lt → (compare b c).isLE := by
  simp only [numbered.next?_iff, numbered.lt_iff, numbered.isLE_iff]
  constructor
  · intro follows
    exact ⟨by omega, fun c above => by omega⟩
  · rintro ⟨above, nearest⟩
    have low := numbered.least_le a
    have high := numbered.le_greatest b
    obtain ⟨c, following⟩ := numbered.exists_number (number a + 1) (by omega) (by omega)
    have reached := nearest c (by omega)
    omega

theorem next?_eq_none_iff (a : α) : Alphabet.next? a = none ↔ a = Alphabet.greatest := by
  rw [Option.eq_none_iff_forall_ne_some]
  constructor
  · intro ended
    apply numbered.eq_of_number_eq
    by_contra differ
    have low := numbered.least_le a
    have high := numbered.le_greatest a
    obtain ⟨b, following⟩ := numbered.exists_number (number a + 1) (by omega) (by omega)
    exact ended b ((numbered.next?_iff a b).mpr following)
  · rintro rfl b stepped
    have high := numbered.le_greatest b
    rw [numbered.next?_iff] at stepped
    omega

theorem prev?_eq_none_iff (a : α) : Alphabet.prev? a = none ↔ a = Alphabet.least := by
  rw [Option.eq_none_iff_forall_ne_some]
  constructor
  · intro ended
    apply numbered.eq_of_number_eq
    by_contra differ
    have low := numbered.least_le a
    have high := numbered.le_greatest a
    obtain ⟨b, preceding⟩ := numbered.exists_number (number a - 1) (by omega) (by omega)
    exact ended b ((numbered.prev?_iff b a).mpr (by omega))
  · rintro rfl b stepped
    have low := numbered.least_le b
    rw [numbered.prev?_iff] at stepped
    omega

theorem lawful : LawfulAlphabet α where
  least_isLE a := (numbered.isLE_iff _ a).mpr (numbered.least_le a)
  isLE_greatest a := (numbered.isLE_iff a _).mpr (numbered.le_greatest a)
  next?_eq_some_iff {a b} := numbered.next?_eq_some_iff a b
  next?_eq_none_iff {a} := numbered.next?_eq_none_iff a
  prev?_eq_some_iff {a b} := by
    rw [numbered.prev?_iff, ← numbered.next?_iff, numbered.next?_eq_some_iff, none_between_iff]
  prev?_eq_none_iff {a} := numbered.prev?_eq_none_iff a

end Numbered

/-- A way of reading words as consecutive numbers, from a first word to a last one. -/
structure Counts {w : Nat} (value : BitVec w → Int) (first last : BitVec w) : Prop where
  eq_of_value_eq : ∀ x y, value x = value y → x = y
  first_le : ∀ x, value first ≤ value x
  le_last : ∀ x, value x ≤ value last
  exists_value : ∀ n, value first ≤ n → n ≤ value last → ∃ x, value x = n
  value_add_one : ∀ x, x ≠ last → value (x + 1) = value x + 1

namespace Counts

section Steps

variable {w : Nat} {value : BitVec w → Int} {first last : BitVec w}
  (counts : Counts value first last)
include counts

theorem succ_iff (x y : BitVec w) : (x ≠ last ∧ x + 1 = y) ↔ value y = value x + 1 := by
  constructor
  · rintro ⟨inner, rfl⟩
    exact counts.value_add_one x inner
  · intro follows
    have inner : x ≠ last := by
      rintro rfl
      have high := counts.le_last y
      omega
    have stepped := counts.value_add_one x inner
    exact ⟨inner, counts.eq_of_value_eq _ _ (by omega)⟩

theorem pred_iff (x y : BitVec w) : (y ≠ first ∧ y - 1 = x) ↔ value y = value x + 1 := by
  constructor
  · rintro ⟨inner, rfl⟩
    have differ : value y ≠ value first := fun level => inner (counts.eq_of_value_eq _ _ level)
    have low := counts.first_le y
    have high := counts.le_last y
    obtain ⟨z, preceding⟩ := counts.exists_value (value y - 1) (by omega) (by omega)
    obtain ⟨_, back⟩ := (counts.succ_iff z y).mpr (by omega)
    rw [← back, BitVec.add_sub_cancel, back]
    omega
  · intro follows
    have inner : y ≠ first := by
      rintro rfl
      have low := counts.first_le x
      omega
    obtain ⟨_, stepped⟩ := (counts.succ_iff x y).mpr follows
    rw [← stepped, BitVec.add_sub_cancel, stepped]
    exact ⟨inner, rfl⟩

theorem numbered {α : Type u} [Ord α] [Alphabet α] [DecidableEq α] (bits : α ≃ BitVec w)
    (least : bits Alphabet.least = first) (greatest : bits Alphabet.greatest = last)
    (lt_iff : ∀ a b, compare a b = .lt ↔ value (bits a) < value (bits b))
    (next?_eq : ∀ a, Alphabet.next? a =
      if a = Alphabet.greatest then none else some (bits.symm (bits a + 1)))
    (prev?_eq : ∀ a, Alphabet.prev? a =
      if a = Alphabet.least then none else some (bits.symm (bits a - 1))) :
    Numbered α fun a => value (bits a) where
  lt_iff := lt_iff
  least_le a := by
    rw [least]
    exact counts.first_le (bits a)
  le_greatest a := by
    rw [greatest]
    exact counts.le_last (bits a)
  exists_number n low high := by
    rw [least] at low
    rw [greatest] at high
    obtain ⟨x, read⟩ := counts.exists_value n low high
    refine ⟨bits.symm x, ?_⟩
    rw [bits.apply_symm_apply]
    exact read
  next?_iff a b := by
    rw [next?_eq, Option.ite_none_left_eq_some, Option.some.injEq, bits.symm_apply_eq,
      ← counts.succ_iff, ← greatest, ne_eq, bits.apply_eq_iff_eq]
  prev?_iff a b := by
    rw [prev?_eq, Option.ite_none_left_eq_some, Option.some.injEq, bits.symm_apply_eq,
      ← counts.pred_iff, ← least, ne_eq, bits.apply_eq_iff_eq]

end Steps

theorem toNat (w : Nat) :
    Counts (fun x : BitVec w => (x.toNat : Int)) 0 (BitVec.allOnes w) where
  eq_of_value_eq x y level := BitVec.eq_of_toNat_eq (by omega)
  first_le x := by simp
  le_last x := by
    have bound := x.isLt
    rw [BitVec.toNat_allOnes]
    omega
  exists_value n low high := by
    have positive := Nat.two_pow_pos w
    rw [BitVec.toNat_allOnes] at high
    have nonneg : 0 ≤ n := by simpa using low
    have fits : n.toNat < 2 ^ w := by omega
    refine ⟨BitVec.ofNat w n.toNat, ?_⟩
    rw [BitVec.toNat_ofNat, Nat.mod_eq_of_lt fits]
    omega
  value_add_one x inner := by
    have bound := x.isLt
    have differ : x.toNat ≠ 2 ^ w - 1 := by
      rw [← BitVec.toNat_allOnes]
      exact fun level => inner (BitVec.eq_of_toNat_eq level)
    have one : (1 : BitVec w).toNat = 1 :=
      (BitVec.toNat_ofNat 1 w).trans (Nat.mod_eq_of_lt (by omega))
    rw [BitVec.toNat_add_of_lt (by omega), one]
    rfl

theorem toInt {w : Nat} (wide : 1 < w) :
    Counts (BitVec.toInt) (BitVec.intMin w) (BitVec.intMax w) where
  eq_of_value_eq x y level := BitVec.toInt_inj.mp level
  first_le := BitVec.toInt_intMin_le
  le_last x := by
    rw [BitVec.toInt_intMax]
    exact BitVec.toInt_le
  exists_value n low high := by
    rw [BitVec.toInt_intMin_of_pos (by omega)] at low
    rw [BitVec.toInt_intMax] at high
    exact ⟨BitVec.ofInt w n, BitVec.toInt_ofInt_eq_self (by omega) low (by omega)⟩
  value_add_one x inner := by
    have low := x.le_toInt
    have high : x.toInt ≤ 2 ^ (w - 1) - 1 := BitVec.toInt_le
    have differ : x.toInt ≠ 2 ^ (w - 1) - 1 := by
      rw [← BitVec.toInt_intMax]
      exact fun level => inner (BitVec.toInt_inj.mp level)
    have one : (1 : BitVec w).toInt = 1 := BitVec.toInt_one wide
    have fits : ¬ x.saddOverflow 1 := by
      simp only [BitVec.saddOverflow, one, Bool.or_eq_true, decide_eq_true_eq]
      omega
    rw [BitVec.toInt_add_of_not_saddOverflow fits, one]

end Counts

end IntervalAutomata
