import IntervalAutomata.Alphabet.Scalars
import IntervalAutomata.Proofs.Alphabet.Numbered

namespace IntervalAutomata.Scalar

open Std

theorem compare_eq_lt_iff (c d : Char) : compare c d = .lt ↔ c.toNat < d.toNat :=
  compareOfLessAndEq_eq_lt.trans (Char.lt_def.trans UInt32.lt_iff_toNat_lt)

theorem toNat_valid (c : Char) : c.toNat < 0xD800 ∨ 0xDFFF < c.toNat ∧ c.toNat < 0x110000 :=
  c.valid

theorem toNat_ofNat {n : Nat} (valid : n.isValidChar) : (Char.ofNat n).toNat = n := by
  rw [Char.ofNat, dif_pos valid]
  rfl

/-- Two characters with no number between them, or with just the surrogates. -/
def Adjacent (c d : Char) : Prop :=
  (c.toNat = 0xD7FF ∧ d.toNat = 0xE000) ∨ (c.toNat ≠ 0xD7FF ∧ d.toNat = c.toNat + 1)

theorem eq_iff_toNat_eq (c d : Char) : c = d ↔ c.toNat = d.toNat :=
  Char.toNat_inj.symm

theorem next?_eq (c : Char) : Alphabet.next? c =
    if c = Alphabet.greatest then none
    else some (if c = lastBelowGap then firstAboveGap else Char.ofNat (c.toNat + 1)) := by
  rw [apply_ite some]
  rfl

theorem prev?_eq (c : Char) : Alphabet.prev? c =
    if c = Alphabet.least then none
    else some (if c = firstAboveGap then lastBelowGap else Char.ofNat (c.toNat - 1)) := by
  rw [apply_ite some]
  rfl

theorem next?_eq_some_iff_adjacent (c d : Char) : Alphabet.next? c = some d ↔ Adjacent c d := by
  have validC := toNat_valid c
  have validD := toNat_valid d
  have last : (Alphabet.greatest : Char).toNat = 0x10FFFF := by decide
  have below : lastBelowGap.toNat = 0xD7FF := by decide
  have above : firstAboveGap.toNat = 0xE000 := by decide
  simp only [next?_eq, eq_iff_toNat_eq, last, below, Adjacent]
  split
  · constructor
    · nofun
    · omega
  rw [Option.some.injEq, eq_iff_toNat_eq]
  split
  · omega
  · rw [toNat_ofNat (show _ ∨ _ by omega)]
    omega

theorem prev?_eq_some_iff_adjacent (c d : Char) : Alphabet.prev? d = some c ↔ Adjacent c d := by
  have validC := toNat_valid c
  have validD := toNat_valid d
  have first : (Alphabet.least : Char).toNat = 0 := by decide
  have below : lastBelowGap.toNat = 0xD7FF := by decide
  have above : firstAboveGap.toNat = 0xE000 := by decide
  simp only [prev?_eq, eq_iff_toNat_eq, first, above, Adjacent]
  split
  · constructor
    · nofun
    · omega
  rw [Option.some.injEq, eq_iff_toNat_eq]
  split
  · omega
  · rw [toNat_ofNat (show _ ∨ _ by omega)]
    omega

def ofNat? (n : Nat) : Option Char :=
  if n.isValidChar then some (Char.ofNat n) else none

/-- No step depends on what a number without a character would be taken for. -/
theorem next?_eq_ofNat? (c : Char) : Alphabet.next? c =
    if c = Alphabet.greatest then none
    else if c = lastBelowGap then some firstAboveGap
    else ofNat? (c.toNat + 1) := by
  have valid := toNat_valid c
  have last : (Alphabet.greatest : Char).toNat = 0x10FFFF := by decide
  have below : lastBelowGap.toNat = 0xD7FF := by decide
  rw [next?_eq, apply_ite some]
  simp only [eq_iff_toNat_eq, last, below]
  split
  · rfl
  split
  · rfl
  · rw [ofNat?, if_pos (show _ ∨ _ by omega)]

theorem prev?_eq_ofNat? (c : Char) : Alphabet.prev? c =
    if c = Alphabet.least then none
    else if c = firstAboveGap then some lastBelowGap
    else ofNat? (c.toNat - 1) := by
  have valid := toNat_valid c
  have first : (Alphabet.least : Char).toNat = 0 := by decide
  have above : firstAboveGap.toNat = 0xE000 := by decide
  rw [prev?_eq, apply_ite some]
  simp only [eq_iff_toNat_eq, first, above]
  split
  · rfl
  split
  · rfl
  · rw [ofNat?, if_pos (show _ ∨ _ by omega)]

theorem exists_toNat_eq_iff (n : Nat) :
    (∃ c : Char, c.toNat = n) ↔ n < 0xD800 ∨ 0xDFFF < n ∧ n < 0x110000 := by
  constructor
  · intro h
    obtain ⟨c, rfl⟩ := h
    exact toNat_valid c
  · intro valid
    exact ⟨Char.ofNat n, toNat_ofNat valid⟩

def place (c : Char) : Int :=
  if c.toNat < 0xD800 then c.toNat else c.toNat - 0x800

theorem place_cases (c : Char) :
    (c.toNat < 0xD800 ∧ place c = c.toNat) ∨
      (0xDFFF < c.toNat ∧ c.toNat < 0x110000 ∧ place c = c.toNat - 0x800) := by
  have valid := toNat_valid c
  unfold place
  split <;> omega

theorem adjacent_iff_place (c d : Char) : Adjacent c d ↔ place d = place c + 1 := by
  have placedC := place_cases c
  have placedD := place_cases d
  unfold Adjacent
  omega

theorem numbered : Numbered Char place where
  lt_iff c d := by
    have placedC := place_cases c
    have placedD := place_cases d
    rw [compare_eq_lt_iff]
    omega
  least_le c := by
    have placed := place_cases c
    have first : place Alphabet.least = 0 := by decide
    omega
  le_greatest c := by
    have placed := place_cases c
    have last : place Alphabet.greatest = 0x10F7FF := by decide
    omega
  exists_number n low high := by
    rw [show place Alphabet.least = 0 by decide] at low
    rw [show place Alphabet.greatest = 0x10F7FF by decide] at high
    by_cases below : n < 0xD800
    · have placed := place_cases (Char.ofNat n.toNat)
      rw [toNat_ofNat (show _ ∨ _ by omega)] at placed
      exact ⟨Char.ofNat n.toNat, by omega⟩
    · have placed := place_cases (Char.ofNat (n.toNat + 0x800))
      rw [toNat_ofNat (show _ ∨ _ by omega)] at placed
      exact ⟨Char.ofNat (n.toNat + 0x800), by omega⟩
  next?_iff c d := (next?_eq_some_iff_adjacent c d).trans (adjacent_iff_place c d)
  prev?_iff c d := (prev?_eq_some_iff_adjacent c d).trans (adjacent_iff_place c d)

instance : LawfulAlphabet Char :=
  numbered.lawful

end IntervalAutomata.Scalar
