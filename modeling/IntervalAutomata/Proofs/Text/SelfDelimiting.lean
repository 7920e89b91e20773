import IntervalAutomata.Text.Quoted
import Mathlib.Logic.Function.Defs

/-!
Texts that tell where they end: whatever stands behind one, what is written and what is left can be
read off. Numbers up to a mark are such texts, and quoted ones are.
-/

namespace IntervalAutomata.Text

universe u

variable {β : Type u}

def SelfDelimiting (code : β → List Char) : Prop :=
  ∀ {x y : β} {r s : List Char}, code x ++ r = code y ++ s → x = y ∧ r = s

/-- Texts in a row tell the list of them, if what follows the row does not begin with another. -/
theorem SelfDelimiting.flatMap {code : β → List Char} (each : SelfDelimiting code)
    {r s : List Char} (endR : ∀ x t, code x ++ t ≠ r) (endS : ∀ x t, code x ++ t ≠ s)
    {xs ys : List β} (same : xs.flatMap code ++ r = ys.flatMap code ++ s) : xs = ys ∧ r = s := by
  induction xs generalizing ys with
  | nil =>
    cases ys with
    | nil => exact ⟨rfl, same⟩
    | cons y ys =>
      -- the second list goes on where the first has ended
      rw [List.flatMap_cons, List.append_assoc] at same
      exact absurd same.symm (endR y _)
  | cons x xs ih =>
    cases ys with
    | nil =>
      rw [List.flatMap_cons, List.append_assoc] at same
      exact absurd same (endS x _)
    | cons y ys =>
      rw [List.flatMap_cons, List.flatMap_cons, List.append_assoc, List.append_assoc] at same
      obtain ⟨rfl, behind⟩ := each same
      obtain ⟨rfl, rest⟩ := ih behind
      exact ⟨rfl, rest⟩

theorem eq_of_until {mark : Char} {xs ys r s : List Char} (inX : mark ∉ xs) (inY : mark ∉ ys)
    (same : xs ++ mark :: r = ys ++ mark :: s) : xs = ys ∧ r = s := by
  induction xs generalizing ys with
  | nil =>
    cases ys with
    | nil => exact ⟨rfl, List.tail_eq_of_cons_eq same⟩
    | cons y ys =>
      have head : mark = y := List.head_eq_of_cons_eq same
      exact absurd (head ▸ List.mem_cons_self) inY
  | cons x xs ih =>
    cases ys with
    | nil =>
      have head : x = mark := List.head_eq_of_cons_eq same
      exact absurd (head ▸ List.mem_cons_self) inX
    | cons y ys =>
      obtain ⟨rfl, behind⟩ := List.cons_eq_cons.mp same
      obtain ⟨rfl, rest⟩ := ih (List.not_mem_of_not_mem_cons inX)
        (List.not_mem_of_not_mem_cons inY) behind
      exact ⟨rfl, rest⟩

theorem digitChar_inj : ∀ m < 16, ∀ n < 16, Nat.digitChar m = Nat.digitChar n → m = n := by
  decide

theorem toDigits_eq_append {base : Nat} (large : 1 < base) (n : Nat) :
    base.toDigits n =
      (if n < base then [] else base.toDigits (n / base)) ++ [(n % base).digitChar] := by
  split
  · rename_i small
    rw [Nat.toDigits_of_lt_base small, Nat.mod_eq_of_lt small, List.nil_append]
  · rename_i long
    exact Nat.toDigits_of_base_le large (Nat.le_of_not_lt long)

theorem exists_digit_of_mem_toDigits {base : Nat} (large : 1 < base) {n : Nat} {c : Char}
    (member : c ∈ base.toDigits n) : ∃ d < base, c = d.digitChar := by
  induction n using Nat.strongRecOn with
  | ind n ih =>
    rw [toDigits_eq_append large, List.mem_append, List.mem_singleton] at member
    rcases member with front | last
    · split at front
      · contradiction
      · rename_i long
        exact ih (n / base) (Nat.div_lt_self (by omega) large) front
    · exact ⟨n % base, Nat.mod_lt n (by omega), last⟩

theorem toDigits_injective {base : Nat} (large : 1 < base) (small : base ≤ 16) :
    Function.Injective base.toDigits := by
  intro m n same
  induction m using Nat.strongRecOn generalizing n with
  | ind m ih =>
    rw [toDigits_eq_append large m, toDigits_eq_append large n] at same
    obtain ⟨fronts, lasts⟩ := List.append_inj' same rfl
    have mod : m % base = n % base := by
      have below : ∀ k, k % base < 16 := fun k =>
        Nat.lt_of_lt_of_le (Nat.mod_lt k (by omega)) small
      exact digitChar_inj _ (below m) _ (below n) (List.head_eq_of_cons_eq lasts)
    -- the digits in front are those of the quotient, or none below the base
    split at fronts <;> split at fronts
    · rename_i shortM shortN
      rwa [Nat.mod_eq_of_lt shortM, Nat.mod_eq_of_lt shortN] at mod
    · exact absurd fronts.symm Nat.toDigits_ne_nil
    · exact absurd fronts Nat.toDigits_ne_nil
    · have div := ih (m / base) (Nat.div_lt_self (by omega) large) fronts
      rw [← Nat.div_add_mod m base, ← Nat.div_add_mod n base, div, mod]

theorem digits_until {base : Nat} (large : 1 < base) (small : base ≤ 16) {mark : Char}
    (apart : ∀ d < 16, Nat.digitChar d ≠ mark) {m n : Option Nat} {r s : List Char}
    (same : m.elim [] base.toDigits ++ mark :: r = n.elim [] base.toDigits ++ mark :: s) :
    m = n ∧ r = s := by
  have absent : ∀ k : Option Nat, mark ∉ k.elim [] base.toDigits := by
    intro k member
    cases k with
    | none => contradiction
    | some k =>
      obtain ⟨d, below, written⟩ := exists_digit_of_mem_toDigits large member
      exact apart d (Nat.lt_of_lt_of_le below small) written.symm
  obtain ⟨digits, rest⟩ := eq_of_until (absent m) (absent n) same
  refine ⟨?_, rest⟩
  cases m <;> cases n
  · rfl
  · exact absurd digits.symm Nat.toDigits_ne_nil
  · exact absurd digits Nat.toDigits_ne_nil
  · exact congrArg some (toDigits_injective large small digits)

theorem toDigits_until {base : Nat} (large : 1 < base) (small : base ≤ 16) {mark : Char}
    (apart : ∀ d < 16, Nat.digitChar d ≠ mark) {m n : Nat} {r s : List Char}
    (same : base.toDigits m ++ mark :: r = base.toDigits n ++ mark :: s) : m = n ∧ r = s := by
  obtain ⟨number, rest⟩ := digits_until large small apart (m := some m) (n := some n) same
  exact ⟨Option.some.inj number, rest⟩

def marked : Char → Char
  | '0' => '\x00'
  | 't' => '\t'
  | 'r' => '\r'
  | 'n' => '\n'
  | c => c

/-- A delimiter that cannot be taken for the start or the meaning of a mark. -/
structure Delimits (delimiter : Char) : Prop where
  ne_backslash : delimiter ≠ '\\'
  ne_number : delimiter ≠ 'u'
  plain : marked delimiter = delimiter

inductive Escaped (delimiter : Char) : Char → List Char → Prop where
  | plain {c : Char} (unmarked : c ≠ '\\') (inside : c ≠ delimiter) : Escaped delimiter c [c]
  | marked (mark : Char) (short : mark ≠ 'u') : Escaped delimiter (marked mark) ['\\', mark]
  | numbered (c : Char) :
    Escaped delimiter c ('\\' :: 'u' :: '\x7b' :: (Nat.toDigits 16 c.toNat ++ ['\x7d']))

variable {delimiter : Char}

theorem escaped_escape (delimits : Delimits delimiter) (c : Char) :
    Escaped delimiter c (escape delimiter c).toList := by
  unfold escape
  split
  · rename_i zero
    rw [zero]
    exact .marked '0' (by decide)
  split
  · rename_i tab
    rw [tab]
    exact .marked 't' (by decide)
  split
  · rename_i carriage
    rw [carriage]
    exact .marked 'r' (by decide)
  split
  · rename_i line
    rw [line]
    exact .marked 'n' (by decide)
  split
  · rename_i itself
    rw [String.toList_append, Char.toString, String.toList_singleton]
    rcases itself with rfl | rfl
    · exact .marked '\\' (by decide)
    · have written : Escaped c (marked c) ['\\', c] := .marked c delimits.ne_number
      rwa [delimits.plain] at written
  rename_i other
  split
  · simp only [String.toList_append, String.toList_ofList]
    exact .numbered c
  · rw [Char.toString, String.toList_singleton]
    exact .plain (fun same => other (.inl same)) (fun same => other (.inr same))

theorem Escaped.unique {x y : Char} {v w r s : List Char} (first : Escaped delimiter x v)
    (second : Escaped delimiter y w) (same : v ++ r = w ++ s) : x = y ∧ r = s := by
  cases first with
  | plain unmarked _ =>
    cases second with
    | plain => exact List.cons_eq_cons.mp same
    | marked => exact absurd (List.head_eq_of_cons_eq same) unmarked
    | numbered => exact absurd (List.head_eq_of_cons_eq same) unmarked
  | marked mark short =>
    cases second with
    | plain unmarked _ => exact absurd (List.head_eq_of_cons_eq same).symm unmarked
    | marked other _ =>
      obtain ⟨rfl, rest⟩ := List.cons_eq_cons.mp (List.tail_eq_of_cons_eq same)
      exact ⟨rfl, rest⟩
    | numbered =>
      exact absurd (List.head_eq_of_cons_eq (List.tail_eq_of_cons_eq same)) short
  | numbered =>
    cases second with
    | plain unmarked _ => exact absurd (List.head_eq_of_cons_eq same).symm unmarked
    | marked mark short =>
      exact absurd (List.head_eq_of_cons_eq (List.tail_eq_of_cons_eq same)).symm short
    | numbered =>
      simp only [List.cons_append, List.append_assoc, List.nil_append, List.cons.injEq,
        true_and] at same
      obtain ⟨number, rest⟩ := toDigits_until (by decide) (by decide) (by decide) same
      exact ⟨Char.toNat_inj.mp number, rest⟩

theorem Escaped.ne_delimiter (delimits : Delimits delimiter) {c : Char} {w : List Char}
    (written : Escaped delimiter c w) (r s : List Char) : w ++ r ≠ delimiter :: s := by
  intro same
  cases written with
  | plain _ inside => exact inside (List.head_eq_of_cons_eq same)
  | marked => exact delimits.ne_backslash (List.head_eq_of_cons_eq same).symm
  | numbered => exact delimits.ne_backslash (List.head_eq_of_cons_eq same).symm

theorem toList_quote (delimiter : Char) (text : List Char) :
    (quote delimiter text).toList =
      delimiter :: (text.flatMap (fun c => (escape delimiter c).toList) ++ [delimiter]) := by
  simp [quote, Char.toString, String.toList_append, String.toList_join, List.flatMap_map]

theorem selfDelimiting_quote (delimits : Delimits delimiter) :
    SelfDelimiting fun text => (quote delimiter text).toList := by
  intro x y r s same
  have each : SelfDelimiting fun c => (escape delimiter c).toList :=
    fun same => (escaped_escape delimits _).unique (escaped_escape delimits _) same
  have ends : ∀ t c u, (escape delimiter c).toList ++ u ≠ delimiter :: t :=
    fun t c u => (escaped_escape delimits c).ne_delimiter delimits u t
  simp only [toList_quote, List.cons_append, List.append_assoc, List.nil_append, List.cons.injEq,
    true_and] at same
  obtain ⟨texts, rest⟩ := each.flatMap (ends r) (ends s) same
  exact ⟨texts, List.tail_eq_of_cons_eq rest⟩

end IntervalAutomata.Text
