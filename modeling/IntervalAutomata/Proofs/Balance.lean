import IntervalAutomata.Balance
import Mathlib.Algebra.BigOperators.Group.List.Basic

namespace IntervalAutomata.Balance

universe u v

variable {β : Type u} {γ : Type v} (join : β → β → β)

section Fold

variable (unit : β) (op : γ → γ → γ) (neutral : γ) [Std.Associative op]
  [Std.LawfulIdentity op neutral] (read : β → γ)
  (joins : ∀ x y, read (join x y) = op (read x) (read y)) (items : List β)
include joins

theorem joinAll_eq_foldr_of_ne_nil (some : items ≠ []) :
    read (joinAll join unit items) = (items.map read).foldr op neutral := by
  fun_induction joinAll join unit items with
  | case1 => contradiction
  | case2 item =>
    show read item = op (read item) neutral
    exact (Std.LawfulRightIdentity.right_id _).symm
  | case3 first second rest half front back =>
    have apart : ∀ xs ys : List γ, (xs ++ ys).foldr op neutral =
        op (xs.foldr op neutral) (ys.foldr op neutral) := by
      intro xs ys
      induction xs with
      | nil => exact (Std.LawfulLeftIdentity.left_id _).symm
      | cons x xs ih =>
        simp only [List.cons_append, List.foldr_cons, ih]
        exact (Std.Associative.assoc _ _ _).symm
    have split : 0 < half ∧ half < (first :: second :: rest).length := by
      simp only [half, List.length_cons]
      omega
    have frontSome : (first :: second :: rest).take half ≠ [] :=
      List.ne_nil_of_length_pos (by rw [List.length_take]; omega)
    have backSome : (first :: second :: rest).drop half ≠ [] :=
      List.ne_nil_of_length_pos (by rw [List.length_drop]; omega)
    rw [joins, front frontSome, back backSome, ← apart, ← List.map_append,
      List.take_append_drop]

theorem joinAll_eq_foldr (reads : read unit = neutral) :
    read (joinAll join unit items) = (items.map read).foldr op neutral := by
  by_cases none : items = []
  · rw [none, joinAll]
    exact reads
  · exact joinAll_eq_foldr_of_ne_nil join unit op neutral read joins items none

end Fold

theorem copies?_eq_none_iff (item : β) (count : Nat) :
    copies? join item count = none ↔ count = 0 := by
  fun_induction copies? join item count with
  | case1 => simp
  | case2 => simp
  | case3 count positive several ih =>
    rw [Option.map_eq_none_iff, ih]
    omega

theorem copies?_eq_pow [Monoid γ] (read : β → γ)
    (joins : ∀ x y, read (join x y) = read x * read y) (item : β) (count : Nat) :
    (copies? join item count).elim 1 read = read item ^ count := by
  fun_induction copies? join item count with
  | case1 => exact (pow_zero _).symm
  | case2 => exact (pow_one _).symm
  | case3 count positive several ih =>
    obtain ⟨half, found⟩ : ∃ half, copies? join item (count / 2) = some half := by
      apply Option.ne_none_iff_exists'.mp
      rw [ne_eq, copies?_eq_none_iff]
      omega
    rw [found] at ih ⊢
    simp only [Option.map_some, Option.elim_some] at ih ⊢
    by_cases even : count % 2 = 0
    · rw [if_pos even, joins, ih, ← pow_add]
      congr 1
      omega
    · rw [if_neg even, joins, joins, ih, ← pow_add, ← pow_succ']
      congr 1
      omega

end IntervalAutomata.Balance
