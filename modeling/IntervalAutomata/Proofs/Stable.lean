import Mathlib.Data.List.Sort

/-!
Stable sorting by an order under which different items may be level. Two ascending lists that hold
the same items of each level in the same order are one list, and stable sorting keeps that order.
-/

namespace IntervalAutomata.Stable

open Std

universe u

variable {β : Type u} (cmp : β → β → Ordering)

def sort (items : List β) : List β :=
  items.mergeSort fun a b => (cmp a b).isLE

def level (a : β) (items : List β) : List β :=
  items.filter fun b => cmp a b == .eq

variable {cmp}

theorem level_append (a : β) (front back : List β) :
    level cmp a (front ++ back) = level cmp a front ++ level cmp a back :=
  List.filter_append ..

variable [TransCmp cmp]

theorem total (a b : β) : ((cmp a b).isLE || (cmp b a).isLE) = true := by
  have swapped : cmp b a = (cmp a b).swap := OrientedCmp.eq_swap
  rw [swapped]
  cases cmp a b <;> rfl

theorem ascending_sort (items : List β) :
    (sort cmp items).Pairwise fun a b => (cmp a b).isLE :=
  List.pairwise_mergeSort (fun _ _ _ => TransCmp.isLE_trans) total items

theorem level_sort (a : β) (items : List β) : level cmp a (sort cmp items) = level cmp a items := by
  have ascending : (level cmp a items).Pairwise fun b c => (cmp b c).isLE := by
    apply List.pairwise_of_forall_mem_list
    intro b levelB c levelC
    have same : cmp a b = .eq := by simpa using (List.mem_filter.mp levelB).2
    have other : cmp a c = .eq := by simpa using (List.mem_filter.mp levelC).2
    rw [← TransCmp.congr_left same, other]
    rfl
  have kept : (level cmp a items).Sublist (sort cmp items) :=
    List.sublist_mergeSort (fun _ _ _ => TransCmp.isLE_trans) total ascending List.filter_sublist
  have counted : (level cmp a (sort cmp items)).length = (level cmp a items).length :=
    ((List.mergeSort_perm items _).filter _).length_eq
  have levels : (level cmp a items).Sublist (level cmp a (sort cmp items)) := by
    simpa only [level, List.filter_filter, Bool.and_self] using
      kept.filter fun b => cmp a b == .eq
  exact (levels.eq_of_length counted.symm).symm

variable (cmp) in
theorem mem_level_self (a : β) (items : List β) : a ∈ level cmp a items ↔ a ∈ items := by
  simp [level, ReflCmp.compare_self]

theorem mem_iff_of_levels {xs ys : List β} (same : ∀ a, level cmp a xs = level cmp a ys) (a : β) :
    a ∈ xs ↔ a ∈ ys := by
  rw [← mem_level_self cmp a xs, same, mem_level_self]

theorem eq_of_levels {xs ys : List β} (one : xs.Pairwise fun a b => (cmp a b).isLE)
    (other : ys.Pairwise fun a b => (cmp a b).isLE)
    (same : ∀ a, level cmp a xs = level cmp a ys) : xs = ys := by
  induction xs generalizing ys with
  | nil =>
    symm
    rw [List.eq_nil_iff_forall_not_mem]
    intro a inside
    exact List.not_mem_nil ((mem_iff_of_levels same a).mpr inside)
  | cons x xs ih =>
    cases ys with
    | nil => exact absurd ((mem_iff_of_levels same x).mp List.mem_cons_self) List.not_mem_nil
    | cons y ys =>
      obtain ⟨leastX, tail⟩ := List.pairwise_cons.mp one
      obtain ⟨leastY, otherTail⟩ := List.pairwise_cons.mp other
      have atMost : (cmp x y).isLE := by
        rcases List.mem_cons.mp ((mem_iff_of_levels same y).mpr List.mem_cons_self) with rfl | later
        · exact ReflCmp.isLE_rfl
        · exact leastX y later
      have atLeast : (cmp y x).isLE := by
        rcases List.mem_cons.mp ((mem_iff_of_levels same x).mp List.mem_cons_self) with rfl | later
        · exact ReflCmp.isLE_rfl
        · exact leastY x later
      -- The heads are level, so each is the first of one and the same level.
      have levelXY : cmp x y = .eq := OrientedCmp.isLE_antisymm atMost atLeast
      have heads := same x
      simp only [level, List.filter_cons, levelXY, ReflCmp.compare_self, beq_self_eq_true, if_true,
        List.cons.injEq] at heads
      obtain ⟨rfl, _⟩ := heads
      refine congrArg (List.cons _) (ih tail otherTail fun a => ?_)
      have both := same a
      simp only [level, List.filter_cons] at both
      split at both
      · exact (List.cons.inj both).2
      · exact both

theorem sort_filter (keep : β → Bool) (items : List β) :
    sort cmp (items.filter keep) = (sort cmp items).filter keep := by
  have commute : ∀ (a : β) (xs : List β),
      level cmp a (xs.filter keep) = (level cmp a xs).filter keep := by
    intro a xs
    rw [level, level, List.filter_filter, List.filter_filter]
    simp only [Bool.and_comm]
  apply eq_of_levels (ascending_sort _) ((ascending_sort items).filter keep)
  intro a
  rw [level_sort, commute, commute, level_sort]

theorem sort_concat (items low high : List β) (x : β) (sorted : sort cmp items = low ++ high)
    (atMost : ∀ a ∈ low, (cmp a x).isLE) (beyond : ∀ a ∈ high, cmp x a = .lt) :
    sort cmp (items ++ [x]) = low ++ x :: high := by
  have ascending : (sort cmp items).Pairwise fun a b => (cmp a b).isLE := ascending_sort items
  rw [sorted] at ascending
  obtain ⟨lowAscending, highAscending, across⟩ := List.pairwise_append.mp ascending
  apply eq_of_levels (ascending_sort _)
  · refine List.pairwise_append.mpr ⟨lowAscending, List.pairwise_cons.mpr ⟨?_, highAscending⟩, ?_⟩
    · intro a inHigh
      exact Ordering.isLE_of_eq_lt (beyond a inHigh)
    · intro a inLow b inRest
      rcases List.mem_cons.mp inRest with rfl | inHigh
      · exact atMost a inLow
      · exact across a inLow b inHigh
  · intro a
    have parts : level cmp a items = level cmp a low ++ level cmp a high := by
      rw [← level_sort, sorted, level_append]
    have split : level cmp a (x :: high) = level cmp a [x] ++ level cmp a high :=
      level_append a [x] high
    rw [level_sort, level_append, parts, level_append, split, List.append_assoc]
    congr 1
    by_cases same : cmp a x = .eq
    · have none : level cmp a high = [] := by
        rw [level, List.filter_eq_nil_iff]
        intro b inHigh
        rw [TransCmp.congr_left same, beyond b inHigh]
        decide
      rw [none, List.nil_append, List.append_nil]
    · have none : level cmp a [x] = [] := by simp [level, same]
      rw [none, List.nil_append, List.append_nil]

end IntervalAutomata.Stable
