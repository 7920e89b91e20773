import IntervalAutomata.Proofs.Interval.Partition
import Mathlib.Data.List.Forall2

namespace IntervalAutomata

open Std

universe u

variable {α : Type u} {cmp : α → α → Ordering}

theorem Cut.compare_congr [TransCmp cmp] {c c' d d' : Cut α} (one : c.compare cmp c' = .eq)
    (other : d.compare cmp d' = .eq) : c.compare cmp d = c'.compare cmp d' :=
  (TransCmp.congr_left one).trans (TransCmp.congr_right other)

namespace Bound

theorem sameBy_iff_compareLower (a b : Bound α) :
    a.sameBy cmp b = true ↔ a.compareLower cmp b = .eq := by
  cases a <;> cases b <;> simp [sameBy, compareLower]

theorem sameBy_iff_compareUpper (a b : Bound α) :
    a.sameBy cmp b = true ↔ a.compareUpper cmp b = .eq := by
  cases a <;> cases b <;> simp [sameBy, compareUpper]

@[simp] theorem sameBy_flip (a b : Bound α) : a.flip.sameBy cmp b.flip = a.sameBy cmp b := by
  cases a <;> cases b <;> rfl

end Bound

namespace Interval

theorem sameBy_iff (i j : Interval α) :
    i.sameBy cmp j = true ↔
      i.start.compare cmp j.start = .eq ∧ i.stop.compare cmp j.stop = .eq := by
  rw [sameBy, Bool.and_eq_true, Bound.sameBy_iff_compareLower, Bound.sameBy_iff_compareUpper,
    Bound.compareUpper_eq]
  rfl

theorem sameBy_iff_order (i j : Interval α) : i.sameBy cmp j = true ↔ i.order cmp j = .eq := by
  rw [sameBy_iff, order, Ordering.then_eq_eq]

namespace Relation

inductive Kind where
  | disjoint
  | touching
  | overlapping
  | containing
  | starting
  | finishing
  | equal
deriving DecidableEq

def kind : Relation α → Kind
  | disjoint _ _ => .disjoint
  | touching _ _ => .touching
  | overlapping _ _ _ => .overlapping
  | containing _ _ _ => .containing
  | starting _ _ => .starting
  | finishing _ _ => .finishing
  | equal _ => .equal

def SameBy (cmp : α → α → Ordering) (r s : Relation α) : Prop :=
  r.kind = s.kind ∧ List.Forall₂ (fun p q => p.sameBy cmp q = true) r.pieces s.pieces

end Relation

theorem kind_relate_ne_equal (first second : Interval α) :
    (relate cmp first second).kind ≠ .equal := by
  unfold relate cut
  repeat' split
  all_goals simp [Relation.kind]

variable [TransCmp cmp]

theorem kind_relationBy_eq_equal_iff (i j : Interval α) :
    (i.relationBy cmp j).kind = .equal ↔ i.sameBy cmp j = true := by
  rw [relationBy_eq, sameBy_iff_order]
  cases i.order cmp j with
  | eq => simp [Relation.kind]
  | lt => simp [kind_relate_ne_equal]
  | gt => simp [kind_relate_ne_equal]

theorem relationBy_comm (i j : Interval α) (differ : (i.relationBy cmp j).kind ≠ .equal) :
    i.relationBy cmp j = j.relationBy cmp i := by
  rw [ne_eq, kind_relationBy_eq_equal_iff, sameBy_iff_order] at differ
  rw [relationBy_eq, relationBy_eq, order_swap j i]
  cases placed : i.order cmp j with
  | eq => contradiction
  | lt => rfl
  | gt => rfl

variable {i i' j j' first first' second second' : Interval α}

theorem sameBy_trans (left : i.sameBy cmp j = true) (right : j.sameBy cmp j' = true) :
    i.sameBy cmp j' = true := by
  obtain ⟨starts, stops⟩ := (sameBy_iff i j).mp left
  obtain ⟨starts', stops'⟩ := (sameBy_iff j j').mp right
  exact (sameBy_iff i j').mpr ⟨TransCmp.eq_trans starts starts', TransCmp.eq_trans stops stops'⟩

theorem order_congr (left : i.sameBy cmp i' = true) (right : j.sameBy cmp j' = true) :
    i.order cmp j = i'.order cmp j' := by
  obtain ⟨starts, stops⟩ := (sameBy_iff i i').mp left
  obtain ⟨starts', stops'⟩ := (sameBy_iff j j').mp right
  rw [order, order, Cut.compare_congr starts starts', Cut.compare_congr stops stops']

theorem sameBy_cut (o p : Ordering) (left : first.sameBy cmp first' = true)
    (right : second.sameBy cmp second' = true) :
    (cut cmp o p first second).SameBy cmp (cut cmp o p first' second') := by
  have stops : first.upper.compareUpper cmp second.upper =
      first'.upper.compareUpper cmp second'.upper := by
    rw [Bound.compareUpper_eq, Bound.compareUpper_eq]
    exact Cut.compare_congr ((sameBy_iff _ _).mp left).2 ((sameBy_iff _ _).mp right).2
  have bounds := Bool.and_eq_true_iff.mp left
  have bounds' := Bool.and_eq_true_iff.mp right
  unfold cut
  rw [stops]
  repeat' split
  all_goals simp [Relation.SameBy, Relation.kind, Relation.pieces, sameBy, bounds, bounds']

theorem sameBy_relate (left : first.sameBy cmp first' = true)
    (right : second.sameBy cmp second' = true) :
    (relate cmp first second).SameBy cmp (relate cmp first' second') := by
  obtain ⟨starts, stops⟩ := (sameBy_iff _ _).mp left
  obtain ⟨starts', stops'⟩ := (sameBy_iff _ _).mp right
  unfold relate
  rw [Cut.compare_congr stops starts', Cut.compare_congr starts starts',
    Cut.compare_congr stops stops']
  cases first'.stop.compare cmp second'.start with
  | lt => simp [Relation.SameBy, Relation.kind, Relation.pieces, left, right]
  | eq => simp [Relation.SameBy, Relation.kind, Relation.pieces, left, right]
  | gt => exact sameBy_cut _ _ left right

theorem sameBy_relationBy (left : i.sameBy cmp i' = true) (right : j.sameBy cmp j' = true) :
    (i.relationBy cmp j).SameBy cmp (j'.relationBy cmp i') := by
  rw [relationBy_eq, relationBy_eq, order_swap j' i', ← order_congr left right]
  cases placed : i.order cmp j with
  | lt => exact sameBy_relate left right
  | gt => exact sameBy_relate right left
  | eq =>
    have level : i.sameBy cmp j' = true :=
      sameBy_trans ((sameBy_iff_order i j).mpr placed) right
    simp [Relation.SameBy, Relation.kind, Relation.pieces, level]

/-- The relation of two intervals depends on the two alone, not on which of them asks, and on their
    bounds only up to the order. Intervals without values are not excepted. -/
theorem relationBy_unordered (i i' j j' : Interval α) (left : i.sameBy cmp i' = true)
    (right : j.sameBy cmp j' = true) :
    (i.relationBy cmp j).SameBy cmp (j'.relationBy cmp i') ∧
      ((i.relationBy cmp j).kind = .equal ↔ i.sameBy cmp j = true) ∧
      ((i.relationBy cmp j).kind ≠ .equal → i.relationBy cmp j = j.relationBy cmp i) :=
  ⟨sameBy_relationBy left right, kind_relationBy_eq_equal_iff i j, relationBy_comm i j⟩

/-- No distance is as far as that of `-5` and nearer than that of `5`. -/
def noDistance : Interval Int := ⟨.inclusive (-5), .exclusive 5⟩

def beyondTwo : Interval Int := ⟨.exclusive 2, .unbounded⟩

theorem relationBy_noDistance :
    noDistance.isEmptyBy byDistance = true ∧
    noDistance.relationBy byDistance beyondTwo =
      .containing ⟨.exclusive 2, .exclusive (-5)⟩ noDistance ⟨.inclusive 5, .unbounded⟩ ∧
    (noDistance.relationBy byDistance beyondTwo).SameBy byDistance
      ((Interval.mk (.exclusive (-2)) .unbounded).relationBy byDistance
        ⟨.inclusive 5, .exclusive (-5)⟩) ∧
    noDistance.relationBy byDistance beyondTwo = beyondTwo.relationBy byDistance noDistance := by
  have comparing : TransCmp byDistance := inferInstanceAs (TransCmp (compareOn Int.natAbs))
  have mirrored : noDistance.sameBy byDistance ⟨.inclusive 5, .exclusive (-5)⟩ = true := by decide
  have mirrored' : beyondTwo.sameBy byDistance ⟨.exclusive (-2), .unbounded⟩ = true := by decide
  obtain ⟨same, _, unordered⟩ := relationBy_unordered _ _ _ _ mirrored mirrored'
  exact ⟨by decide, by decide, same, unordered (by decide)⟩

end Interval

end IntervalAutomata
