import IntervalAutomata.Interval.Relation
import IntervalAutomata.Proofs.Bound.LowerOrder

/-!
Cuts of a line of values. A lower bound cuts the line in front of what it admits and an upper bound
behind it, so that a flipped bound is the same cut seen from its other side. Whatever is asked of two
bounds, of either kind, is one comparison of their cuts.
-/

namespace IntervalAutomata

open Std

universe u

inductive Cut (α : Type u) where
  | before (lower : Bound α)
  | behindAll

variable {α : Type u} {cmp : α → α → Ordering}

namespace Cut

protected def compare (cmp : α → α → Ordering) : Cut α → Cut α → Ordering
  | before a, before b => a.compareLower cmp b
  | before _, behindAll => .lt
  | behindAll, before _ => .gt
  | behindAll, behindAll => .eq

instance [TransCmp cmp] : TransCmp (Cut.compare cmp) where
  eq_swap {c d} := by
    cases c <;> cases d
    case before.before a b => exact Bound.compareLower_swap a b
    all_goals rfl
  isLE_trans {c d e} first second := by
    cases c <;> cases d <;> cases e
    case before.before.before a b c => exact Bound.compareLower_trans a b c first second
    all_goals first | rfl | contradiction

def precedes (cmp : α → α → Ordering) : Cut α → α → Bool
  | before lower, v => lower.admitsAbove cmp v
  | behindAll, _ => false

theorem precedes_of_isLE [TransCmp cmp] {c d : Cut α} {v : α} (ordered : (c.compare cmp d).isLE)
    (behind : d.precedes cmp v = true) : c.precedes cmp v = true := by
  cases d with
  | behindAll => contradiction
  | before b =>
    cases c with
    | behindAll => contradiction
    | before a => exact Bound.admitsAbove_of_isLE a b v ordered behind

theorem not_precedes_of_isLE [TransCmp cmp] {c d : Cut α} {v : α}
    (ordered : (c.compare cmp d).isLE) (front : c.precedes cmp v = false) :
    d.precedes cmp v = false := by
  rw [← Bool.not_eq_true] at front ⊢
  exact mt (precedes_of_isLE ordered) front

theorem exists_last (cmp : α → α → Ordering) [TransCmp cmp] (c d : Cut α) :
    ∃ m, (m = c ∨ m = d) ∧ (c.compare cmp m).isLE ∧ (d.compare cmp m).isLE := by
  by_cases less : c.compare cmp d = .lt
  · exact ⟨d, .inr rfl, Ordering.isLE_of_eq_lt less, ReflCmp.isLE_rfl⟩
  · exact ⟨c, .inl rfl, ReflCmp.isLE_rfl, isLE_of_ne_lt less⟩

theorem exists_first (cmp : α → α → Ordering) [TransCmp cmp] (c d : Cut α) :
    ∃ m, (m = c ∨ m = d) ∧ (m.compare cmp c).isLE ∧ (m.compare cmp d).isLE := by
  by_cases less : c.compare cmp d = .lt
  · exact ⟨c, .inl rfl, ReflCmp.isLE_rfl, Ordering.isLE_of_eq_lt less⟩
  · exact ⟨d, .inr rfl, isLE_of_ne_lt less, ReflCmp.isLE_rfl⟩

theorem precedes_of_lt [TransCmp cmp] {c d : Cut α} (less : c.compare cmp d = .lt) {v : α}
    (behind : d.precedes cmp v = true) : c.precedes cmp v = true :=
  precedes_of_isLE (Ordering.isLE_of_eq_lt less) behind

theorem precedes_eq_of_level [TransCmp cmp] {c d : Cut α} (level : c.compare cmp d = .eq) (v : α) :
    c.precedes cmp v = d.precedes cmp v := by
  have back : d.compare cmp c = .eq := OrientedCmp.eq_symm level
  apply Bool.eq_iff_iff.mpr
  constructor
  · exact precedes_of_isLE (Ordering.isLE_of_eq_eq back)
  · exact precedes_of_isLE (Ordering.isLE_of_eq_eq level)

theorem lt_of_precedes [TransCmp cmp] {c : Cut α} {v w : α} (front : c.precedes cmp v = false)
    (behind : c.precedes cmp w = true) : cmp v w = .lt := by
  cases c with
  | behindAll => contradiction
  | before b =>
    cases b with
    | unbounded => contradiction
    | inclusive l =>
      have below := (Bound.admitsAbove_inclusive_eq_false l v).mp front
      exact TransCmp.lt_of_lt_of_isLE below ((Bound.admitsAbove_inclusive l w).mp behind)
    | exclusive l =>
      have upTo := (Bound.admitsAbove_exclusive_eq_false l v).mp front
      exact TransCmp.lt_of_isLE_of_lt upTo ((Bound.admitsAbove_exclusive l w).mp behind)

end Cut

namespace Bound

def stopCut : Bound α → Cut α
  | unbounded => .behindAll
  | inclusive u => .before (exclusive u)
  | exclusive u => .before (inclusive u)

theorem compareUpper_eq (a b : Bound α) :
    a.compareUpper cmp b = a.stopCut.compare cmp b.stopCut := by
  cases a <;> cases b <;> rfl

theorem admitsBelow_eq (b : Bound α) (v : α) :
    b.admitsBelow cmp v = !b.stopCut.precedes cmp v := by
  cases b with
  | unbounded => rfl
  | inclusive u => rfl
  | exclusive u => exact (Bool.not_not _).symm

theorem junction_eq (upper lower : Bound α) :
    upper.junction cmp lower =
      match upper.stopCut.compare cmp (.before lower) with
      | .lt => .gap
      | .eq => .touch
      | .gt => .overlap := by
  cases upper <;> cases lower
  case inclusive.inclusive u l =>
    simp only [junction, stopCut, Cut.compare, compareLower]
    cases cmp u l <;> rfl
  case exclusive.exclusive u l =>
    simp only [junction, stopCut, Cut.compare, compareLower]
    cases cmp u l <;> rfl
  all_goals rfl

/-- A flipped upper bound starts where the bound stopped. -/
theorem before_flip {upper : Bound α} {c : Cut α} (bounded : upper.stopCut.compare cmp c = .lt) :
    .before upper.flip = upper.stopCut := by
  cases upper with
  | unbounded => cases c <;> contradiction
  | inclusive u => rfl
  | exclusive u => rfl

theorem stopCut_flip {lower : Bound α} {c : Cut α}
    (bounded : c.compare cmp (.before lower) = .lt) : lower.flip.stopCut = .before lower := by
  cases lower with
  | unbounded =>
    cases c with
    | behindAll => contradiction
    | before b => cases b <;> contradiction
  | inclusive l => rfl
  | exclusive l => rfl

end Bound

namespace Interval

def start (i : Interval α) : Cut α := .before i.lower

def stop (i : Interval α) : Cut α := i.upper.stopCut

theorem containsBy_iff (i : Interval α) (v : α) :
    i.containsBy cmp v = true ↔ i.start.precedes cmp v = true ∧ i.stop.precedes cmp v = false := by
  rw [containsBy, Bound.admitsBelow_eq, Bool.and_eq_true, Bool.not_eq_true']
  rfl

theorem isEmptyBy_eq_false_iff (i : Interval α) :
    i.isEmptyBy cmp = false ↔ i.start.compare cmp i.stop = .lt := by
  obtain ⟨lower, upper⟩ := i
  cases lower <;> cases upper <;>
    simp only [isEmptyBy, start, stop, Bound.stopCut, Cut.compare, Bound.compareLower]
  case inclusive.inclusive l u => cases cmp l u <;> decide
  case inclusive.exclusive l u => cases cmp l u <;> decide
  case exclusive.inclusive l u => cases cmp l u <;> decide
  case exclusive.exclusive l u => cases cmp l u <;> decide

end Interval

end IntervalAutomata
