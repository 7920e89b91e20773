import IntervalAutomata.Proofs.Bound.Dense
import IntervalAutomata.Proofs.Interval.Kind

namespace IntervalAutomata.Interval

open Std

universe u

variable {α : Type u} {cmp : α → α → Ordering}

namespace Relation.Kind

def Placed (cmp : α → α → Ordering) (i j : Interval α) : Kind → Prop
  | disjoint => i.stop.compare cmp j.start = .lt ∨ j.stop.compare cmp i.start = .lt
  | touching => i.stop.compare cmp j.start = .eq ∨ j.stop.compare cmp i.start = .eq
  | overlapping => (i.stop.compare cmp j.start = .gt ∧ j.stop.compare cmp i.start = .gt) ∧
      ((i.start.compare cmp j.start = .lt ∧ i.stop.compare cmp j.stop = .lt) ∨
        (i.start.compare cmp j.start = .gt ∧ i.stop.compare cmp j.stop = .gt))
  | containing => (i.start.compare cmp j.start = .lt ∧ i.stop.compare cmp j.stop = .gt) ∨
      (i.start.compare cmp j.start = .gt ∧ i.stop.compare cmp j.stop = .lt)
  | starting => i.start.compare cmp j.start = .eq ∧ i.stop.compare cmp j.stop ≠ .eq
  | finishing => i.start.compare cmp j.start ≠ .eq ∧ i.stop.compare cmp j.stop = .eq
  | equal => i.start.compare cmp j.start = .eq ∧ i.stop.compare cmp j.stop = .eq

variable [TransCmp cmp]

theorem placed_comm (kind : Kind) (i j : Interval α) :
    kind.Placed cmp i j ↔ kind.Placed cmp j i := by
  have starts : i.start.compare cmp j.start = (j.start.compare cmp i.start).swap :=
    OrientedCmp.eq_swap
  have stops : i.stop.compare cmp j.stop = (j.stop.compare cmp i.stop).swap :=
    OrientedCmp.eq_swap
  cases kind with
  | disjoint => exact or_comm
  | touching => exact or_comm
  | overlapping =>
    simp only [Placed, starts, stops, Ordering.swap_eq_lt, Ordering.swap_eq_gt]
    exact and_congr and_comm or_comm
  | containing =>
    simp only [Placed, starts, stops, Ordering.swap_eq_lt, Ordering.swap_eq_gt]
    exact or_comm
  | starting => simp only [Placed, starts, stops, ne_eq, Ordering.swap_eq_eq]
  | finishing => simp only [Placed, starts, stops, ne_eq, Ordering.swap_eq_eq]
  | equal => simp only [Placed, starts, stops, Ordering.swap_eq_eq]

end Relation.Kind

variable [TransCmp cmp] {i j : Interval α}

theorem kind_relate_eq_iff (kind : Relation.Kind) (left : i.start.compare cmp i.stop = .lt)
    (right : j.start.compare cmp j.stop = .lt) (ordered : i.order cmp j = .lt) :
    (relate cmp i j).kind = kind ↔ kind.Placed cmp i j := by
  have starts : (i.start.compare cmp j.start).isLE :=
    (Ordering.isLE_then_iff_and.mp (Ordering.isLE_of_eq_lt ordered)).1
  have overtakes : j.stop.compare cmp i.start = .gt :=
    OrientedCmp.gt_of_lt (TransCmp.lt_of_isLE_of_lt starts right)
  have stopsUpper : i.upper.compareUpper cmp j.upper = i.stop.compare cmp j.stop :=
    Bound.compareUpper_eq i.upper j.upper
  by_cases apart : (i.stop.compare cmp j.start).isLE
  · -- the first interval is over before the second one starts
    have earlier : i.start.compare cmp j.start = .lt := TransCmp.lt_of_lt_of_isLE left apart
    have stops : i.stop.compare cmp j.stop = .lt := TransCmp.lt_of_isLE_of_lt apart right
    unfold relate
    cases met : i.stop.compare cmp j.start with
    | lt => cases kind <;> simp [Relation.kind, Relation.Kind.Placed, *]
    | eq => cases kind <;> simp [Relation.kind, Relation.Kind.Placed, *]
    | gt => simp [met] at apart
  · have met : i.stop.compare cmp j.start = .gt :=
      OrientedCmp.gt_of_lt (OrientedCmp.lt_of_not_isLE apart)
    unfold relate cut
    rcases Ordering.then_eq_lt.mp ordered with earlier | ⟨level, shorter⟩
    · cases stops : i.stop.compare cmp j.stop with
      | lt => cases kind <;> simp [Relation.kind, Relation.Kind.Placed, *]
      | eq => cases kind <;> simp [Relation.kind, Relation.Kind.Placed, *]
      | gt => cases kind <;> simp [Relation.kind, Relation.Kind.Placed, *]
    · cases kind <;> simp [Relation.kind, Relation.Kind.Placed, *]

theorem kind_relationBy_eq_iff_placed (kind : Relation.Kind)
    (left : i.start.compare cmp i.stop = .lt) (right : j.start.compare cmp j.stop = .lt) :
    (i.relationBy cmp j).kind = kind ↔ kind.Placed cmp i j := by
  rw [relationBy_eq]
  cases placed : i.order cmp j with
  | lt => exact kind_relate_eq_iff kind left right placed
  | gt =>
    rw [order_swap, Ordering.swap_eq_gt] at placed
    rw [kind.placed_comm]
    exact kind_relate_eq_iff kind right left placed
  | eq =>
    obtain ⟨starts, stops⟩ := Ordering.then_eq_eq.mp placed
    have ahead : i.stop.compare cmp j.start = .gt := by
      rw [← TransCmp.congr_right starts]
      exact OrientedCmp.gt_of_lt left
    have behind : j.stop.compare cmp i.start = .gt := by
      rw [TransCmp.congr_right starts]
      exact OrientedCmp.gt_of_lt right
    cases kind <;> simp [Relation.kind, Relation.Kind.Placed, *]

def values (cmp : α → α → Ordering) (i : Interval α) : Set α :=
  {v | i.containsBy cmp v = true}

def Separates (cmp : α → α → Ordering) (v : α) (A B : Set α) : Prop :=
  (∀ a ∈ A, cmp a v = .lt) ∧ ∀ b ∈ B, cmp v b = .lt

def GapBetween (cmp : α → α → Ordering) (A B : Set α) : Prop :=
  ∃ v, (v ∉ A ∧ v ∉ B) ∧ (Separates cmp v A B ∨ Separates cmp v B A)

def ReachesBelow (cmp : α → α → Ordering) (A B : Set α) : Prop :=
  ∃ v ∈ A, ∀ b ∈ B, cmp v b = .lt

def ReachesAbove (cmp : α → α → Ordering) (A B : Set α) : Prop :=
  ∃ v ∈ A, ∀ b ∈ B, cmp b v = .lt

def Relation.Kind.Says (cmp : α → α → Ordering) (A B : Set α) : Kind → Prop
  | disjoint => ¬(A ∩ B).Nonempty ∧ GapBetween cmp A B
  | touching => ¬(A ∩ B).Nonempty ∧ ¬GapBetween cmp A B
  | overlapping => (A ∩ B).Nonempty ∧ ¬A ⊆ B ∧ ¬B ⊆ A
  | containing => (A ⊂ B ∧ ReachesBelow cmp B A ∧ ReachesAbove cmp B A) ∨
      (B ⊂ A ∧ ReachesBelow cmp A B ∧ ReachesAbove cmp A B)
  | starting => (A ⊂ B ∧ ¬ReachesBelow cmp B A) ∨ (B ⊂ A ∧ ¬ReachesBelow cmp A B)
  | finishing => (A ⊂ B ∧ ¬ReachesAbove cmp B A) ∨ (B ⊂ A ∧ ¬ReachesAbove cmp A B)
  | equal => A = B

omit [TransCmp cmp] in
theorem mem_values (i : Interval α) (v : α) :
    v ∈ i.values cmp ↔ i.start.precedes cmp v = true ∧ i.stop.precedes cmp v = false :=
  containsBy_iff i v

theorem forall_values_lt_iff (held : (i.values cmp).Nonempty) (v : α) :
    (∀ a ∈ i.values cmp, cmp a v = .lt) ↔ i.stop.precedes cmp v = true := by
  constructor
  · intro beyond
    by_contra running
    rw [Bool.not_eq_true] at running
    obtain ⟨a, member⟩ := held
    cases started : i.start.precedes cmp v with
    | true =>
      exact self_ne_lt v (beyond v ((mem_values i v).mpr ⟨started, running⟩))
    | false =>
      have less := Cut.lt_of_precedes started ((mem_values i a).mp member).1
      rw [OrientedCmp.gt_of_lt (beyond a member)] at less
      contradiction
  · intro behind a member
    exact Cut.lt_of_precedes ((mem_values i a).mp member).2 behind

theorem forall_lt_values_iff (held : (i.values cmp).Nonempty) (v : α) :
    (∀ a ∈ i.values cmp, cmp v a = .lt) ↔ i.start.precedes cmp v = false := by
  constructor
  · intro before
    by_contra started
    rw [Bool.not_eq_false] at started
    obtain ⟨a, member⟩ := held
    cases running : i.stop.precedes cmp v with
    | false =>
      exact self_ne_lt v (before v ((mem_values i v).mpr ⟨started, running⟩))
    | true =>
      have less := Cut.lt_of_precedes ((mem_values i a).mp member).2 running
      rw [OrientedCmp.gt_of_lt (before a member)] at less
      contradiction
  · intro front a member
    exact Cut.lt_of_precedes front ((mem_values i a).mp member).1

section Dense

variable [Nonempty α] (dense : DenseOrder cmp)
include dense

theorem values_nonempty (left : i.start.compare cmp i.stop = .lt) : (i.values cmp).Nonempty := by
  obtain ⟨v, started, running⟩ := Cut.exists_value_between dense i.start i.stop left
  exact ⟨v, (mem_values i v).mpr ⟨started, running⟩⟩

theorem values_subset_iff (left : i.start.compare cmp i.stop = .lt) :
    i.values cmp ⊆ j.values cmp ↔
      i.start.compare cmp j.start ≠ .lt ∧ i.stop.compare cmp j.stop ≠ .gt := by
  constructor
  · intro within
    constructor
    · intro earlier
      obtain ⟨v, ⟨started, _⟩, missed, running⟩ :=
        Cut.exists_value_inside dense earlier left earlier left
      have inside := (mem_values j v).mp (within ((mem_values i v).mpr ⟨started, running⟩))
      rw [missed] at inside
      exact Bool.false_ne_true inside.1
    · intro later
      have longer : j.stop.compare cmp i.stop = .lt := OrientedCmp.gt_iff_lt.mp later
      obtain ⟨v, ⟨started, gone⟩, running, _⟩ :=
        Cut.exists_value_inside dense left left longer longer
      have inside := (mem_values j v).mp (within ((mem_values i v).mpr ⟨started, running⟩))
      rw [gone] at inside
      exact Bool.false_ne_true inside.2.symm
  · rintro ⟨notEarlier, notLater⟩ v member
    obtain ⟨started, running⟩ := (mem_values i v).mp member
    have starts := isLE_of_ne_lt notEarlier
    have stops := Ordering.isLE_iff_ne_gt.mpr notLater
    exact (mem_values j v).mpr
      ⟨Cut.precedes_of_isLE starts started, Cut.not_precedes_of_isLE stops running⟩

theorem values_inter_nonempty_iff (left : i.start.compare cmp i.stop = .lt)
    (right : j.start.compare cmp j.stop = .lt) :
    (i.values cmp ∩ j.values cmp).Nonempty ↔
      i.stop.compare cmp j.start = .gt ∧ j.stop.compare cmp i.start = .gt := by
  rw [OrientedCmp.gt_iff_lt, OrientedCmp.gt_iff_lt]
  constructor
  · rintro ⟨v, one, other⟩
    obtain ⟨started, running⟩ := (mem_values i v).mp one
    obtain ⟨started', running'⟩ := (mem_values j v).mp other
    exact ⟨(Cut.lt_iff_exists_value dense _ _).mpr ⟨v, started', running⟩,
      (Cut.lt_iff_exists_value dense _ _).mpr ⟨v, started, running'⟩⟩
  · rintro ⟨ahead, behind⟩
    obtain ⟨v, ⟨started, started'⟩, running, running'⟩ :=
      Cut.exists_value_inside dense left behind ahead right
    exact ⟨v, (mem_values i v).mpr ⟨started, running⟩, (mem_values j v).mpr ⟨started', running'⟩⟩

theorem exists_separates_iff (left : i.start.compare cmp i.stop = .lt)
    (right : j.start.compare cmp j.stop = .lt) :
    (∃ v, Separates cmp v (i.values cmp) (j.values cmp)) ↔ i.stop.compare cmp j.start = .lt := by
  rw [Cut.lt_iff_exists_value dense]
  simp only [Separates, forall_values_lt_iff (values_nonempty dense left),
    forall_lt_values_iff (values_nonempty dense right)]

omit [Nonempty α] dense in
theorem Separates.not_mem {v : α} {A B : Set α} (separates : Separates cmp v A B) :
    v ∉ A ∧ v ∉ B :=
  ⟨fun member => self_ne_lt v (separates.1 v member),
    fun member => self_ne_lt v (separates.2 v member)⟩

theorem gapBetween_iff (left : i.start.compare cmp i.stop = .lt)
    (right : j.start.compare cmp j.stop = .lt) :
    GapBetween cmp (i.values cmp) (j.values cmp) ↔
      i.stop.compare cmp j.start = .lt ∨ j.stop.compare cmp i.start = .lt := by
  rw [← exists_separates_iff dense left right, ← exists_separates_iff dense right left, ← exists_or]
  constructor
  · rintro ⟨v, _, separates⟩
    exact ⟨v, separates⟩
  · rintro ⟨v, separates⟩
    refine ⟨v, ?_, separates⟩
    rcases separates with separates | separates
    · exact separates.not_mem
    · exact separates.not_mem.symm

theorem reachesBelow_iff (left : i.start.compare cmp i.stop = .lt)
    (right : j.start.compare cmp j.stop = .lt) :
    ReachesBelow cmp (i.values cmp) (j.values cmp) ↔ i.start.compare cmp j.start = .lt := by
  simp only [ReachesBelow, forall_lt_values_iff (values_nonempty dense right)]
  constructor
  · rintro ⟨v, member, front⟩
    exact (Cut.lt_iff_exists_value dense _ _).mpr ⟨v, ((mem_values i v).mp member).1, front⟩
  · intro earlier
    obtain ⟨v, ⟨started, _⟩, front, running⟩ :=
      Cut.exists_value_inside dense earlier left earlier left
    exact ⟨v, (mem_values i v).mpr ⟨started, running⟩, front⟩

theorem reachesAbove_iff (left : i.start.compare cmp i.stop = .lt)
    (right : j.start.compare cmp j.stop = .lt) :
    ReachesAbove cmp (i.values cmp) (j.values cmp) ↔ i.stop.compare cmp j.stop = .gt := by
  rw [OrientedCmp.gt_iff_lt]
  simp only [ReachesAbove, forall_values_lt_iff (values_nonempty dense right)]
  constructor
  · rintro ⟨v, member, behind⟩
    exact (Cut.lt_iff_exists_value dense _ _).mpr ⟨v, behind, ((mem_values i v).mp member).2⟩
  · intro later
    obtain ⟨v, ⟨started, behind⟩, running, _⟩ :=
      Cut.exists_value_inside dense left left later later
    exact ⟨v, (mem_values i v).mpr ⟨started, running⟩, behind⟩

omit [Nonempty α] dense in
theorem stop_after_start (left : i.start.compare cmp i.stop = .lt)
    (right : j.start.compare cmp j.stop = .lt) :
    i.stop.compare cmp j.start = .gt ∨ j.stop.compare cmp i.start = .gt := by
  by_cases apart : (i.stop.compare cmp j.start).isLE
  · have earlier : i.start.compare cmp j.start = .lt := TransCmp.lt_of_lt_of_isLE left apart
    exact .inr (OrientedCmp.gt_of_lt (TransCmp.lt_trans earlier right))
  · exact .inl (OrientedCmp.gt_of_lt (OrientedCmp.lt_of_not_isLE apart))

theorem says_iff_placed (kind : Relation.Kind) (left : i.start.compare cmp i.stop = .lt)
    (right : j.start.compare cmp j.stop = .lt) :
    kind.Says cmp (i.values cmp) (j.values cmp) ↔ kind.Placed cmp i j := by
  have starts : j.start.compare cmp i.start = (i.start.compare cmp j.start).swap :=
    OrientedCmp.eq_swap
  have stops : j.stop.compare cmp i.stop = (i.stop.compare cmp j.stop).swap :=
    OrientedCmp.eq_swap
  have within : i.values cmp ⊆ j.values cmp ↔ _ := values_subset_iff dense left
  have holds : j.values cmp ⊆ i.values cmp ↔ _ := values_subset_iff dense right
  have shares := values_inter_nonempty_iff dense left right
  have gap := gapBetween_iff dense left right
  have below := reachesBelow_iff dense left right
  have below' := reachesBelow_iff dense right left
  have above := reachesAbove_iff dense left right
  have above' := reachesAbove_iff dense right left
  rw [starts, stops] at holds
  rw [starts] at below'
  rw [stops] at above'
  have meets := stop_after_start left right
  cases kind with
  | disjoint =>
    simp only [Relation.Kind.Says, Relation.Kind.Placed, shares, gap]
    cases i.stop.compare cmp j.start <;> cases j.stop.compare cmp i.start <;> decide
  | touching =>
    simp only [Relation.Kind.Says, Relation.Kind.Placed, shares, gap]
    revert meets
    cases i.stop.compare cmp j.start <;> cases j.stop.compare cmp i.start <;> decide
  | overlapping =>
    simp only [Relation.Kind.Says, Relation.Kind.Placed, shares, within, holds]
    apply and_congr_right'
    cases i.start.compare cmp j.start <;> cases i.stop.compare cmp j.stop <;> decide
  | containing =>
    simp only [Relation.Kind.Says, Relation.Kind.Placed, ssubset_iff_subset_not_subset, within,
      holds, below, below', above, above']
    cases i.start.compare cmp j.start <;> cases i.stop.compare cmp j.stop <;> decide
  | starting =>
    simp only [Relation.Kind.Says, Relation.Kind.Placed, ssubset_iff_subset_not_subset, within,
      holds, below, below']
    cases i.start.compare cmp j.start <;> cases i.stop.compare cmp j.stop <;> decide
  | finishing =>
    simp only [Relation.Kind.Says, Relation.Kind.Placed, ssubset_iff_subset_not_subset, within,
      holds, above, above']
    cases i.start.compare cmp j.start <;> cases i.stop.compare cmp j.stop <;> decide
  | equal =>
    simp only [Relation.Kind.Says, Relation.Kind.Placed, Set.Subset.antisymm_iff, within, holds]
    cases i.start.compare cmp j.start <;> cases i.stop.compare cmp j.stop <;> decide

end Dense

/-- In a dense order without ends the kind of a relation tells the truth about the values. -/
theorem kind_relationBy_eq_iff_says [Nonempty α] (dense : DenseOrder cmp) (i j : Interval α)
    (left : i.isEmptyBy cmp = false) (right : j.isEmptyBy cmp = false) (kind : Relation.Kind) :
    (i.relationBy cmp j).kind = kind ↔ kind.Says cmp (i.values cmp) (j.values cmp) := by
  rw [isEmptyBy_eq_false_iff] at left right
  rw [kind_relationBy_eq_iff_placed kind left right, says_iff_placed dense kind left right]

omit [TransCmp cmp] in
theorem eq_full_of_isEmpty [IsEmpty α] (i : Interval α) : i = full := by
  obtain ⟨lower, upper⟩ := i
  cases lower with
  | unbounded =>
    cases upper with
    | unbounded => rfl
    | inclusive v => exact isEmptyElim v
    | exclusive v => exact isEmptyElim v
  | inclusive v => exact isEmptyElim v
  | exclusive v => exact isEmptyElim v

omit [TransCmp cmp] in
theorem isEmptyBy_of_isEmpty [IsEmpty α] (i : Interval α) : i.isEmptyBy cmp = false := by
  rw [i.eq_full_of_isEmpty]
  rfl

omit [TransCmp cmp] in
/-- Where there are no values the only interval is equal to itself, but the values would tell that it
    touches itself as well. -/
theorem kind_relationBy_of_isEmpty [IsEmpty α] (i j : Interval α) (kind : Relation.Kind) :
    (i.relationBy cmp j).kind = .equal ∧
      (kind.Says cmp (i.values cmp) (j.values cmp) ↔ kind = .equal ∨ kind = .touching) := by
  constructor
  · rw [i.eq_full_of_isEmpty, j.eq_full_of_isEmpty]
    rfl
  · rw [Set.eq_empty_of_isEmpty (i.values cmp), Set.eq_empty_of_isEmpty (j.values cmp)]
    cases kind <;> simp [Relation.Kind.Says, GapBetween]

def belowOne : Interval ℚ := ⟨.inclusive 0, .exclusive 1⟩

def fromOne : Interval ℚ := ⟨.inclusive 1, .unbounded⟩

def aboveOne : Interval ℚ := ⟨.exclusive 1, .exclusive 2⟩

/-- There is no gap between `[0, 1)` and `[1, +inf)`, but `1` lies between `[0, 1)` and `(1, 2)`. -/
theorem values_aroundOne :
    (¬(belowOne.values compare ∩ fromOne.values compare).Nonempty ∧
      ¬GapBetween compare (belowOne.values compare) (fromOne.values compare)) ∧
    GapBetween compare (belowOne.values compare) (aboveOne.values compare) ∧
    aboveOne.values compare ⊂ fromOne.values compare ∧
      ReachesBelow compare (fromOne.values compare) (aboveOne.values compare) ∧
      ReachesAbove compare (fromOne.values compare) (aboveOne.values compare) := by
  have touches := kind_relationBy_eq_iff_says denseOrder_compare belowOne fromOne (by decide)
    (by decide) .touching
  have disjoint := kind_relationBy_eq_iff_says denseOrder_compare belowOne aboveOne (by decide)
    (by decide) .disjoint
  have containing := kind_relationBy_eq_iff_says denseOrder_compare aboveOne fromOne (by decide)
    (by decide) .containing
  refine ⟨touches.mp (by decide), (disjoint.mp (by decide)).2,
    (containing.mp (by decide)).resolve_right ?_⟩
  rintro ⟨⟨within, _⟩, _⟩
  have held : fromOne.containsBy compare 1 = true := by decide
  have missed : aboveOne.containsBy compare 1 = false := by decide
  exact absurd (within held) (Bool.eq_false_iff.mp missed)

end IntervalAutomata.Interval
