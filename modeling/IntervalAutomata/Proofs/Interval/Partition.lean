import IntervalAutomata.Proofs.Bound.Cut

namespace IntervalAutomata.Interval

open Std

universe u

variable {α : Type u} {cmp : α → α → Ordering}

def order (cmp : α → α → Ordering) (i j : Interval α) : Ordering :=
  (i.start.compare cmp j.start).then (i.stop.compare cmp j.stop)

theorem order_swap [TransCmp cmp] (i j : Interval α) : i.order cmp j = (j.order cmp i).swap := by
  have starts : i.start.compare cmp j.start = (j.start.compare cmp i.start).swap :=
    OrientedCmp.eq_swap
  have stops : i.stop.compare cmp j.stop = (j.stop.compare cmp i.stop).swap :=
    OrientedCmp.eq_swap
  rw [order, order, Ordering.swap_then, starts, stops]

def relate (cmp : α → α → Ordering) (first second : Interval α) : Relation α :=
  match first.stop.compare cmp second.start with
  | .lt => .disjoint first second
  | .eq => .touching first second
  | .gt => cut cmp (first.start.compare cmp second.start) (first.stop.compare cmp second.stop)
      first second

theorem relate_eq (first second : Interval α) :
    relate cmp first second =
      match first.upper.junction cmp second.lower with
      | .gap => .disjoint first second
      | .touch => .touching first second
      | .overlap => cut cmp (first.start.compare cmp second.start)
          (first.stop.compare cmp second.stop) first second := by
  rw [Bound.junction_eq]
  show relate cmp first second = match match first.stop.compare cmp second.start with
    | .lt => Junction.gap | .eq => .touch | .gt => .overlap with
    | .gap => _ | .touch => _ | .overlap => _
  unfold relate
  cases first.stop.compare cmp second.start <;> rfl

theorem cut_swap (o p : Ordering) (first second : Interval α) :
    cut cmp o.swap p.swap first second = cut cmp o p first second := by
  simp only [cut, Ordering.swap_eq_eq]

theorem relationBy_eq [TransCmp cmp] (i j : Interval α) :
    i.relationBy cmp j =
      match i.order cmp j with
      | .lt => relate cmp i j
      | .eq => .equal i
      | .gt => relate cmp j i := by
  have starts : i.lower.compareLower cmp j.lower = i.start.compare cmp j.start := rfl
  have stops : i.upper.compareUpper cmp j.upper = i.stop.compare cmp j.stop :=
    Bound.compareUpper_eq i.upper j.upper
  have level : (i.start.compare cmp j.start = .eq ∧ i.stop.compare cmp j.stop = .eq) ↔
      i.order cmp j = .eq := Ordering.then_eq_eq.symm
  have lexicographic : (i.start.compare cmp j.start).then (i.stop.compare cmp j.stop) =
      i.order cmp j := rfl
  simp only [relationBy, starts, stops, level, lexicographic]
  cases placed : i.order cmp j with
  | eq => rfl
  | lt => exact (relate_eq i j).symm
  | gt =>
    -- seen from `j`, both orders are turned round, and `cut` only asks whether they are level
    have startsBack : i.start.compare cmp j.start = (j.start.compare cmp i.start).swap :=
      OrientedCmp.eq_swap
    have stopsBack : i.stop.compare cmp j.stop = (j.stop.compare cmp i.stop).swap :=
      OrientedCmp.eq_swap
    rw [startsBack, stopsBack]
    simp only [cut_swap]
    exact (relate_eq j i).symm

namespace Relation

def shared? : Relation α → Option (Interval α)
  | disjoint _ _ | touching _ _ => none
  | overlapping _ overlap _ => some overlap
  | containing _ contained _ => some contained
  | starting overlap _ => some overlap
  | finishing _ overlap => some overlap
  | equal interval => some interval

/-- Whether the pieces part what two intervals hold, and the shared one is what both hold. -/
structure Partitions (cmp : α → α → Ordering) (r : Relation α) (i j : Interval α) : Prop where
  inhabited : ∀ p ∈ r.pieces, p.isEmptyBy cmp = false
  contains_once : ∀ v, r.pieces.countP (·.containsBy cmp v) =
    if i.containsBy cmp v || j.containsBy cmp v then 1 else 0
  ascending : r.pieces.Pairwise fun p q => ∀ v w, p.containsBy cmp v = true →
    q.containsBy cmp w = true → cmp v w = .lt
  shared : ∀ v, (∃ s ∈ r.shared?, s.containsBy cmp v = true) ↔
    i.containsBy cmp v = true ∧ j.containsBy cmp v = true

theorem Partitions.symm {r : Relation α} {i j : Interval α} (parted : r.Partitions cmp i j) :
    r.Partitions cmp j i where
  inhabited := parted.inhabited
  contains_once := by
    intro v
    rw [parted.contains_once v, Bool.or_comm]
  ascending := parted.ascending
  shared := by
    intro v
    rw [parted.shared v, and_comm]

variable [TransCmp cmp]

theorem countP_contains_le_one (pieces : List (Interval α))
    (ascending : pieces.Pairwise fun p q => ∀ v w, p.containsBy cmp v = true →
      q.containsBy cmp w = true → cmp v w = .lt) (v : α) :
    pieces.countP (·.containsBy cmp v) ≤ 1 := by
  induction ascending with
  | nil => exact Nat.zero_le 1
  | @cons p rest less _ ih =>
    rw [List.countP_cons]
    split
    · rename_i inFirst
      have none : rest.countP (·.containsBy cmp v) = 0 := by
        rw [List.countP_eq_zero]
        intro q member inLater
        -- a value of two pieces would be less than itself
        exact self_ne_lt v (less q member v v inFirst inLater)
      omega
    · omega

theorem Partitions.of_cuts {r : Relation α} {i j : Interval α}
    (inhabited : ∀ p ∈ r.pieces, p.start.compare cmp p.stop = .lt)
    (apart : r.pieces.Pairwise fun p q => (p.stop.compare cmp q.start).isLE)
    (covers : ∀ v, (∃ p ∈ r.pieces, p.containsBy cmp v = true) ↔
      i.containsBy cmp v = true ∨ j.containsBy cmp v = true)
    (shared : ∀ v, (∃ s ∈ r.shared?, s.containsBy cmp v = true) ↔
      i.containsBy cmp v = true ∧ j.containsBy cmp v = true) : r.Partitions cmp i j := by
  have ascending : r.pieces.Pairwise fun p q => ∀ v w, p.containsBy cmp v = true →
      q.containsBy cmp w = true → cmp v w = .lt := by
    apply List.Pairwise.imp _ apart
    intro p q before v w inFirst inSecond
    have front := ((containsBy_iff p v).mp inFirst).2
    have behind := ((containsBy_iff q w).mp inSecond).1
    exact Cut.lt_of_precedes front (Cut.precedes_of_isLE before behind)
  refine ⟨fun p member => (isEmptyBy_eq_false_iff p).mpr (inhabited p member), ?_, ascending,
    shared⟩
  intro v
  have once := countP_contains_le_one r.pieces ascending v
  have some : 0 < r.pieces.countP (·.containsBy cmp v) ↔ _ := List.countP_pos_iff.trans (covers v)
  rw [← Bool.or_eq_true] at some
  split
  · rename_i held
    have positive := some.mpr held
    omega
  · rename_i missing
    have zero := mt some.mp missing
    omega

/-- Whether intervals lead from one cut to another, each inhabited and each starting where the one
    before it stops. -/
def Seamless (cmp : α → α → Ordering) : Cut α → List (Interval α) → Cut α → Prop
  | c, [], d => c = d
  | c, p :: rest, d => p.start = c ∧ p.start.compare cmp p.stop = .lt ∧ Seamless cmp p.stop rest d

omit [TransCmp cmp] in
theorem Seamless.inhabited {pieces : List (Interval α)} {c d : Cut α}
    (seamless : Seamless cmp c pieces d) : ∀ p ∈ pieces, p.start.compare cmp p.stop = .lt := by
  induction pieces generalizing c with
  | nil => simp
  | cons p rest ih =>
    obtain ⟨_, some, further⟩ := seamless
    exact List.forall_mem_cons.mpr ⟨some, ih further⟩

theorem Seamless.isLE_start {pieces : List (Interval α)} {c d : Cut α}
    (seamless : Seamless cmp c pieces d) : ∀ p ∈ pieces, (c.compare cmp p.start).isLE := by
  induction pieces generalizing c with
  | nil => simp
  | cons p rest ih =>
    obtain ⟨rfl, some, further⟩ := seamless
    refine List.forall_mem_cons.mpr ⟨ReflCmp.isLE_rfl, ?_⟩
    intro q member
    exact TransCmp.isLE_trans (Ordering.isLE_of_eq_lt some) (ih further q member)

theorem Seamless.isLE {pieces : List (Interval α)} {c d : Cut α}
    (seamless : Seamless cmp c pieces d) : (c.compare cmp d).isLE := by
  induction pieces generalizing c with
  | nil =>
    rw [show c = d from seamless]
    exact ReflCmp.isLE_rfl
  | cons p rest ih =>
    obtain ⟨rfl, some, further⟩ := seamless
    exact TransCmp.isLE_trans (Ordering.isLE_of_eq_lt some) (ih further)

theorem Seamless.apart {pieces : List (Interval α)} {c d : Cut α}
    (seamless : Seamless cmp c pieces d) :
    pieces.Pairwise fun p q => (p.stop.compare cmp q.start).isLE := by
  induction pieces generalizing c with
  | nil => exact .nil
  | cons p rest ih =>
    obtain ⟨_, _, further⟩ := seamless
    exact .cons further.isLE_start (ih further)

theorem Seamless.exists_contains_iff {pieces : List (Interval α)} {c d : Cut α}
    (seamless : Seamless cmp c pieces d) (v : α) :
    (∃ p ∈ pieces, p.containsBy cmp v = true) ↔
      c.precedes cmp v = true ∧ d.precedes cmp v = false := by
  induction pieces generalizing c with
  | nil =>
    rw [show c = d from seamless]
    simp
  | cons p rest ih =>
    obtain ⟨rfl, some, further⟩ := seamless
    have entered := Cut.precedes_of_lt some (v := v)
    have left := Cut.precedes_of_isLE further.isLE (v := v)
    simp only [List.mem_cons, exists_eq_or_imp]
    rw [ih further, containsBy_iff]
    grind

theorem Partitions.of_seamless {r : Relation α} {i j : Interval α} {c d : Cut α}
    (seamless : Seamless cmp c r.pieces d)
    (covers : ∀ v, c.precedes cmp v = true ∧ d.precedes cmp v = false ↔
      i.containsBy cmp v = true ∨ j.containsBy cmp v = true)
    (shared : ∀ v, (∃ s ∈ r.shared?, s.containsBy cmp v = true) ↔
      i.containsBy cmp v = true ∧ j.containsBy cmp v = true) : r.Partitions cmp i j :=
  .of_cuts seamless.inhabited seamless.apart
    (fun v => (seamless.exists_contains_iff v).trans (covers v)) shared

variable {first second : Interval α}

theorem partitions_disjoint (firstInhabited : first.start.compare cmp first.stop = .lt)
    (secondInhabited : second.start.compare cmp second.stop = .lt)
    (apart : (first.stop.compare cmp second.start).isLE) :
    (disjoint first second).Partitions cmp first second := by
  apply Partitions.of_cuts
  · simp [pieces, firstInhabited, secondInhabited]
  · simp [pieces, apart]
  · simp [pieces]
  · intro v
    have behind := Cut.precedes_of_isLE (v := v) apart
    simp only [shared?, containsBy_iff]
    grind

theorem partitions_touching (firstInhabited : first.start.compare cmp first.stop = .lt)
    (secondInhabited : second.start.compare cmp second.stop = .lt)
    (apart : (first.stop.compare cmp second.start).isLE) :
    (touching first second).Partitions cmp first second :=
  { partitions_disjoint firstInhabited secondInhabited apart with }

theorem partitions_equal (inhabited : first.start.compare cmp first.stop = .lt)
    (startsLevel : first.start.compare cmp second.start = .eq)
    (stopsLevel : first.stop.compare cmp second.stop = .eq) :
    (equal first).Partitions cmp first second := by
  have same : ∀ v, second.containsBy cmp v = true ↔ first.containsBy cmp v = true := by
    intro v
    rw [containsBy_iff, containsBy_iff, Cut.precedes_eq_of_level startsLevel,
      Cut.precedes_eq_of_level stopsLevel]
  apply Partitions.of_cuts
  · simp [pieces, inhabited]
  · simp [pieces]
  · simp [pieces, same]
  · simp [shared?, same]

omit [TransCmp cmp] in
theorem seamless_starting (inhabited : first.start.compare cmp first.stop = .lt)
    (shorter : first.stop.compare cmp second.stop = .lt) :
    Seamless cmp first.start [first, ⟨first.upper.flip, second.upper⟩] second.stop := by
  have seam : (Interval.mk first.upper.flip second.upper).start = first.stop :=
    Bound.before_flip shorter
  exact ⟨rfl, inhabited, seam, seam ▸ shorter, rfl⟩

theorem partitions_starting (inhabited : first.start.compare cmp first.stop = .lt)
    (level : first.start.compare cmp second.start = .eq)
    (shorter : first.stop.compare cmp second.stop = .lt) :
    (starting first ⟨first.upper.flip, second.upper⟩).Partitions cmp first second := by
  have same := Cut.precedes_eq_of_level level
  have left : ∀ v, second.stop.precedes cmp v = true → first.stop.precedes cmp v = true :=
    fun _ => Cut.precedes_of_lt shorter
  apply Partitions.of_seamless (seamless_starting inhabited shorter)
  · intro v
    simp only [containsBy_iff]
    grind
  · intro v
    simp only [shared?, containsBy_iff, Option.mem_some_iff, exists_eq_left']
    grind

omit [TransCmp cmp] in
theorem seamless_finishing (inhabited : second.start.compare cmp second.stop = .lt)
    (earlier : first.start.compare cmp second.start = .lt) :
    Seamless cmp first.start [⟨first.lower, second.lower.flip⟩, second] second.stop := by
  have seam : (Interval.mk first.lower second.lower.flip).stop = second.start :=
    Bound.stopCut_flip earlier
  exact ⟨rfl, seam ▸ earlier, seam.symm, inhabited, rfl⟩

theorem partitions_finishing (inhabited : second.start.compare cmp second.stop = .lt)
    (earlier : first.start.compare cmp second.start = .lt)
    (level : first.stop.compare cmp second.stop = .eq) :
    (finishing ⟨first.lower, second.lower.flip⟩ second).Partitions cmp first second := by
  have entered : ∀ v, second.start.precedes cmp v = true → first.start.precedes cmp v = true :=
    fun _ => Cut.precedes_of_lt earlier
  have same := Cut.precedes_eq_of_level level
  apply Partitions.of_seamless (seamless_finishing inhabited earlier)
  · intro v
    simp only [containsBy_iff]
    grind
  · intro v
    simp only [shared?, containsBy_iff, Option.mem_some_iff, exists_eq_left']
    grind

omit [TransCmp cmp] in
theorem seamless_containing (inhabited : second.start.compare cmp second.stop = .lt)
    (earlier : first.start.compare cmp second.start = .lt)
    (later : second.stop.compare cmp first.stop = .lt) :
    Seamless cmp first.start
      [⟨first.lower, second.lower.flip⟩, second, ⟨second.upper.flip, first.upper⟩]
      first.stop := by
  have front : (Interval.mk first.lower second.lower.flip).stop = second.start :=
    Bound.stopCut_flip earlier
  have back : (Interval.mk second.upper.flip first.upper).start = second.stop :=
    Bound.before_flip later
  exact ⟨rfl, front ▸ earlier, front.symm, inhabited, back, back ▸ later, rfl⟩

theorem partitions_containing (inhabited : second.start.compare cmp second.stop = .lt)
    (earlier : first.start.compare cmp second.start = .lt)
    (later : second.stop.compare cmp first.stop = .lt) :
    (containing ⟨first.lower, second.lower.flip⟩ second
      ⟨second.upper.flip, first.upper⟩).Partitions cmp first second := by
  have entered : ∀ v, second.start.precedes cmp v = true → first.start.precedes cmp v = true :=
    fun _ => Cut.precedes_of_lt earlier
  have left : ∀ v, first.stop.precedes cmp v = true → second.stop.precedes cmp v = true :=
    fun _ => Cut.precedes_of_lt later
  apply Partitions.of_seamless (seamless_containing inhabited earlier later)
  · intro v
    simp only [containsBy_iff]
    grind
  · intro v
    simp only [shared?, containsBy_iff, Option.mem_some_iff, exists_eq_left']
    grind

omit [TransCmp cmp] in
theorem seamless_overlapping (earlier : first.start.compare cmp second.start = .lt)
    (overlap : second.start.compare cmp first.stop = .lt)
    (later : first.stop.compare cmp second.stop = .lt) :
    Seamless cmp first.start [⟨first.lower, second.lower.flip⟩, ⟨second.lower, first.upper⟩,
      ⟨first.upper.flip, second.upper⟩] second.stop := by
  have front : (Interval.mk first.lower second.lower.flip).stop = second.start :=
    Bound.stopCut_flip earlier
  have back : (Interval.mk first.upper.flip second.upper).start = first.stop :=
    Bound.before_flip later
  exact ⟨rfl, front ▸ earlier, front.symm, overlap, back, back ▸ later, rfl⟩

theorem partitions_overlapping (earlier : first.start.compare cmp second.start = .lt)
    (overlap : second.start.compare cmp first.stop = .lt)
    (later : first.stop.compare cmp second.stop = .lt) :
    (overlapping ⟨first.lower, second.lower.flip⟩ ⟨second.lower, first.upper⟩
      ⟨first.upper.flip, second.upper⟩).Partitions cmp first second := by
  have entered : ∀ v, second.start.precedes cmp v = true → first.start.precedes cmp v = true :=
    fun _ => Cut.precedes_of_lt earlier
  have inside : ∀ v, first.stop.precedes cmp v = true → second.start.precedes cmp v = true :=
    fun _ => Cut.precedes_of_lt overlap
  have left : ∀ v, second.stop.precedes cmp v = true → first.stop.precedes cmp v = true :=
    fun _ => Cut.precedes_of_lt later
  apply Partitions.of_seamless (seamless_overlapping earlier overlap later)
  · intro v
    simp only [containsBy_iff]
    grind
  · intro v
    have middle : (Interval.mk second.lower first.upper).start = second.start ∧
        (Interval.mk second.lower first.upper).stop = first.stop := ⟨rfl, rfl⟩
    simp only [shared?, containsBy_iff, Option.mem_some_iff, exists_eq_left', middle]
    grind

/-- The relations of two intervals of which the first one given comes first, each with the order of
    cuts that it comes from. -/
inductive Arises (cmp : α → α → Ordering) (first second : Interval α) : Relation α → Prop where
  | disjoint (apart : first.stop.compare cmp second.start = .lt) :
    Arises cmp first second (.disjoint first second)
  | touching (level : first.stop.compare cmp second.start = .eq) :
    Arises cmp first second (.touching first second)
  | starting (level : first.start.compare cmp second.start = .eq)
    (shorter : first.stop.compare cmp second.stop = .lt) :
    Arises cmp first second (.starting first ⟨first.upper.flip, second.upper⟩)
  | finishing (earlier : first.start.compare cmp second.start = .lt)
    (level : first.stop.compare cmp second.stop = .eq) :
    Arises cmp first second (.finishing ⟨first.lower, second.lower.flip⟩ second)
  | containing (earlier : first.start.compare cmp second.start = .lt)
    (later : second.stop.compare cmp first.stop = .lt) :
    Arises cmp first second (.containing ⟨first.lower, second.lower.flip⟩ second
      ⟨second.upper.flip, first.upper⟩)
  | overlapping (earlier : first.start.compare cmp second.start = .lt)
    (overlap : second.start.compare cmp first.stop = .lt)
    (later : first.stop.compare cmp second.stop = .lt) :
    Arises cmp first second (.overlapping ⟨first.lower, second.lower.flip⟩
      ⟨second.lower, first.upper⟩ ⟨first.upper.flip, second.upper⟩)

theorem arises_relate (ordered : first.order cmp second = .lt) :
    Arises cmp first second (relate cmp first second) := by
  unfold relate
  cases met : first.stop.compare cmp second.start with
  | lt => exact .disjoint met
  | eq => exact .touching met
  | gt =>
    have overlap : second.start.compare cmp first.stop = .lt := OrientedCmp.gt_iff_lt.mp met
    rcases Ordering.then_eq_lt.mp ordered with earlier | ⟨level, shorter⟩
    · have stops : first.upper.compareUpper cmp second.upper = first.stop.compare cmp second.stop :=
        Bound.compareUpper_eq first.upper second.upper
      cases ends : first.stop.compare cmp second.stop with
      | eq =>
        simp only [cut, earlier, reduceCtorEq, if_false, if_true]
        exact .finishing earlier ends
      | gt =>
        simp only [cut, earlier, stops, ends, reduceCtorEq, if_false, if_true]
        exact .containing earlier (OrientedCmp.gt_iff_lt.mp ends)
      | lt =>
        simp only [cut, earlier, stops, ends, reduceCtorEq, if_false]
        exact .overlapping earlier overlap ends
    · simp only [cut, level, if_true]
      exact .starting level shorter

theorem partitions_relate (firstInhabited : first.start.compare cmp first.stop = .lt)
    (secondInhabited : second.start.compare cmp second.stop = .lt)
    (ordered : first.order cmp second = .lt) : (relate cmp first second).Partitions cmp first second := by
  have arises := arises_relate ordered
  generalize relate cmp first second = r at arises
  cases arises with
  | disjoint apart =>
    exact partitions_disjoint firstInhabited secondInhabited (Ordering.isLE_of_eq_lt apart)
  | touching level =>
    exact partitions_touching firstInhabited secondInhabited (Ordering.isLE_of_eq_eq level)
  | starting level shorter => exact partitions_starting firstInhabited level shorter
  | finishing earlier level => exact partitions_finishing secondInhabited earlier level
  | containing earlier later => exact partitions_containing secondInhabited earlier later
  | overlapping earlier overlap later => exact partitions_overlapping earlier overlap later

end Relation

theorem partitions_relationBy [TransCmp cmp] (i j : Interval α) (left : i.isEmptyBy cmp = false)
    (right : j.isEmptyBy cmp = false) : (i.relationBy cmp j).Partitions cmp i j := by
  rw [isEmptyBy_eq_false_iff] at left right
  rw [relationBy_eq]
  cases placed : i.order cmp j with
  | lt => exact Relation.partitions_relate left right placed
  | eq =>
    obtain ⟨starts, stops⟩ := Ordering.then_eq_eq.mp placed
    exact Relation.partitions_equal left starts stops
  | gt =>
    rw [order_swap, Ordering.swap_eq_gt] at placed
    exact (Relation.partitions_relate right left placed).symm

def byDistance : Int → Int → Ordering :=
  compareOn Int.natAbs

theorem partitions_byDistance :
    (Interval.mk (.inclusive (-2)) (.exclusive 5)).relationBy byDistance
        ⟨.exclusive 2, .inclusive (-5)⟩ =
      .overlapping ⟨.inclusive (-2), .inclusive 2⟩ ⟨.exclusive 2, .exclusive 5⟩
        ⟨.inclusive 5, .inclusive (-5)⟩ ∧
    ((Interval.mk (.inclusive (-2)) (.exclusive 5)).relationBy byDistance
        ⟨.exclusive 2, .inclusive (-5)⟩).Partitions byDistance
      ⟨.inclusive (-2), .exclusive 5⟩ ⟨.exclusive 2, .inclusive (-5)⟩ := by
  have comparing : TransCmp byDistance := inferInstanceAs (TransCmp (compareOn Int.natAbs))
  exact ⟨by decide, partitions_relationBy _ _ (by decide) (by decide)⟩

end IntervalAutomata.Interval
