import IntervalAutomata.Proofs.Alphabet.Lawful
import IntervalAutomata.Span

namespace IntervalAutomata.Span

open Std

universe u

variable {α : Type u} [Ord α]

def Ordered (s : Span α) : Prop :=
  (compare s.first s.last).isLE

def Holds (s : Span α) (a : α) : Prop :=
  (compare s.first a).isLE ∧ (compare a s.last).isLE

/-- At least one symbol lies between the two. -/
def Apart (s t : Span α) : Prop :=
  ∃ a, compare s.last a = .lt ∧ compare a t.first = .lt

def Climbing (spans : List (Span α)) : Prop :=
  spans.Pairwise fun s t => (compare s.first t.first).isLE

structure Normal (spans : List (Span α)) : Prop where
  ordered : ∀ s ∈ spans, s.Ordered
  apart : spans.Pairwise Apart

theorem Normal.tail {s : Span α} {rest : List (Span α)} (normal : Normal (s :: rest)) :
    Normal rest :=
  ⟨fun t member => normal.ordered t (List.mem_cons_of_mem s member),
    (List.pairwise_cons.mp normal.apart).2⟩

theorem last_join (s t : Span α) : (s.join t).last = t.last ∨ (s.join t).last = s.last := by
  by_cases further : compare t.last s.last = .gt
  · exact .inl (if_pos further)
  · exact .inr (if_neg further)

theorem climbing_join {s t : Span α} {rest : List (Span α)}
    (climbing : Climbing (s :: t :: rest)) : Climbing (s.join t :: rest) := by
  obtain ⟨starts, tail⟩ := List.pairwise_cons.mp climbing
  exact List.pairwise_cons.mpr ⟨fun u member => starts u (List.mem_cons_of_mem t member),
    (List.pairwise_cons.mp tail).2⟩

section Order

variable [TransOrd α]

theorem Holds.ordered {s : Span α} {a : α} (holds : s.Holds a) : s.Ordered :=
  TransCmp.isLE_trans holds.1 holds.2

theorem ordered_between (a b : α) : (between a b).Ordered := by
  unfold between
  split
  · rename_i reversed
    exact Ordering.isLE_of_eq_lt reversed
  · rename_i ordered
    exact OrientedCmp.isLE_of_isGE (Ordering.ne_lt_iff_isGE.mp ordered)

theorem not_holds_iff (s : Span α) (a : α) :
    ¬s.Holds a ↔ compare a s.first = .lt ∨ compare s.last a = .lt := by
  rw [Holds, Decidable.not_and_iff_not_or_not]
  constructor
  · intro outside
    rcases outside with low | high
    · exact .inl (OrientedCmp.lt_of_not_isLE low)
    · exact .inr (OrientedCmp.lt_of_not_isLE high)
  · intro outside
    rcases outside with low | high
    · exact .inl (OrientedCmp.not_isLE_of_lt low)
    · exact .inr (OrientedCmp.not_isLE_of_lt high)

theorem isLE_last_join (s t : Span α) :
    (compare s.last (s.join t).last).isLE ∧ (compare t.last (s.join t).last).isLE := by
  by_cases further : compare t.last s.last = .gt
  · rw [join, if_pos further]
    exact ⟨Ordering.isLE_of_eq_lt (OrientedCmp.lt_of_gt further), ReflCmp.isLE_rfl⟩
  · rw [join, if_neg further]
    refine ⟨ReflCmp.isLE_rfl, ?_⟩
    cases order : compare t.last s.last <;> simp_all

theorem climbing_mergeSort (spans : List (Span α)) : Climbing (spans.mergeSort precedes) := by
  have lexical : ∀ s t : Span α, s.precedes t =
      (compareLex (compareOn Span.first) (compareOn Span.last) s t).isLE := fun _ _ => rfl
  have trans : ∀ s t u : Span α, s.precedes t → t.precedes u → s.precedes u := by
    intro s t u st tu
    rw [lexical] at *
    exact TransCmp.isLE_trans st tu
  have total : ∀ s t : Span α, s.precedes t || t.precedes s := by
    intro s t
    have swap : compareLex (compareOn Span.first) (compareOn Span.last) s t =
        (compareLex (compareOn Span.first) (compareOn Span.last) t s).swap := OrientedCmp.eq_swap
    rw [lexical, lexical, swap]
    cases compareLex (compareOn Span.first) (compareOn Span.last) t s <;> rfl
  apply List.Pairwise.imp _ (List.pairwise_mergeSort trans total spans)
  intro s t ordered
  exact (Ordering.isLE_then_iff_and.mp ordered).1

end Order

section Merge

variable [Alphabet α] [LawfulAlphabet α]

theorem isLE_last_of_meets {s t : Span α} (meets : s.meets t = true) (a : α)
    (less : compare a t.first = .lt) : (compare a s.last).isLE := by
  obtain ⟨before, found, below⟩ := (LawfulAlphabet.exists_prev_iff a t.first).mpr less
  rw [Span.meets, found] at meets
  exact TransCmp.isLE_trans below meets

theorem apart_of_not_meets {s t : Span α} (separate : s.meets t = false) : s.Apart t := by
  unfold meets at separate
  cases found : Alphabet.prev? t.first with
  | none => simp [found] at separate
  | some before =>
    rw [found] at separate
    exact ⟨before, OrientedCmp.lt_of_not_isLE (Bool.eq_false_iff.mp separate),
      (LawfulAlphabet.prev?_eq_some_iff.mp found).1⟩

theorem holds_join {s t : Span α} (starts : (compare s.first t.first).isLE)
    (meets : s.meets t = true) (a : α) : (s.join t).Holds a ↔ s.Holds a ∨ t.Holds a := by
  obtain ⟨near, far⟩ := isLE_last_join s t
  constructor
  · intro holds
    obtain ⟨above, below⟩ := holds
    by_cases inside : (compare a s.last).isLE
    · exact .inl ⟨above, inside⟩
    · -- past the first span, where only the second can have set the end
      have last : (s.join t).last = t.last := by
        rcases last_join s t with same | same
        · exact same
        · rw [same] at below
          exact absurd below inside
      rw [last] at below
      refine .inr ⟨?_, below⟩
      apply Classical.byContradiction
      intro early
      exact inside (isLE_last_of_meets meets a (OrientedCmp.lt_of_not_isLE early))
  · intro holds
    rcases holds with holds | holds
    · exact ⟨holds.1, TransCmp.isLE_trans holds.2 near⟩
    · exact ⟨TransCmp.isLE_trans starts holds.1, TransCmp.isLE_trans holds.2 far⟩

theorem holds_mergeFrom (s : Span α) (rest : List (Span α)) (climbing : Climbing (s :: rest))
    (a : α) : (∃ t ∈ mergeFrom s rest, t.Holds a) ↔ ∃ t ∈ s :: rest, t.Holds a := by
  fun_induction mergeFrom s rest with
  | case1 s => rfl
  | case2 s t rest meets ih =>
    have starts := (List.pairwise_cons.mp climbing).1 t List.mem_cons_self
    rw [ih (climbing_join climbing)]
    simp only [List.mem_cons, exists_eq_or_imp, holds_join starts meets, or_assoc]
  | case3 s t rest separate ih =>
    simp only [List.mem_cons, exists_eq_or_imp] at ih ⊢
    rw [ih (List.pairwise_cons.mp climbing).2]

theorem isLE_first_mergeFrom (s : Span α) (rest : List (Span α)) (climbing : Climbing (s :: rest)) :
    ∀ t ∈ mergeFrom s rest, (compare s.first t.first).isLE := by
  fun_induction mergeFrom s rest with
  | case1 s =>
    intro t member
    rw [List.mem_singleton.mp member]
    exact ReflCmp.isLE_rfl
  | case2 s t rest meets ih => exact ih (climbing_join climbing)
  | case3 s t rest separate ih =>
    obtain ⟨starts, tail⟩ := List.pairwise_cons.mp climbing
    intro u member
    rcases List.mem_cons.mp member with rfl | later
    · exact ReflCmp.isLE_rfl
    · exact TransCmp.isLE_trans (starts t List.mem_cons_self) (ih tail u later)

theorem normal_mergeFrom (s : Span α) (rest : List (Span α)) (climbing : Climbing (s :: rest))
    (ordered : ∀ t ∈ s :: rest, t.Ordered) : Normal (mergeFrom s rest) := by
  fun_induction mergeFrom s rest with
  | case1 s => exact ⟨ordered, List.pairwise_singleton _ _⟩
  | case2 s t rest meets ih =>
    apply ih (climbing_join climbing)
    intro u member
    rcases List.mem_cons.mp member with rfl | later
    · exact TransCmp.isLE_trans (ordered s List.mem_cons_self) (isLE_last_join s t).1
    · exact ordered u (List.mem_cons_of_mem s (List.mem_cons_of_mem t later))
  | case3 s t rest separate ih =>
    obtain ⟨_, tail⟩ := List.pairwise_cons.mp climbing
    have normal := ih tail fun u member => ordered u (List.mem_cons_of_mem s member)
    refine ⟨?_, List.pairwise_cons.mpr ⟨?_, normal.apart⟩⟩
    · intro u member
      rcases List.mem_cons.mp member with rfl | later
      · exact ordered u List.mem_cons_self
      · exact normal.ordered u later
    · intro u later
      obtain ⟨a, above, below⟩ := apart_of_not_meets (Bool.eq_false_iff.mpr separate)
      exact ⟨a, above, TransCmp.lt_of_lt_of_isLE below (isLE_first_mergeFrom t rest tail u later)⟩

theorem holds_normalize (spans : List (Span α)) (a : α) :
    (∃ s ∈ normalize spans, s.Holds a) ↔ ∃ s ∈ spans, s.Holds a := by
  have climbing := climbing_mergeSort spans
  have same : ∀ s, s ∈ spans.mergeSort precedes ↔ s ∈ spans := fun s => List.mem_mergeSort
  unfold normalize
  cases sorted : spans.mergeSort precedes with
  | nil => simp_all [merge]
  | cons s rest =>
    rw [sorted] at climbing same
    rw [merge, holds_mergeFrom s rest climbing]
    simp only [same]

theorem normal_normalize (spans : List (Span α)) (ordered : ∀ s ∈ spans, s.Ordered) :
    Normal (normalize spans) := by
  have climbing := climbing_mergeSort spans
  have same : ∀ s, s ∈ spans.mergeSort precedes ↔ s ∈ spans := fun s => List.mem_mergeSort
  unfold normalize
  cases sorted : spans.mergeSort precedes with
  | nil => exact ⟨by simp [merge], List.Pairwise.nil⟩
  | cons s rest =>
    rw [sorted] at climbing same
    exact normal_mergeFrom s rest climbing fun t member => ordered t ((same t).mp member)

end Merge

section Gaps

variable [Alphabet α] [LawfulAlphabet α]

/-- Whether the symbols from `start` on include one; without a start there are none. -/
def From (start : Option α) (a : α) : Prop :=
  ∃ first, start = some first ∧ (compare first a).isLE

theorem from_next?_iff (a b : α) : From (Alphabet.next? a) b ↔ compare a b = .lt :=
  LawfulAlphabet.exists_next_iff a b

theorem holds_gapBefore (start : Option α) (s : Span α) (a : α) :
    (∃ t ∈ gapBefore start s, t.Holds a) ↔ From start a ∧ compare a s.first = .lt := by
  rw [← LawfulAlphabet.exists_prev_iff]
  unfold gapBefore From
  cases start with
  | none => simp
  | some first =>
    cases Alphabet.prev? s.first with
    | none => simp
    | some last =>
      simp only [Option.some.injEq, exists_eq_left']
      by_cases gap : (compare first last).isLE
      · simp [gap, Holds]
      · simp only [gap, if_false, List.not_mem_nil, false_and, exists_false, false_iff, not_and,
          Bool.false_eq_true]
        intro above below
        exact gap (TransCmp.isLE_trans above below)

omit [LawfulAlphabet α] in
theorem ordered_gapBefore (start : Option α) (s : Span α) : ∀ t ∈ gapBefore start s, t.Ordered := by
  intro t member
  unfold gapBefore at member
  split at member
  · split at member
    · rename_i gap
      rw [List.mem_singleton.mp member]
      exact gap
    · simp at member
  · simp at member

theorem from_next?_of_apart {s t : Span α} (apart : s.Apart t) :
    From (Alphabet.next? s.last) t.first := by
  obtain ⟨a, above, below⟩ := apart
  exact (from_next?_iff s.last t.first).mpr (TransCmp.lt_trans above below)

theorem holds_gapsFrom (start : Option α) (spans : List (Span α)) (normal : Normal spans)
    (starts : ∀ s ∈ spans, From start s.first) (a : α) :
    (∃ t ∈ gapsFrom start spans, t.Holds a) ↔ From start a ∧ ¬∃ s ∈ spans, s.Holds a := by
  induction spans generalizing start with
  | nil =>
    unfold gapsFrom From
    cases start with
    | none => simp
    | some first => simp [Holds, LawfulAlphabet.isLE_greatest]
  | cons s rest ih =>
    have apart := (List.pairwise_cons.mp normal.apart).1
    have ordered := normal.ordered s List.mem_cons_self
    have later := ih (Alphabet.next? s.last) normal.tail fun t member =>
      from_next?_of_apart (apart t member)
    have beyond : ∀ t ∈ rest, compare a s.first = .lt → ¬t.Holds a := by
      intro t member before
      obtain ⟨b, above, below⟩ := apart t member
      refine (not_holds_iff t a).mpr (.inl ?_)
      exact TransCmp.lt_trans (TransCmp.lt_of_lt_of_isLE before ordered)
        (TransCmp.lt_trans above below)
    obtain ⟨first, given, low⟩ := starts s List.mem_cons_self
    simp only [gapsFrom, List.mem_append, or_and_right, exists_or, holds_gapBefore, later,
      from_next?_iff, List.mem_cons, exists_eq_left, not_or, not_holds_iff]
    constructor
    · intro h
      rcases h with ⟨started, before⟩ | ⟨after, outside⟩
      · refine ⟨started, .inl ⟨before, ?_⟩⟩
        intro holds
        obtain ⟨t, member, holds⟩ := holds
        exact beyond t member before holds
      · refine ⟨⟨first, given, ?_⟩, .inr ⟨after, outside⟩⟩
        exact TransCmp.isLE_trans (TransCmp.isLE_trans low ordered) (Ordering.isLE_of_eq_lt after)
    · intro h
      obtain ⟨started, ⟨before, _⟩ | after⟩ := h
      · exact .inl ⟨started, before⟩
      · exact .inr after

theorem ordered_gapsFrom (start : Option α) (spans : List (Span α)) :
    ∀ t ∈ gapsFrom start spans, t.Ordered := by
  induction spans generalizing start with
  | nil =>
    intro t member
    obtain ⟨first, _, rfl⟩ := List.mem_map.mp member
    exact LawfulAlphabet.isLE_greatest first
  | cons s rest ih =>
    intro t member
    rcases List.mem_append.mp member with before | after
    · exact ordered_gapBefore start s t before
    · exact ih _ t after

theorem ordered_cover (negated : Bool) (spans : List (Span α)) (ordered : ∀ s ∈ spans, s.Ordered) :
    ∀ s ∈ cover negated spans, s.Ordered := by
  cases negated with
  | false => exact (normal_normalize spans ordered).ordered
  | true => exact ordered_gapsFrom _ _

theorem holds_cover (negated : Bool) (spans : List (Span α)) (ordered : ∀ s ∈ spans, s.Ordered)
    (a : α) : (∃ s ∈ cover negated spans, s.Holds a) ↔
      ((∃ s ∈ spans, s.Holds a) ↔ negated = false) := by
  cases negated with
  | false => simp only [cover, Bool.false_eq_true, if_false, holds_normalize, iff_true]
  | true =>
    have least : ∀ b : α, From (some Alphabet.least) b := fun b =>
      ⟨_, rfl, LawfulAlphabet.least_isLE b⟩
    simp only [cover, if_true, complement]
    rw [holds_gapsFrom _ _ (normal_normalize spans ordered) (fun s _ => least s.first),
      holds_normalize]
    simp [least]

end Gaps

end IntervalAutomata.Span
