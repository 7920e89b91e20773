import IntervalAutomata.Proofs.Alphabet.Scalars
import IntervalAutomata.Proofs.Span.Cover
import Mathlib

namespace IntervalAutomata.Span

open Std

universe u

variable {α : Type u} [Ord α]

instance (s : Span α) : Decidable s.Ordered :=
  inferInstanceAs (Decidable (_ = true))

variable [Alphabet α] [LawfulAlphabet α]

theorem holds_first {s : Span α} (ordered : s.Ordered) : s.Holds s.first :=
  ⟨ReflCmp.isLE_rfl, ordered⟩

theorem holds_last {s : Span α} (ordered : s.Ordered) : s.Holds s.last :=
  ⟨ordered, ReflCmp.isLE_rfl⟩

theorem Apart.last_lt_first {s t : Span α} (apart : s.Apart t) :
    compare s.last t.first = .lt := by
  obtain ⟨a, above, below⟩ := apart
  exact TransCmp.lt_trans above below

theorem last_lt_of_mem_gapBefore {start : Option α} {s gap : Span α}
    (member : gap ∈ gapBefore start s) : compare gap.last s.first = .lt := by
  have held := holds_last (ordered_gapBefore start s gap member)
  exact ((holds_gapBefore start s gap.last).mp ⟨gap, member, held⟩).2

theorem from_of_mem_gapsFrom {start : Option α} {spans : List (Span α)} {gap : Span α}
    (normal : Normal spans) (starts : ∀ s ∈ spans, From start s.first)
    (member : gap ∈ gapsFrom start spans) : From start gap.first := by
  have held := holds_first (ordered_gapsFrom start spans gap member)
  exact ((holds_gapsFrom start spans normal starts gap.first).mp ⟨gap, member, held⟩).1

omit [LawfulAlphabet α] in
theorem apart_gapBefore (start : Option α) (s : Span α) : (gapBefore start s).Pairwise Apart := by
  unfold gapBefore
  split
  · split
    · exact List.pairwise_singleton _ _
    · exact List.Pairwise.nil
  · exact List.Pairwise.nil

theorem normal_gapsFrom (start : Option α) (spans : List (Span α)) (normal : Normal spans)
    (starts : ∀ s ∈ spans, From start s.first) : Normal (gapsFrom start spans) := by
  refine ⟨ordered_gapsFrom start spans, ?_⟩
  induction spans generalizing start with
  | nil =>
    unfold gapsFrom
    cases start with
    | none => exact List.Pairwise.nil
    | some first => exact List.pairwise_singleton _ _
  | cons s rest ih =>
    have apart := (List.pairwise_cons.mp normal.apart).1
    have startsRest : ∀ t ∈ rest, From (Alphabet.next? s.last) t.first := fun t member =>
      from_next?_of_apart (apart t member)
    refine List.pairwise_append.mpr ⟨apart_gapBefore start s, ih _ normal.tail startsRest, ?_⟩
    intro gap before later behind
    have beyond := (from_next?_iff s.last later.first).mp
      (from_of_mem_gapsFrom normal.tail startsRest behind)
    have ordered := normal.ordered s List.mem_cons_self
    exact ⟨s.first, last_lt_of_mem_gapBefore before, TransCmp.lt_of_isLE_of_lt ordered beyond⟩

theorem normal_cover (negated : Bool) (spans : List (Span α)) (ordered : ∀ s ∈ spans, s.Ordered) :
    Normal (cover negated spans) := by
  have normal := normal_normalize spans ordered
  cases negated with
  | false => exact normal
  | true =>
    have least : ∀ s ∈ normalize spans, From (some Alphabet.least) s.first := fun s _ =>
      ⟨Alphabet.least, rfl, LawfulAlphabet.least_isLE s.first⟩
    exact normal_gapsFrom _ _ normal least

theorem Normal.last_lt_of_holds {s t : Span α} {rest : List (Span α)} {a : α}
    (normal : Normal (s :: rest)) (later : t ∈ rest) (holds : t.Holds a) :
    compare s.last a = .lt := by
  have apart := (List.pairwise_cons.mp normal.apart).1 t later
  exact TransCmp.lt_of_lt_of_isLE apart.last_lt_first holds.1

theorem Normal.isLE_of_holds {s t : Span α} {rest : List (Span α)} {a : α}
    (normal : Normal (s :: rest)) (member : t ∈ s :: rest) (holds : t.Holds a) :
    (compare s.first a).isLE := by
  rcases List.mem_cons.mp member with rfl | later
  · exact holds.1
  · have beyond := normal.last_lt_of_holds later holds
    exact TransCmp.isLE_trans (normal.ordered s List.mem_cons_self) (Ordering.isLE_of_eq_lt beyond)

/-- A span among the symbols of a normal list that starts in front of its first span does not reach
    beyond it, for the next symbol is missing. -/
theorem Normal.isLE_last {s t : Span α} {rest : List (Span α)} (normal : Normal (s :: rest))
    (starts : (compare t.first s.first).isLE)
    (within : ∀ a, t.Holds a → ∃ u ∈ s :: rest, u.Holds a) : (compare t.last s.last).isLE := by
  by_cases reaches : compare s.last t.last = .lt
  · obtain ⟨a, next, inside⟩ := (LawfulAlphabet.exists_next_iff s.last t.last).mpr reaches
    obtain ⟨above, least⟩ := LawfulAlphabet.next?_eq_some_iff.mp next
    have ordered := TransCmp.isLE_trans starts (normal.ordered s List.mem_cons_self)
    have held : t.Holds a :=
      ⟨TransCmp.isLE_trans ordered (Ordering.isLE_of_eq_lt above), inside⟩
    obtain ⟨u, member, holds⟩ := within a held
    rcases List.mem_cons.mp member with rfl | later
    · exact absurd holds.2 (OrientedCmp.not_isLE_of_lt above)
    · obtain ⟨b, behind, before⟩ := (List.pairwise_cons.mp normal.apart).1 u later
      have less := TransCmp.lt_of_lt_of_isLE before holds.1
      exact absurd (least b behind) (OrientedCmp.not_isLE_of_lt less)
  · exact OrientedCmp.isLE_of_isGE (Ordering.ne_lt_iff_isGE.mp reaches)

theorem Normal.head_eq {s t : Span α} {rest others : List (Span α)} (one : Normal (s :: rest))
    (other : Normal (t :: others))
    (same : ∀ a, (∃ u ∈ s :: rest, u.Holds a) ↔ ∃ u ∈ t :: others, u.Holds a) : s = t := by
  have sHeld : ∀ a, s.Holds a → ∃ u ∈ t :: others, u.Holds a := fun a holds =>
    (same a).mp ⟨s, List.mem_cons_self, holds⟩
  have tHeld : ∀ a, t.Holds a → ∃ u ∈ s :: rest, u.Holds a := fun a holds =>
    (same a).mpr ⟨t, List.mem_cons_self, holds⟩
  obtain ⟨u, inOthers, heldFirst⟩ := sHeld s.first (holds_first (one.ordered s List.mem_cons_self))
  obtain ⟨w, inRest, heldFirst'⟩ := tHeld t.first (holds_first (other.ordered t List.mem_cons_self))
  have low := other.isLE_of_holds inOthers heldFirst
  have high := one.isLE_of_holds inRest heldFirst'
  have firsts : s.first = t.first :=
    LawfulEqCmp.eq_of_compare (OrientedCmp.isLE_antisymm high low)
  have lasts : s.last = t.last :=
    LawfulEqCmp.eq_of_compare
      (OrientedCmp.isLE_antisymm (other.isLE_last high sHeld) (one.isLE_last low tHeld))
  obtain ⟨first, last⟩ := s
  obtain ⟨first', last'⟩ := t
  rw [Span.mk.injEq]
  exact ⟨firsts, lasts⟩

theorem Normal.unique {spans others : List (Span α)} (one : Normal spans) (other : Normal others)
    (same : ∀ a, (∃ s ∈ spans, s.Holds a) ↔ ∃ s ∈ others, s.Holds a) : spans = others := by
  induction spans generalizing others with
  | nil =>
    cases others with
    | nil => rfl
    | cons t others =>
      have held := holds_first (other.ordered t List.mem_cons_self)
      have missing := (same t.first).mpr ⟨t, List.mem_cons_self, held⟩
      simp at missing
  | cons s rest ih =>
    cases others with
    | nil =>
      have held := holds_first (one.ordered s List.mem_cons_self)
      have missing := (same s.first).mp ⟨s, List.mem_cons_self, held⟩
      simp at missing
    | cons t others =>
      obtain rfl := one.head_eq other same
      have sameTail : ∀ a, (∃ u ∈ rest, u.Holds a) ↔ ∃ u ∈ others, u.Holds a := by
        intro a
        have outside : ∀ u, u ∈ rest ∨ u ∈ others → u.Holds a → ¬s.Holds a := by
          intro u later holds held
          have beyond : compare s.last a = .lt := by
            rcases later with later | later
            · exact one.last_lt_of_holds later holds
            · exact other.last_lt_of_holds later holds
          exact OrientedCmp.not_isLE_of_lt beyond held.2
        have whole := same a
        simp only [List.mem_cons, exists_eq_or_imp] at whole
        constructor
        · rintro ⟨u, later, holds⟩
          exact (whole.mp (.inr ⟨u, later, holds⟩)).resolve_left (outside u (.inl later) holds)
        · rintro ⟨u, later, holds⟩
          exact (whole.mpr (.inr ⟨u, later, holds⟩)).resolve_left (outside u (.inr later) holds)
      rw [ih one.tail other.tail sameTail]

theorem cover_eq_iff (negated negated' : Bool) (spans others : List (Span α))
    (ordered : ∀ s ∈ spans, s.Ordered) (ordered' : ∀ s ∈ others, s.Ordered) :
    cover negated spans = cover negated' others ↔
      ∀ a, ((∃ s ∈ spans, s.Holds a) ↔ negated = false) ↔
        ((∃ s ∈ others, s.Holds a) ↔ negated' = false) := by
  constructor
  · intro same a
    rw [← holds_cover negated spans ordered, ← holds_cover negated' others ordered', same]
  · intro same
    apply (normal_cover negated spans ordered).unique (normal_cover negated' others ordered')
    intro a
    rw [holds_cover negated spans ordered, holds_cover negated' others ordered']
    exact same a

/-- The cover is a list of ordered spans that ascend, with at least one symbol missing between a
    span and any later one, and it holds a symbol just if whether the given spans hold it differs
    from whether they are negated. -/
theorem cover_exact (negated : Bool) (spans : List (Span α)) (ordered : ∀ s ∈ spans, s.Ordered) :
    (∀ s ∈ cover negated spans, (compare s.first s.last).isLE) ∧
      (cover negated spans).Pairwise (fun s t =>
        compare s.last t.first = .lt ∧
          ∃ a, compare s.last a = .lt ∧ compare a t.first = .lt) ∧
      ∀ a, (∃ s ∈ cover negated spans, s.Holds a) ↔
        ¬((∃ s ∈ spans, s.Holds a) ↔ negated = true) := by
  have normal := normal_cover negated spans ordered
  refine ⟨normal.ordered, normal.apart.imp fun apart => ⟨apart.last_lt_first, apart⟩, ?_⟩
  intro a
  rw [holds_cover negated spans ordered a]
  cases negated <;> simp

def scatteredSpans : List (Span Char) :=
  [⟨'\uE000', Alphabet.greatest⟩, ⟨'b', 'c'⟩, ⟨'\uD7FF', '\uD7FF'⟩, ⟨'a', 'z'⟩,
    ⟨Alphabet.least, '`'⟩]

theorem cover_scatteredSpans :
    cover false scatteredSpans =
        [⟨Alphabet.least, 'z'⟩, ⟨'\uD7FF', Alphabet.greatest⟩] ∧
      cover true scatteredSpans = [⟨'\x7b', '\uD7FE'⟩] ∧
      ∀ a, Holds ⟨'\x7b', '\uD7FE'⟩ a ↔ ¬∃ s ∈ scatteredSpans, s.Holds a := by
  have ordered : ∀ s ∈ scatteredSpans, s.Ordered := by decide
  have outside : cover true scatteredSpans = [⟨'\x7b', '\uD7FE'⟩] := by cbv
  have exact := (cover_exact true scatteredSpans ordered).2.2
  rw [outside] at exact
  refine ⟨by cbv, outside, ?_⟩
  intro a
  simpa using exact a

end IntervalAutomata.Span
