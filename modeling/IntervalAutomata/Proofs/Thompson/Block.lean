import IntervalAutomata.Thompson.Fragment

namespace IntervalAutomata

universe u

variable {α : Type u}

def State.InBlock (q : State) (base size : Nat) : Prop :=
  base ≤ q.index ∧ q.index < base + size

theorem State.InBlock.widen {q : State} {base size lower larger : Nat}
    (inside : q.InBlock base size) (low : lower ≤ base) (high : base + size ≤ lower + larger) :
    q.InBlock lower larger :=
  ⟨Nat.le_trans low inside.1, Nat.lt_of_lt_of_le inside.2 high⟩

theorem State.not_inBlock_of_lt {q : State} {base size : Nat} (before : q.index < base) :
    ¬q.InBlock base size :=
  fun inside => Nat.not_le_of_lt before inside.1

theorem State.InBlock.not_front {q : State} {base size next : Nat}
    (behind : q.InBlock (base + size) next) : ¬q.InBlock base size :=
  fun front => Nat.not_lt_of_le behind.1 front.2

theorem State.InBlock.ne {p q : State} {base size next : Nat} (front : p.InBlock base size)
    (behind : q.InBlock (base + size) next) : p ≠ q := by
  rintro rfl
  exact behind.not_front front

theorem State.InBlock.ne_of_lt {q : State} {base size n : Nat} (inside : q.InBlock base size)
    (before : n < base) : q ≠ ⟨n⟩ := by
  rintro rfl
  exact State.not_inBlock_of_lt before inside

theorem State.InBlock.split {q : State} {base m n : Nat} (inside : q.InBlock base (m + n)) :
    q.InBlock base m ∨ q.InBlock (base + m) n := by
  unfold InBlock at *
  omega

theorem State.inBlock_two_iff (q : State) (base : Nat) :
    q.InBlock base 2 ↔ q = ⟨base⟩ ∨ q = ⟨base + 1⟩ := by
  rw [InBlock, State.ext_iff, State.ext_iff]
  show base ≤ q.index ∧ q.index < base + 2 ↔ q.index = base ∨ q.index = base + 1
  omega

namespace Fragment

structure Within (f : Fragment α) (base : Nat) : Prop where
  start : f.start.InBlock base f.size
  stop : f.stop.InBlock base f.size
  ends : ∀ t ∈ f.transitions, t.source.InBlock base f.size ∧ t.target.InBlock base f.size

theorem Within.widen_ends {f : Fragment α} {base lower larger : Nat} (within : f.Within base)
    (low : lower ≤ base) (high : base + f.size ≤ lower + larger) (t : Transition α)
    (member : t ∈ f.transitions) :
    t.source.InBlock lower larger ∧ t.target.InBlock lower larger := by
  obtain ⟨source, target⟩ := within.ends t member
  exact ⟨source.widen low high, target.widen low high⟩

theorem within_ofLabels (base : Nat) (labels : List (Label α)) :
    (ofLabels base labels).Within base where
  start := ⟨Nat.le_refl base, by simp [ofLabels]⟩
  stop := ⟨Nat.le_succ base, by simp [ofLabels]⟩
  ends := by
    intro t member
    obtain ⟨label, _, rfl⟩ := List.mem_map.mp member
    exact ⟨⟨Nat.le_refl base, by simp [ofLabels]⟩, ⟨Nat.le_succ base, by simp [ofLabels]⟩⟩

def series (f g : Fragment α) : Fragment α where
  start := f.start
  stop := g.stop
  size := f.size + g.size
  transitions := f.transitions ++ g.transitions ++ [epsilon f.stop g.start]

def branch (base : Nat) (f g : Fragment α) : Fragment α where
  start := ⟨base⟩
  stop := ⟨base + 1⟩
  size := 2 + f.size + g.size
  transitions := f.transitions ++ g.transitions ++
    [epsilon ⟨base⟩ f.start, epsilon ⟨base⟩ g.start,
      epsilon f.stop ⟨base + 1⟩, epsilon g.stop ⟨base + 1⟩]

def loop (base : Nat) (f : Fragment α) : Fragment α where
  start := ⟨base⟩
  stop := ⟨base + 1⟩
  size := 2 + f.size
  transitions := f.transitions ++
    [epsilon ⟨base⟩ f.start, epsilon ⟨base⟩ ⟨base + 1⟩,
      epsilon f.stop f.start, epsilon f.stop ⟨base + 1⟩]

theorem mem_series {f g : Fragment α} {t : Transition α} :
    t ∈ (f.series g).transitions ↔
      t ∈ f.transitions ∨ t ∈ g.transitions ∨ t = epsilon f.stop g.start := by
  simp [series]

theorem mem_branch {base : Nat} {f g : Fragment α} {t : Transition α} :
    t ∈ (branch base f g).transitions ↔ t ∈ f.transitions ∨ t ∈ g.transitions ∨
      t = epsilon ⟨base⟩ f.start ∨ t = epsilon ⟨base⟩ g.start ∨
        t = epsilon f.stop ⟨base + 1⟩ ∨ t = epsilon g.stop ⟨base + 1⟩ := by
  simp [branch]

theorem mem_loop {base : Nat} {f : Fragment α} {t : Transition α} :
    t ∈ (loop base f).transitions ↔ t ∈ f.transitions ∨
      t = epsilon ⟨base⟩ f.start ∨ t = epsilon ⟨base⟩ ⟨base + 1⟩ ∨
        t = epsilon f.stop f.start ∨ t = epsilon f.stop ⟨base + 1⟩ := by
  simp [loop]

theorem subset_series_front (f g : Fragment α) : f.transitions ⊆ (f.series g).transitions := by
  intro t member
  exact mem_series.mpr (.inl member)

theorem subset_series_back (f g : Fragment α) : g.transitions ⊆ (f.series g).transitions := by
  intro t member
  exact mem_series.mpr (.inr (.inl member))

theorem subset_branch_front (base : Nat) (f g : Fragment α) :
    f.transitions ⊆ (branch base f g).transitions := by
  intro t member
  exact mem_branch.mpr (.inl member)

theorem subset_branch_back (base : Nat) (f g : Fragment α) :
    g.transitions ⊆ (branch base f g).transitions := by
  intro t member
  exact mem_branch.mpr (.inr (.inl member))

theorem subset_loop (base : Nat) (f : Fragment α) :
    f.transitions ⊆ (loop base f).transitions := by
  intro t member
  exact mem_loop.mpr (.inl member)

theorem Within.series {f g : Fragment α} {base : Nat} (front : f.Within base)
    (back : g.Within (base + f.size)) : (f.series g).Within base := by
  have size : (f.series g).size = f.size + g.size := rfl
  refine ⟨front.start.widen (by omega) (by omega), back.stop.widen (by omega) (by omega), ?_⟩
  intro t member
  rcases mem_series.mp member with inFront | inBack | rfl
  · exact front.widen_ends (by omega) (by omega) t inFront
  · exact back.widen_ends (by omega) (by omega) t inBack
  · exact ⟨front.stop.widen (by omega) (by omega), back.start.widen (by omega) (by omega)⟩

theorem Within.branch {f g : Fragment α} {base : Nat} (front : f.Within (base + 2))
    (back : g.Within (base + 2 + f.size)) : (branch base f g).Within base := by
  have size : (Fragment.branch base f g).size = 2 + f.size + g.size := rfl
  have entry : State.InBlock ⟨base⟩ base (Fragment.branch base f g).size :=
    ⟨Nat.le_refl base, show base < base + (Fragment.branch base f g).size by omega⟩
  have exit : State.InBlock ⟨base + 1⟩ base (Fragment.branch base f g).size :=
    ⟨Nat.le_succ base, show base + 1 < base + (Fragment.branch base f g).size by omega⟩
  refine ⟨entry, exit, ?_⟩
  intro t member
  rcases mem_branch.mp member with inFront | inBack | rfl | rfl | rfl | rfl
  · exact front.widen_ends (by omega) (by omega) t inFront
  · exact back.widen_ends (by omega) (by omega) t inBack
  · exact ⟨entry, front.start.widen (by omega) (by omega)⟩
  · exact ⟨entry, back.start.widen (by omega) (by omega)⟩
  · exact ⟨front.stop.widen (by omega) (by omega), exit⟩
  · exact ⟨back.stop.widen (by omega) (by omega), exit⟩

theorem Within.loop {f : Fragment α} {base : Nat} (part : f.Within (base + 2)) :
    (loop base f).Within base := by
  have size : (Fragment.loop base f).size = 2 + f.size := rfl
  have entry : State.InBlock ⟨base⟩ base (Fragment.loop base f).size :=
    ⟨Nat.le_refl base, show base < base + (Fragment.loop base f).size by omega⟩
  have exit : State.InBlock ⟨base + 1⟩ base (Fragment.loop base f).size :=
    ⟨Nat.le_succ base, show base + 1 < base + (Fragment.loop base f).size by omega⟩
  have first : f.start.InBlock base (Fragment.loop base f).size :=
    part.start.widen (by omega) (by omega)
  have last : f.stop.InBlock base (Fragment.loop base f).size :=
    part.stop.widen (by omega) (by omega)
  refine ⟨entry, exit, ?_⟩
  intro t member
  rcases mem_loop.mp member with inPart | rfl | rfl | rfl | rfl
  · exact part.widen_ends (by omega) (by omega) t inPart
  · exact ⟨entry, first⟩
  · exact ⟨entry, exit⟩
  · exact ⟨last, first⟩
  · exact ⟨last, exit⟩

variable [Ord α]

theorem ofCore_seq (base : Nat) (first second : Core α) :
    ofCore base (.seq first second) =
      (ofCore base first).series (ofCore (base + (ofCore base first).size) second) := rfl

theorem ofCore_alt (base : Nat) (first second : Core α) :
    ofCore base (.alt first second) = branch base (ofCore (base + 2) first)
      (ofCore (base + 2 + (ofCore (base + 2) first).size) second) := rfl

theorem ofCore_star (base : Nat) (inner : Core α) :
    ofCore base (.star inner) = loop base (ofCore (base + 2) inner) := rfl

theorem within_ofCore (base : Nat) (core : Core α) : (ofCore base core).Within base := by
  induction core generalizing base with
  | empty => exact within_ofLabels base _
  | nothing => exact within_ofLabels base _
  | literal a => exact within_ofLabels base _
  | range a b => exact within_ofLabels base _
  | seq first second ihFirst ihSecond =>
    rw [ofCore_seq]
    exact (ihFirst base).series (ihSecond _)
  | alt first second ihFirst ihSecond =>
    rw [ofCore_alt]
    exact (ihFirst (base + 2)).branch (ihSecond _)
  | star inner ih =>
    rw [ofCore_star]
    exact (ih (base + 2)).loop

end Fragment

end IntervalAutomata
