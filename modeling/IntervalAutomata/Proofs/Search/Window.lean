import IntervalAutomata.Search

namespace IntervalAutomata.Search

structure Descending (order : Nat → Ordering) (start size : Nat) : Prop where
  beyond : ∀ i j, start ≤ i → i ≤ j → j < start + size → order j = .gt → order i = .gt
  before : ∀ i j, start ≤ i → i ≤ j → j < start + size → order i = .lt → order j = .lt

theorem landing_bounds (order : Nat → Ordering) (start size : Nat) (inhabited : 0 < size) :
    start ≤ landing order start size ∧ landing order start size < start + size := by
  fun_induction landing order start size with
  | case1 start size small => omega
  | case2 start size large half next ih =>
    have shrunk := ih (by omega)
    have low : start ≤ next := by
      simp only [next]
      split <;> omega
    have high : next + (size - half) ≤ start + size := by
      simp only [next]
      split <;> omega
    omega

theorem order_of_landing_lt (order : Nat → Ordering) (start size : Nat)
    (descending : Descending order start size) (i : Nat) (past : landing order start size < i)
    (inside : i < start + size) : order i = .lt := by
  fun_induction landing order start size with
  | case1 start size small => omega
  | case2 start size large half next ih =>
    by_cases below : order (start + half) = .lt
    · have stays : next = start := if_pos below
      rw [stays] at ih past
      by_cases near : i < start + (size - half)
      · apply ih _ past near
        exact ⟨fun i j low ordered high => descending.beyond i j low ordered (by omega),
          fun i j low ordered high => descending.before i j low ordered (by omega)⟩
      · exact descending.before (start + half) i (by omega) (by omega) inside below
    · have moves : next = start + half := if_neg below
      rw [moves] at ih past
      apply ih _ past (by omega)
      exact ⟨fun i j low ordered high => descending.beyond i j (by omega) ordered (by omega),
        fun i j low ordered high => descending.before i j (by omega) ordered (by omega)⟩

theorem landing_eq_start_or (order : Nat → Ordering) (start size : Nat) :
    landing order start size = start ∨ order (landing order start size) ≠ .lt := by
  fun_induction landing order start size with
  | case1 start size small => exact .inl rfl
  | case2 start size large half next ih =>
    rcases ih with stays | reached
    · by_cases below : order (start + half) = .lt
      · have same : next = start := if_pos below
        rw [stays]
        exact .inl same
      · have moves : next = start + half := if_neg below
        rw [stays, moves]
        exact .inr below
    · exact .inr reached

theorem index_of_exact (order : Nat → Ordering) (start size : Nat)
    (found : (locate order start size).exact = true) :
    start ≤ (locate order start size).index ∧ (locate order start size).index < start + size ∧
      order (locate order start size).index = .eq := by
  unfold locate at found ⊢
  by_cases vacant : size = 0
  · simp [vacant] at found
  · have bounds := landing_bounds order start size (by omega)
    simp only [vacant, if_false] at found ⊢
    cases level : order (landing order start size) with
    | eq => exact ⟨bounds.1, bounds.2, level⟩
    | lt => simp [level] at found
    | gt => simp [level] at found

theorem index_bounds (order : Nat → Ordering) (start size : Nat) :
    start ≤ (locate order start size).index ∧ (locate order start size).index ≤ start + size := by
  unfold locate
  by_cases vacant : size = 0
  · simp [vacant]
  · have bounds := landing_bounds order start size (by omega)
    simp only [vacant, if_false]
    split <;> dsimp only <;> omega

theorem order_of_not_exact (order : Nat → Ordering) (start size : Nat)
    (descending : Descending order start size)
    (missed : (locate order start size).exact = false) :
    (∀ i, start ≤ i → i < (locate order start size).index → order i = .gt) ∧
      ∀ i, (locate order start size).index ≤ i → i < start + size → order i = .lt := by
  unfold locate at missed ⊢
  by_cases vacant : size = 0
  · simp only [vacant, if_true]
    constructor <;> intros <;> omega
  · have bounds := landing_bounds order start size (by omega)
    have past := order_of_landing_lt order start size descending
    simp only [vacant, if_false] at missed ⊢
    cases landed : order (landing order start size) with
    | eq => simp [landed] at missed
    | gt =>
      constructor
      · intro i low high
        exact descending.beyond i _ low (by dsimp only at high; omega) bounds.2 landed
      · intro i low high
        exact past i (by dsimp only at low; omega) high
    | lt =>
      have still : landing order start size = start := by
        rcases landing_eq_start_or order start size with still | reached
        · exact still
        · exact absurd landed reached
      constructor
      · intro i low high
        dsimp only at high
        omega
      · intro i low high
        exact descending.before _ i bounds.1 low high landed

universe u v w

variable {α : Type u} {β : Type v} {γ : Type w}

theorem orderAt_getElem (items : Array α) (key : β) (keyOf : α → γ) (cmp : β → γ → Ordering)
    (i : Nat) (inside : i < items.size) :
    orderAt items key keyOf cmp i = cmp key (keyOf items[i]) := by
  rw [orderAt, Array.getElem?_eq_getElem inside]

theorem descending_of_pairwise (items : Array α) (key : β) (keyOf : α → γ)
    (cmp : β → γ → Ordering)
    (ascending : items.toList.Pairwise fun x y =>
      (cmp key (keyOf y) = .gt → cmp key (keyOf x) = .gt) ∧
        (cmp key (keyOf x) = .lt → cmp key (keyOf y) = .lt)) :
    Descending (orderAt items key keyOf cmp) 0 items.size := by
  have steps := List.pairwise_iff_getElem.mp ascending
  constructor
  · intro i j _ ordered high
    rw [orderAt_getElem _ _ _ _ j (by omega), orderAt_getElem _ _ _ _ i (by omega)]
    rcases Nat.eq_or_lt_of_le ordered with same | less
    · subst same
      exact id
    · have step := steps i j (by simp; omega) (by simp; omega) less
      exact step.1
  · intro i j _ ordered high
    rw [orderAt_getElem _ _ _ _ j (by omega), orderAt_getElem _ _ _ _ i (by omega)]
    rcases Nat.eq_or_lt_of_le ordered with same | less
    · subst same
      exact id
    · have step := steps i j (by simp; omega) (by simp; omega) less
      exact step.2

theorem binarySearch_exact (items : Array α) (key : β) (keyOf : α → γ) (cmp : β → γ → Ordering)
    (found : (binarySearch items key keyOf cmp).exact = true) :
    ∃ inside : (binarySearch items key keyOf cmp).index < items.size,
      cmp key (keyOf items[(binarySearch items key keyOf cmp).index]) = .eq := by
  have landed := index_of_exact _ _ _ found
  have inside : (binarySearch items key keyOf cmp).index < items.size := by
    have high := landed.2.1
    unfold binarySearch
    omega
  refine ⟨inside, ?_⟩
  rw [← orderAt_getElem items key keyOf cmp]
  exact landed.2.2

theorem binarySearch_index_le (items : Array α) (key : β) (keyOf : α → γ)
    (cmp : β → γ → Ordering) : (binarySearch items key keyOf cmp).index ≤ items.size := by
  have bounds := index_bounds (orderAt items key keyOf cmp) 0 items.size
  unfold binarySearch
  omega

theorem binarySearch_not_exact (items : Array α) (key : β) (keyOf : α → γ)
    (cmp : β → γ → Ordering)
    (descending : Descending (orderAt items key keyOf cmp) 0 items.size)
    (missed : (binarySearch items key keyOf cmp).exact = false) :
    (∀ x ∈ items.toList.take (binarySearch items key keyOf cmp).index,
        cmp key (keyOf x) = .gt) ∧
      ∀ x ∈ items.toList.drop (binarySearch items key keyOf cmp).index,
        cmp key (keyOf x) = .lt := by
  obtain ⟨beyond, before⟩ := order_of_not_exact _ _ _ descending missed
  constructor
  · intro x member
    obtain ⟨i, high, rfl⟩ := List.mem_take_iff_getElem.mp member
    simp only [Array.length_toList] at high
    have inside : i < items.size := by omega
    have order := beyond i (Nat.zero_le i) (by unfold binarySearch at high; omega)
    rw [orderAt_getElem _ _ _ _ i inside] at order
    simpa using order
  · intro x member
    obtain ⟨i, high, rfl⟩ := List.mem_drop_iff_getElem.mp member
    simp only [Array.length_toList] at high
    have inside : (binarySearch items key keyOf cmp).index + i < items.size := by omega
    have order := before ((binarySearch items key keyOf cmp).index + i)
      (Nat.le_add_right _ _) (by omega)
    rw [orderAt_getElem _ _ _ _ _ inside] at order
    simpa using order

end IntervalAutomata.Search
