import IntervalAutomata.Proofs.Search.Window
import Mathlib.Tactic.ByContra

namespace IntervalAutomata.Search

theorem landing_shift (order alone : Nat → Ordering) (offset start size : Nat)
    (same : ∀ i, start ≤ i → i < start + size → order (offset + i) = alone i) :
    landing order (offset + start) size = offset + landing alone start size := by
  fun_induction landing alone start size with
  | case1 start size small =>
    rw [landing, if_pos small]
  | case2 start size large half next ih =>
    have probed : order (offset + start + half) = alone (start + half) := by
      rw [Nat.add_assoc]
      exact same (start + half) (by omega) (by omega)
    have moved : (if order (offset + start + half) = .lt then offset + start
        else offset + start + half) = offset + next := by
      rw [probed]
      simp only [next]
      split <;> omega
    have inner : ∀ i, next ≤ i → i < next + (size - half) → order (offset + i) = alone i := by
      intro i low high
      simp only [next] at low high
      split at low <;> split at high <;> exact same i (by omega) (by omega)
    rw [landing, if_neg large]
    simp only
    rw [moved]
    exact ih inner

theorem locate_shift (order alone : Nat → Ordering) (start size : Nat)
    (same : ∀ i < size, order (start + i) = alone i) :
    locate order start size =
      ⟨start + (locate alone 0 size).index, (locate alone 0 size).exact⟩ := by
  by_cases vacant : size = 0
  · simp [locate, vacant]
  · have landed : landing order start size = start + landing alone 0 size :=
      landing_shift order alone start 0 size fun i _ high => same i (by omega)
    have inside := (landing_bounds alone 0 size (by omega)).2
    have level := same (landing alone 0 size) (by omega)
    simp only [locate, vacant, if_false, landed, level]
    cases alone (landing alone 0 size) <;> rfl

/-- The key is beyond some items of a window at first, then level with some, then before the
    rest. -/
structure Runs (order : Nat → Ordering) (start beyond level before : Nat) : Prop where
  gt : ∀ i, start ≤ i → i < start + beyond → order i = .gt
  eq : ∀ i, start + beyond ≤ i → i < start + beyond + level → order i = .eq
  lt : ∀ i, start + beyond + level ≤ i → i < start + beyond + level + before → order i = .lt

namespace Runs

variable {order : Nat → Ordering} {start beyond level before : Nat}
  (runs : Runs order start beyond level before)
include runs

theorem order_cases (i : Nat) (low : start ≤ i) (high : i < start + (beyond + level + before)) :
    (order i = .gt ∧ i < start + beyond) ∨
      (order i = .eq ∧ start + beyond ≤ i ∧ i < start + beyond + level) ∨
        (order i = .lt ∧ start + beyond + level ≤ i) := by
  by_cases inBeyond : i < start + beyond
  · exact .inl ⟨runs.gt i low inBeyond, inBeyond⟩
  · by_cases inLevel : i < start + beyond + level
    · exact .inr (.inl ⟨runs.eq i (by omega) inLevel, by omega, inLevel⟩)
    · exact .inr (.inr ⟨runs.lt i (by omega) (by omega), by omega⟩)

theorem descending : Descending order start (beyond + level + before) := by
  constructor
  · intro i j low ordered high greater
    rcases runs.order_cases j (by omega) high with inBeyond | inLevel | inBefore
    · exact runs.gt i low (by omega)
    · simp [inLevel.1] at greater
    · simp [inBefore.1] at greater
  · intro i j low ordered high less
    rcases runs.order_cases i low (by omega) with inBeyond | inLevel | inBefore
    · simp [inBeyond.1] at less
    · simp [inLevel.1] at less
    · exact runs.lt j (by omega) (by omega)

end Runs

theorem order_past_exact (order : Nat → Ordering) (start size : Nat)
    (descending : Descending order start size) (found : (locate order start size).exact = true)
    (i : Nat) (past : (locate order start size).index < i) (inside : i < start + size) :
    order i = .lt := by
  by_cases vacant : size = 0
  · simp [locate, vacant] at found
  · have landed : (locate order start size).index = landing order start size := by
      simp only [locate, vacant, if_false] at found ⊢
      split at found <;> simp_all
    rw [landed] at past
    exact order_of_landing_lt order start size descending i past inside

theorem Runs.locate_eq {order : Nat → Ordering} {start beyond level before : Nat}
    (runs : Runs order start beyond level before) :
    locate order start (beyond + level + before) =
      if level = 0 then ⟨start + beyond, false⟩ else ⟨start + (beyond + level - 1), true⟩ := by
  have bounds := index_bounds order start (beyond + level + before)
  have landed := index_of_exact order start (beyond + level + before)
  have past := order_past_exact order start (beyond + level + before) runs.descending
  have parted := order_of_not_exact order start (beyond + level + before) runs.descending
  generalize locate order start (beyond + level + before) = position at bounds landed past parted ⊢
  obtain ⟨index, exact⟩ := position
  dsimp only at bounds landed past parted
  cases exact with
  | true =>
    obtain ⟨low, high, reached⟩ := landed rfl
    rcases runs.order_cases index low high with inBeyond | inLevel | inBefore
    · simp [inBeyond.1] at reached
    · have last : ¬index < start + beyond + level - 1 := by
        intro early
        have less := past rfl (start + beyond + level - 1) early (by omega)
        simp [runs.eq (start + beyond + level - 1) (by omega) (by omega)] at less
      rw [if_neg (by omega), Position.mk.injEq]
      exact ⟨by omega, rfl⟩
    · simp [inBefore.1] at reached
  | false =>
    obtain ⟨front, back⟩ := parted rfl
    have noLevel : level = 0 := by
      by_contra some
      have level := runs.eq (start + beyond) (by omega) (by omega)
      by_cases passed : start + beyond < index
      · simp [front (start + beyond) (by omega) passed] at level
      · simp [back (start + beyond) (by omega) (by omega)] at level
    have notBefore : ¬index < start + beyond := by
      intro early
      have greater := runs.gt index bounds.1 early
      simp [back index (by omega) (by omega)] at greater
    have notBehind : ¬start + beyond < index := by
      intro late
      have less := runs.lt (start + beyond) (by omega) (by omega)
      simp [front (start + beyond) (by omega) late] at less
    rw [if_pos noLevel, Position.mk.injEq]
    exact ⟨by omega, rfl⟩

universe u v w

variable {α : Type u} {β : Type v} {γ : Type w} (items : Array α) (start size : Nat) (key : β)
  (keyOf : α → γ) (cmp : β → γ → Ordering)

def window : Array α := items.extract start (start + size)

theorem binarySearchIn_of_fits (countable : start + size ≤ Size.greatest)
    (inside : start + size ≤ items.size) :
    binarySearchIn items start size key keyOf cmp =
      .ok (locate (orderAt items key keyOf cmp) start size) := by
  have stop : Size.add? start size = some (start + size) :=
    Size.add?_eq_some_iff.mpr ⟨countable, rfl⟩
  rw [binarySearchIn, stop]
  exact if_pos inside

theorem binarySearchIn_eq_error_iff :
    binarySearchIn items start size key keyOf cmp = .error ⟨start, size⟩ ↔
      Size.greatest < start + size ∨ items.size < start + size := by
  by_cases countable : start + size ≤ Size.greatest
  · by_cases inside : start + size ≤ items.size
    · rw [binarySearchIn_of_fits items start size key keyOf cmp countable inside]
      simp only [reduceCtorEq, false_iff]
      omega
    · have stop : Size.add? start size = some (start + size) :=
        Size.add?_eq_some_iff.mpr ⟨countable, rfl⟩
      rw [binarySearchIn, stop]
      simp only [inside, if_false, true_iff]
      omega
  · have stop : Size.add? start size = none := Size.fit?_eq_none_iff.mpr (by omega)
    rw [binarySearchIn, stop]
    simp only [true_iff]
    omega

theorem orderAt_window (i : Nat) (low : i < size) (inside : start + size ≤ items.size) :
    orderAt items key keyOf cmp (start + i) = orderAt (window items start size) key keyOf cmp i := by
  have there : (window items start size)[i]? = items[start + i]? := by
    rw [window, Array.getElem?_extract, if_pos (by omega)]
  rw [orderAt, orderAt, there]

theorem size_window (inside : start + size ≤ items.size) : (window items start size).size = size := by
  rw [window, Array.size_extract]
  omega

theorem locate_eq_binarySearch_window (inside : start + size ≤ items.size) :
    locate (orderAt items key keyOf cmp) start size =
      ⟨start + (binarySearch (window items start size) key keyOf cmp).index,
        (binarySearch (window items start size) key keyOf cmp).exact⟩ := by
  rw [binarySearch, size_window items start size inside]
  apply locate_shift
  intro i low
  exact orderAt_window items start size key keyOf cmp i low inside

theorem orderAt_eq_getD (i : Nat) :
    orderAt items key keyOf cmp i = (items.toList.map fun x => cmp key (keyOf x))[i]?.getD .lt := by
  rw [orderAt, List.getElem?_map, Array.getElem?_toList]
  cases items[i]? <;> rfl

theorem runs_of_map_eq (beyond level before : Nat)
    (orders : (items.toList.map fun x => cmp key (keyOf x)) =
      List.replicate beyond .gt ++ List.replicate level .eq ++ List.replicate before .lt) :
    Runs (orderAt items key keyOf cmp) 0 beyond level before := by
  constructor <;> intro i low high
  all_goals
    rw [orderAt_eq_getD, orders]
    simp only [List.getElem?_append, List.getElem?_replicate, List.length_append,
      List.length_replicate]
  · rw [if_pos (by omega), if_pos (by omega), if_pos (by omega)]
    rfl
  · rw [if_pos (by omega), if_neg (by omega), if_pos (by omega)]
    rfl
  · rw [if_neg (by omega), if_pos (by omega)]
    rfl

theorem binarySearch_eq_of_runs (beyond level before : Nat)
    (orders : (items.toList.map fun x => cmp key (keyOf x)) =
      List.replicate beyond .gt ++ List.replicate level .eq ++ List.replicate before .lt) :
    binarySearch items key keyOf cmp =
      if level = 0 then ⟨beyond, false⟩ else ⟨beyond + level - 1, true⟩ := by
  have runs := runs_of_map_eq items key keyOf cmp beyond level before orders
  have count : items.size = beyond + level + before := by
    simpa [Nat.add_assoc] using congrArg List.length orders
  rw [binarySearch, count, runs.locate_eq, Nat.zero_add, Nat.zero_add]

/-- What the answer to a search of a window says of the order of the key to the items. Where the key
    is beyond the items at first, then level, then before them, the answer is the last level item, or
    without one the place where the items part. -/
structure Answers (order : α → Ordering) (p : Position) : Prop where
  low : start ≤ p.index
  high : p.index ≤ start + size
  exact : p.exact = true → p.index < start + size ∧ ∃ x ∈ items[p.index]?, order x = .eq
  ordered : ∀ beyond level before, (window items start size).toList.map order =
      List.replicate beyond .gt ++ List.replicate level .eq ++ List.replicate before .lt →
    (p.exact = true ↔ ∃ x ∈ window items start size, order x = .eq) ∧
      p = if level = 0 then ⟨start + beyond, false⟩ else ⟨start + (beyond + level - 1), true⟩

theorem answers_locate (inside : start + size ≤ items.size) :
    Answers items start size (fun x => cmp key (keyOf x))
      (locate (orderAt items key keyOf cmp) start size) := by
  have bounds := index_bounds (orderAt items key keyOf cmp) start size
  refine ⟨bounds.1, bounds.2, ?_, ?_⟩
  · intro found
    obtain ⟨_, high, level⟩ := index_of_exact _ _ _ found
    refine ⟨high, items[(locate (orderAt items key keyOf cmp) start size).index], ?_, ?_⟩
    · exact Array.getElem?_eq_getElem (by omega)
    · rw [← level, orderAt_getElem]
  · intro beyond level before orders
    have some : (∃ x ∈ window items start size, cmp key (keyOf x) = .eq) ↔ level ≠ 0 := by
      have member := congrArg (Ordering.eq ∈ ·) orders
      simpa [List.mem_map, List.mem_replicate] using member
    rw [locate_eq_binarySearch_window items start size key keyOf cmp inside, some,
      binarySearch_eq_of_runs _ key keyOf cmp beyond level before orders]
    by_cases none : level = 0
    · simp [none]
    · simp [none]

/-- A search refuses a window just if it does not fit. Else it answers what a search of the items in
    the window alone answers, counted from the first item of all. -/
theorem binarySearchIn_exact :
    (binarySearchIn items start size key keyOf cmp = .error ⟨start, size⟩ ↔
      Size.greatest < start + size ∨ items.size < start + size) ∧
    (start + size ≤ Size.greatest → start + size ≤ items.size →
      ∃ p, binarySearchIn items start size key keyOf cmp = .ok p ∧
        p = ⟨start + (binarySearch (window items start size) key keyOf cmp).index,
          (binarySearch (window items start size) key keyOf cmp).exact⟩ ∧
        Answers items start size (fun x => cmp key (keyOf x)) p) ∧
    (items.size ≤ Size.greatest →
      binarySearchIn items 0 items.size key keyOf cmp = .ok (binarySearch items key keyOf cmp)) := by
  refine ⟨binarySearchIn_eq_error_iff items start size key keyOf cmp, ?_, ?_⟩
  · intro countable inside
    exact ⟨_, binarySearchIn_of_fits items start size key keyOf cmp countable inside,
      locate_eq_binarySearch_window items start size key keyOf cmp inside,
      answers_locate items start size key keyOf cmp inside⟩
  · intro countable
    exact binarySearchIn_of_fits items 0 items.size key keyOf cmp (by omega) (by omega)

/-- Pairs by their second part. Those in the middle are in order and those around them are not. -/
def levelPairs : Array (Bool × Nat) :=
  #[(true, 9), (false, 1), (true, 4), (false, 4), (true, 6), (false, 0)]

theorem binarySearchIn_levelPairs :
    binarySearchIn levelPairs 1 4 4 Prod.snd compare = .ok ⟨3, true⟩ ∧
      Answers levelPairs 1 4 (fun x => compare 4 x.2) ⟨3, true⟩ ∧
      binarySearchIn levelPairs 0 6 5 Prod.snd compare =
        .ok (binarySearch levelPairs 5 Prod.snd compare) ∧
      binarySearchIn levelPairs 4 3 4 Prod.snd compare = .error ⟨4, 3⟩ := by
  obtain ⟨_, answered, _⟩ := binarySearchIn_exact levelPairs 1 4 4 Prod.snd compare
  obtain ⟨_, _, whole⟩ := binarySearchIn_exact levelPairs 0 6 5 Prod.snd compare
  obtain ⟨refused, _, _⟩ := binarySearchIn_exact levelPairs 4 3 4 Prod.snd compare
  have found : binarySearchIn levelPairs 1 4 4 Prod.snd compare = .ok ⟨3, true⟩ := by
    rw [binarySearchIn_of_fits levelPairs 1 4 4 Prod.snd compare (by decide) (by decide)]
    exact congrArg Except.ok (by decide +kernel)
  obtain ⟨p, same, _, answers⟩ := answered (by decide) (by decide)
  rw [found] at same
  obtain rfl := Except.ok.inj same
  exact ⟨found, answers, whole (by decide), refused.mpr (.inr (by decide))⟩

end IntervalAutomata.Search
