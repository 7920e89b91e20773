import IntervalAutomata.Nfa.State

/-!
Breadth-first traversal, one layer at a time. Only finitely many states have successors, and every
layer but the last two uses up one that was not seen before, so the traversal ends.
-/

namespace IntervalAutomata.Traversal

/-- The states of a list that are not in a set, in order and once each, and the set with them. -/
def fresh (seen : StateSet) : List State → List State × StateSet
  | [] => ([], seen)
  | q :: rest =>
    if q ∈ seen then fresh seen rest
    else
      let (new, seen) := fresh (seen.insert q) rest
      (q :: new, seen)

theorem mem_fresh_snd {seen : StateSet} {layer : List State} {q : State} :
    q ∈ (fresh seen layer).2 ↔ q ∈ seen ∨ q ∈ layer := by
  induction layer generalizing seen with
  | nil => simp [fresh]
  | cons p rest ih =>
    unfold fresh
    split
    · rename_i known
      rw [ih, List.mem_cons]
      constructor
      · rintro (h | h) <;> simp [h]
      · rintro (h | rfl | h) <;> simp [*]
    · simp only [ih, Std.TreeSet.mem_insert, Std.LawfulEqCmp.compare_eq_iff_eq, List.mem_cons]
      constructor
      · rintro ((h | h) | h) <;> simp [h]
      · rintro (h | h | h) <;> simp [h]

theorem mem_fresh_fst {seen : StateSet} {layer : List State} {q : State} :
    q ∈ (fresh seen layer).1 ↔ q ∉ seen ∧ q ∈ layer := by
  induction layer generalizing seen with
  | nil => simp [fresh]
  | cons p rest ih =>
    unfold fresh
    split
    · rename_i known
      rw [ih, List.mem_cons]
      constructor
      · rintro ⟨new, h⟩
        exact ⟨new, .inr h⟩
      · rintro ⟨new, rfl | h⟩
        · exact absurd known new
        · exact ⟨new, h⟩
    · rename_i unknown
      simp only [List.mem_cons, ih, Std.TreeSet.mem_insert, Std.LawfulEqCmp.compare_eq_iff_eq,
        not_or]
      constructor
      · rintro (rfl | ⟨⟨_, new⟩, h⟩)
        · exact ⟨unknown, .inl rfl⟩
        · exact ⟨new, .inr h⟩
      · rintro ⟨new, h⟩
        by_cases same : q = p
        · exact .inl same
        · exact .inr ⟨⟨fun h => same h.symm, new⟩, h.resolve_left same⟩

def unseen (bound : Nat) (seen : StateSet) : List Nat :=
  (List.range bound).filter fun index => ⟨index⟩ ∉ seen

theorem length_unseen_le {bound : Nat} {seen larger : StateSet}
    (grows : ∀ q, q ∈ seen → q ∈ larger) :
    (unseen bound larger).length ≤ (unseen bound seen).length := by
  unfold unseen
  rw [← List.countP_eq_length_filter, ← List.countP_eq_length_filter]
  apply List.countP_mono_left
  intro index _ new
  simp only [decide_eq_true_eq] at *
  exact fun h => new (grows _ h)

theorem length_unseen_lt {bound : Nat} {seen larger : StateSet} {q : State}
    (grows : ∀ q, q ∈ seen → q ∈ larger) (below : q.index < bound) (new : q ∉ seen)
    (added : q ∈ larger) :
    (unseen bound larger).length < (unseen bound seen).length := by
  have kept : unseen bound larger =
      (unseen bound seen).filter fun index => ⟨index⟩ ∉ larger := by
    unfold unseen
    rw [List.filter_filter]
    apply List.filter_congr
    intro index _
    by_cases h : ⟨index⟩ ∈ larger
    · simp [h]
    · have : ⟨index⟩ ∉ seen := fun known => h (grows _ known)
      simp [h, this]
  rw [kept]
  apply List.length_filter_lt_length_iff_exists.mpr
  exact ⟨q.index, by simp [unseen, below, new], by simp [added]⟩

/-- The states that can be reached from a layer past those in a set, layer after layer: first the
    new states of the layer, then what their successors lead to. -/
def layers (successors : State → List State) (bound : Nat)
    (bounded : ∀ q, bound ≤ q.index → successors q = []) (seen : StateSet) (layer : List State) :
    List State :=
  let new := (fresh seen layer).1
  if new.isEmpty then []
  else new ++ layers successors bound bounded (fresh seen layer).2 (new.flatMap successors)
termination_by ((unseen bound seen).length, layer.length)
decreasing_by
  rename_i nonempty
  have grows : ∀ q, q ∈ seen → q ∈ (fresh seen layer).2 := fun q h => mem_fresh_snd.mpr (.inl h)
  by_cases lower : ∃ q ∈ new, q.index < bound
  · obtain ⟨q, isNew, below⟩ := lower
    obtain ⟨unknown, inLayer⟩ := mem_fresh_fst.mp isNew
    exact .left _ _ (length_unseen_lt grows below unknown (mem_fresh_snd.mpr (.inr inLayer)))
  · -- no state of the layer leads on, so the next one is empty
    have ends : new.flatMap successors = [] := by
      rw [List.flatMap_eq_nil_iff]
      intro q isNew
      exact bounded q (Nat.le_of_not_lt fun below => lower ⟨q, isNew, below⟩)
    have started : 0 < layer.length := by
      cases layer with
      | nil => simp [new, fresh] at nonempty
      | cons q rest => simp
    have noMore : (unseen bound (fresh seen layer).2).length ≤ (unseen bound seen).length :=
      length_unseen_le grows
    rcases Nat.lt_or_eq_of_le noMore with fewer | same
    · exact .left _ _ fewer
    · rw [same, ends]
      exact .right _ started

end IntervalAutomata.Traversal
