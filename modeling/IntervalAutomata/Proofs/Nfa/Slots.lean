import IntervalAutomata.Nfa.Reachability
import IntervalAutomata.Proofs.Nfa.StateSet
import IntervalAutomata.Thompson.Fragment

namespace IntervalAutomata.Nfa

universe u

variable {α : Type u}

theorem edges?_eq_none_of_size_le (nfa : Nfa α) (q : State) (beyond : nfa.slots.size ≤ q.index) :
    nfa.edges? q = none := by
  simp [edges?, Array.getElem?_eq_none beyond]

theorem index_lt_of_contains (nfa : Nfa α) (q : State) (live : nfa.contains q = true) :
    q.index < nfa.slots.size := by
  apply Nat.lt_of_not_le
  intro beyond
  simp [contains, edges?_eq_none_of_size_le nfa q beyond] at live

theorem edges_of_not_contains (nfa : Nfa α) (q : State) (missing : nfa.contains q = false) :
    nfa.edges q = {} := by
  have vacant := Option.isSome_eq_false_iff.mp missing
  simp [edges, Option.isNone_iff_eq_none.mp vacant]

theorem mem_states (nfa : Nfa α) (q : State) : q ∈ nfa.states ↔ nfa.contains q = true := by
  constructor
  · intro member
    exact (List.mem_filter.mp member).2
  · intro live
    refine List.mem_filter.mpr ⟨List.mem_map.mpr ⟨q.index, ?_, rfl⟩, live⟩
    exact List.mem_range.mpr (index_lt_of_contains nfa q live)

theorem states_ascending (nfa : Nfa α) : nfa.states.Pairwise fun p q => p.index < q.index := by
  apply List.Pairwise.filter
  exact List.Pairwise.map _ (fun _ _ less => less) List.pairwise_lt_range

theorem nodup_states (nfa : Nfa α) : nfa.states.Nodup :=
  StateSet.nodup_of_ascending (states_ascending nfa)

theorem length_states_of_mem (nfa : Nfa α) (qs : List State) (nodup : qs.Nodup)
    (same : ∀ q, nfa.contains q = true ↔ q ∈ qs) : nfa.states.length = qs.length := by
  apply List.Perm.length_eq
  rw [List.perm_ext_iff_of_nodup (nodup_states nfa) nodup]
  intro q
  rw [mem_states, same]

theorem length_states (nfa : Nfa α) : nfa.states.length = nfa.slots.countP Option.isSome := by
  have filled : nfa.slots.toList.map Option.isSome =
      (List.range nfa.slots.size).map fun index => nfa.contains ⟨index⟩ := by
    apply List.ext_getElem
    · simp
    · intro index inside _
      have bound : index < nfa.slots.size := by simpa using inside
      simp [contains, edges?, Array.getElem?_eq_getElem bound]
  have counts := congrArg (List.countP id) filled
  rw [List.countP_map, List.countP_map] at counts
  rw [states, ← List.countP_eq_length_filter, List.countP_map, ← Array.countP_toList]
  exact counts.symm

theorem edges?_newStates (nfa : Nfa α) (count : Nat) (q : State) :
    (nfa.newStates count).edges? q =
      if nfa.slots.size ≤ q.index ∧ q.index < nfa.slots.size + count then some {}
      else nfa.edges? q := by
  unfold edges? newStates
  by_cases old : q.index < nfa.slots.size
  · rw [Array.getElem?_append_left old, if_neg (by omega)]
  · rw [Array.getElem?_append_right (by omega), Array.getElem?_replicate]
    by_cases new : q.index < nfa.slots.size + count
    · rw [if_pos (by omega), if_pos (by omega)]
      rfl
    · rw [if_neg (by omega), if_neg (by omega), Array.getElem?_eq_none (by omega)]

theorem newState_eq (nfa : Nfa α) : nfa.newState.1 = nfa.newStates 1 := by
  rw [newState, newStates, Array.push_eq_append]
  rfl

theorem edges?_ensure (nfa : Nfa α) (p q : State) :
    (nfa.ensure p).edges? q = if q = p then some (nfa.edges p) else nfa.edges? q := by
  unfold ensure
  by_cases known : nfa.contains p = true
  · rw [if_pos known]
    by_cases same : q = p
    · rw [if_pos same, same, edges]
      obtain ⟨edges, found⟩ := Option.isSome_iff_exists.mp known
      rw [found]
      rfl
    · rw [if_neg same]
  · rw [if_neg known, edges_of_not_contains nfa p (Bool.eq_false_iff.mpr known)]
    unfold edges?
    by_cases same : q = p
    · rw [if_pos same, same, Array.getElem?_setIfInBounds_self_of_lt]
      · rfl
      · simp
        omega
    · have apart : p.index ≠ q.index := fun h => same (State.ext h.symm)
      rw [if_neg same, Array.getElem?_setIfInBounds_ne apart]
      by_cases old : q.index < nfa.slots.size
      · rw [Array.getElem?_append_left old]
      · have beyond : nfa.slots[q.index]? = none := Array.getElem?_eq_none (by omega)
        rw [Array.getElem?_append_right (by omega), Array.getElem?_replicate, beyond]
        split <;> rfl

theorem edges?_setEdges (nfa : Nfa α) (p q : State) (edges : Edges α)
    (live : nfa.contains p = true) :
    (nfa.setEdges p edges).edges? q = if q = p then some edges else nfa.edges? q := by
  unfold edges? setEdges
  by_cases same : q = p
  · rw [if_pos same, same,
      Array.getElem?_setIfInBounds_self_of_lt (index_lt_of_contains nfa p live)]
    rfl
  · have apart : p.index ≠ q.index := fun h => same (State.ext h.symm)
    rw [if_neg same, Array.getElem?_setIfInBounds_ne apart]

theorem edges?_removeStates (nfa : Nfa α) (doomed : StateSet) (q : State) :
    (nfa.removeStates doomed).edges? q =
      if q ∈ doomed then none else (nfa.edges? q).map (·.dropTargets doomed) := by
  unfold edges? removeStates
  rw [Array.getElem?_mapIdx]
  by_cases gone : q ∈ doomed
  · cases nfa.slots[q.index]? <;> simp [gone]
  · cases nfa.slots[q.index]? <;> simp [gone]

theorem contains_newStates (nfa : Nfa α) (count : Nat) (q : State) :
    (nfa.newStates count).contains q = true ↔ nfa.contains q = true ∨
      nfa.slots.size ≤ q.index ∧ q.index < nfa.slots.size + count := by
  rw [contains, edges?_newStates, contains]
  split
  · rename_i new
    simp [new]
  · rename_i old
    simp only [old, or_false]

@[simp] theorem edges_newStates (nfa : Nfa α) (count : Nat) (q : State) :
    (nfa.newStates count).edges q = nfa.edges q := by
  rw [edges, edges?_newStates]
  split
  · rename_i new
    rw [edges, edges?_eq_none_of_size_le nfa q new.1]
    rfl
  · rfl

theorem contains_ensure (nfa : Nfa α) (p q : State) :
    (nfa.ensure p).contains q = true ↔ nfa.contains q = true ∨ q = p := by
  rw [contains, edges?_ensure, contains]
  split <;> simp_all

@[simp] theorem edges_ensure (nfa : Nfa α) (p q : State) :
    (nfa.ensure p).edges q = nfa.edges q := by
  rw [edges, edges?_ensure]
  split
  · rename_i same
    rw [same]
    rfl
  · rfl

@[simp] theorem initial_ensure (nfa : Nfa α) (p : State) :
    (nfa.ensure p).initial = nfa.initial := by
  unfold ensure
  split <;> rfl

@[simp] theorem accepting_ensure (nfa : Nfa α) (p : State) :
    (nfa.ensure p).accepting = nfa.accepting := by
  unfold ensure
  split <;> rfl

theorem live_ensure (nfa : Nfa α) (p : State) :
    (nfa.ensure p).live = if nfa.contains p then nfa.live else nfa.live + 1 := by
  unfold ensure
  split <;> rfl

theorem contains_setEdges (nfa : Nfa α) (p q : State) (edges : Edges α)
    (live : nfa.contains p = true) : (nfa.setEdges p edges).contains q = nfa.contains q := by
  rw [contains, edges?_setEdges nfa p q edges live]
  split
  · rename_i same
    rw [same, live]
    rfl
  · rfl

theorem edges_setEdges (nfa : Nfa α) (p q : State) (edges : Edges α)
    (live : nfa.contains p = true) :
    (nfa.setEdges p edges).edges q = if q = p then edges else nfa.edges q := by
  rw [Nfa.edges, edges?_setEdges nfa p q edges live]
  split <;> rfl

theorem contains_removeStates (nfa : Nfa α) (doomed : StateSet) (q : State) :
    (nfa.removeStates doomed).contains q = true ↔ nfa.contains q = true ∧ q ∉ doomed := by
  rw [contains, edges?_removeStates, contains]
  split <;> simp_all

theorem edges_removeStates (nfa : Nfa α) (doomed : StateSet) (q : State) :
    (nfa.removeStates doomed).edges q =
      if q ∈ doomed then {} else (nfa.edges q).dropTargets doomed := by
  rw [edges, edges?_removeStates, edges]
  split
  · rfl
  · cases nfa.edges? q with
    | none => simp [Edges.dropTargets]
    | some e => rfl

end IntervalAutomata.Nfa
