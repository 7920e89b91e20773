import IntervalAutomata.Proofs.Nfa.Reach
import IntervalAutomata.Proofs.Nfa.WellFormed
import IntervalAutomata.Proofs.Thompson.Block

namespace IntervalAutomata.Nfa

open Std

universe u

variable {α : Type u}

theorem contains_of_mem_edges {nfa : Nfa α} {p q : State} {label : Label α}
    (edge : (label, q) ∈ (nfa.edges p).toList) : nfa.contains p = true := by
  cases known : nfa.contains p with
  | true => rfl
  | false => simp [edges_of_not_contains nfa p known, Edges.toList] at edge

theorem mem_transitionsFrom (nfa : Nfa α) (q : State) (t : Transition α) :
    t ∈ nfa.transitionsFrom q ↔ t.source = q ∧ (t.label, t.target) ∈ (nfa.edges q).toList := by
  rw [transitionsFrom, List.mem_map]
  constructor
  · intro h
    obtain ⟨edge, member, rfl⟩ := h
    exact ⟨rfl, member⟩
  · intro h
    obtain ⟨rfl, member⟩ := h
    exact ⟨(t.label, t.target), member, rfl⟩

theorem mem_transitions (nfa : Nfa α) (t : Transition α) :
    t ∈ nfa.transitions ↔ (t.label, t.target) ∈ (nfa.edges t.source).toList := by
  simp only [transitions, List.mem_flatMap, mem_states, mem_transitionsFrom]
  constructor
  · intro h
    obtain ⟨q, _, rfl, edge⟩ := h
    exact edge
  · intro edge
    exact ⟨t.source, contains_of_mem_edges edge, rfl, edge⟩

theorem mem_edges (nfa : Nfa α) (p q : State) (label : Label α) :
    (label, q) ∈ (nfa.edges p).toList ↔ ⟨p, label, q⟩ ∈ nfa.transitions :=
  (mem_transitions nfa ⟨p, label, q⟩).symm

theorem mem_transitions_of_edges_eq {nfa other : Nfa α} (same : ∀ q, other.edges q = nfa.edges q)
    (t : Transition α) : t ∈ other.transitions ↔ t ∈ nfa.transitions := by
  rw [mem_transitions, mem_transitions, same]

@[simp] theorem transitions_empty : (∅ : Nfa α).transitions = [] := rfl

@[simp] theorem not_mem_accepting_empty (q : State) : q ∉ (∅ : Nfa α).accepting :=
  TreeSet.not_mem_emptyc

theorem mem_transitions_setInitial (nfa : Nfa α) (p : State) (t : Transition α) :
    t ∈ (nfa.setInitial p).transitions ↔ t ∈ nfa.transitions :=
  mem_transitions_of_edges_eq (edges_ensure nfa p) t

theorem mem_transitions_addAccepting (nfa : Nfa α) (p : State) (t : Transition α) :
    t ∈ (nfa.addAccepting p).1.transitions ↔ t ∈ nfa.transitions :=
  mem_transitions_of_edges_eq (edges_ensure nfa p) t

theorem contains_setInitial (nfa : Nfa α) (p q : State) :
    (nfa.setInitial p).contains q = true ↔ nfa.contains q = true ∨ q = p :=
  contains_ensure nfa p q

theorem contains_addAccepting (nfa : Nfa α) (p q : State) :
    (nfa.addAccepting p).1.contains q = true ↔ nfa.contains q = true ∨ q = p :=
  contains_ensure nfa p q

theorem initial_addAccepting (nfa : Nfa α) (p : State) :
    (nfa.addAccepting p).1.initial = nfa.initial :=
  initial_ensure nfa p

theorem mem_accepting_addAccepting (nfa : Nfa α) (p q : State) :
    q ∈ (nfa.addAccepting p).1.accepting ↔ q = p ∨ q ∈ nfa.accepting := by
  rw [← accepting_ensure nfa p]
  exact StateSet.mem_insert (nfa.ensure p).accepting p q

theorem addAccepting_reports (nfa : Nfa α) (p : State) :
    (nfa.addAccepting p).2 = true ↔ p ∉ nfa.accepting := by
  show (!(nfa.ensure p).accepting.contains p) = true ↔ _
  rw [accepting_ensure, TreeSet.mem_iff_contains, Bool.not_eq_true', Bool.not_eq_true]

theorem removeAccepting_reports (nfa : Nfa α) (p : State) :
    (nfa.removeAccepting p).2 = true ↔ p ∈ nfa.accepting :=
  TreeSet.mem_iff_contains.symm

theorem transitions_ascending (nfa : Nfa α) :
    nfa.transitions.Pairwise fun s t => s.source.index ≤ t.source.index := by
  apply List.pairwise_flatMap.mpr
  constructor
  · intro q _
    apply List.pairwise_of_forall_mem_list
    intro s fromS t fromT
    apply Nat.le_of_eq
    rw [((mem_transitionsFrom nfa q s).mp fromS).1, ((mem_transitionsFrom nfa q t).mp fromT).1]
  · apply List.Pairwise.imp _ (states_ascending nfa)
    intro p q less s fromP t fromQ
    rw [((mem_transitionsFrom nfa p s).mp fromP).1, ((mem_transitionsFrom nfa q t).mp fromQ).1]
    exact Nat.le_of_lt less

theorem mem_transitions_removeStates (nfa : Nfa α) (doomed : StateSet) (t : Transition α) :
    t ∈ (nfa.removeStates doomed).transitions ↔
      t ∈ nfa.transitions ∧ t.source ∉ doomed ∧ t.target ∉ doomed := by
  rw [mem_transitions, edges_removeStates, mem_transitions]
  split
  · rename_i gone
    simp [Edges.toList, gone]
  · rename_i kept
    simp [Edges.mem_toList_dropTargets, kept]

theorem mem_successors (nfa : Nfa α) (p q : State) :
    q ∈ nfa.successors p ↔ ∃ label, ⟨p, label, q⟩ ∈ nfa.transitions := by
  simp only [successors, List.mem_map, mem_transitionsFrom, mem_transitions]
  constructor
  · intro h
    obtain ⟨t, ⟨rfl, edge⟩, rfl⟩ := h
    exact ⟨t.label, edge⟩
  · intro h
    obtain ⟨label, edge⟩ := h
    exact ⟨⟨p, label, q⟩, ⟨rfl, edge⟩, rfl⟩

theorem mem_reachableFrom (nfa : Nfa α) (seed q : State) :
    q ∈ nfa.reachableFrom seed ↔
      nfa.contains seed = true ∧ Traversal.Leads nfa.successors seed q := by
  unfold reachableFrom
  split
  · rename_i live
    rw [Traversal.mem_layers]
    · simp [live]
    · intro p unseen
      exact absurd unseen TreeSet.not_mem_emptyc
  · rename_i missing
    simp [missing]

theorem mem_unreachableFrom (nfa : Nfa α) (seed q : State) :
    q ∈ nfa.unreachableFrom seed ↔ nfa.contains q = true ∧
      ¬(nfa.contains seed = true ∧ Traversal.Leads nfa.successors seed q) := by
  simp [unreachableFrom, mem_states, mem_reachableFrom]

variable [Ord α]

theorem WellFormed.nodup_transitionsFrom {nfa : Nfa α} (wellFormed : nfa.WellFormed) (q : State) :
    (nfa.transitionsFrom q).Nodup := by
  apply List.Pairwise.map _ _ (wellFormed.edges_wellFormed q).nodup_toList
  intro x y differ same
  simp only [Transition.mk.injEq] at same
  exact differ (Prod.ext same.2.1 same.2.2)

theorem WellFormed.nodup_transitions {nfa : Nfa α} (wellFormed : nfa.WellFormed) :
    nfa.transitions.Nodup := by
  apply List.pairwise_flatMap.mpr
  constructor
  · intro q _
    exact wellFormed.nodup_transitionsFrom q
  · apply List.Pairwise.imp _ (nodup_states nfa)
    intro p q differ s fromP t fromQ same
    have source := ((mem_transitionsFrom nfa p s).mp fromP).1
    rw [same, ((mem_transitionsFrom nfa q t).mp fromQ).1] at source
    exact differ source.symm

section Live

variable [DecidableEq α]

theorem contains_addTransition (nfa : Nfa α) (t : Transition α) (q : State) :
    (nfa.addTransition t).1.contains q = true ↔
      nfa.contains q = true ∨ q = t.source ∨ q = t.target := by
  rw [addTransition_eq, ← contains_withEnds]
  split
  · rw [contains_setEdges _ _ _ _ ((contains_withEnds nfa t t.source).mpr (by simp))]
  · rfl

theorem live_addTransition {nfa : Nfa α} {t : Transition α} {rest : List (Transition α)}
    (live : ∀ s ∈ t :: rest, nfa.contains s.source = true ∧ nfa.contains s.target = true) :
    ∀ s ∈ rest, (nfa.addTransition t).1.contains s.source = true ∧
      (nfa.addTransition t).1.contains s.target = true := by
  intro s member
  obtain ⟨source, target⟩ := live s (List.mem_cons_of_mem t member)
  exact ⟨(contains_addTransition nfa t _).mpr (.inl source),
    (contains_addTransition nfa t _).mpr (.inl target)⟩

theorem addTransitions_of_live (property : Nfa α → Prop) {nfa : Nfa α} {ts : List (Transition α)}
    (live : ∀ t ∈ ts, nfa.contains t.source = true ∧ nfa.contains t.target = true)
    (start : property nfa)
    (step : ∀ t ∈ ts, ∀ next : Nfa α, next.contains t.source = true →
      next.contains t.target = true → property next → property (next.addTransition t).1) :
    property (nfa.addTransitions ts) := by
  induction ts generalizing nfa with
  | nil => exact start
  | cons t rest ih =>
    have ends := live t List.mem_cons_self
    apply ih (live_addTransition live) (step t List.mem_cons_self nfa ends.1 ends.2 start)
    intro s member
    exact step s (List.mem_cons_of_mem t member)

theorem contains_addTransitions {nfa : Nfa α} {ts : List (Transition α)}
    (live : ∀ t ∈ ts, nfa.contains t.source = true ∧ nfa.contains t.target = true) (q : State) :
    (nfa.addTransitions ts).contains q = true ↔ nfa.contains q = true := by
  apply addTransitions_of_live (fun next => next.contains q = true ↔ nfa.contains q = true) live
    Iff.rfl
  intro t _ next source target same
  rw [contains_addTransition, or_iff_left_of_imp, same]
  intro h
  rcases h with rfl | rfl
  · exact source
  · exact target

omit [Ord α] [DecidableEq α] in
theorem live_newStates {nfa : Nfa α} {count : Nat} {ts : List (Transition α)}
    (inside : ∀ t ∈ ts,
      t.source.InBlock nfa.slots.size count ∧ t.target.InBlock nfa.slots.size count) :
    ∀ t ∈ ts, (nfa.newStates count).contains t.source = true ∧
      (nfa.newStates count).contains t.target = true := by
  intro t member
  obtain ⟨source, target⟩ := inside t member
  exact ⟨(contains_newStates nfa count _).mpr (.inr source),
    (contains_newStates nfa count _).mpr (.inr target)⟩

theorem contains_addFragment (nfa : Nfa α) (f : Fragment α) (within : f.Within nfa.slots.size)
    (q : State) :
    (nfa.addFragment f).contains q = true ↔
      nfa.contains q = true ∨ q.InBlock nfa.slots.size f.size := by
  rw [addFragment_eq, contains_addTransitions (live_newStates within.ends), contains_newStates]
  rfl

end Live

namespace WellFormed

variable [TransOrd α] [DecidableEq α] {nfa : Nfa α} (wellFormed : nfa.WellFormed)
include wellFormed

theorem mem_transitions_addTransition (t s : Transition α) :
    s ∈ (nfa.addTransition t).1.transitions ↔ s ∈ nfa.transitions ∨ s = t := by
  rw [mem_transitions, mem_transitions]
  rcases wellFormed.addTransition_cases t with known | new
  · rw [known.1, edges_withEnds]
    constructor
    · exact .inl
    · intro h
      rcases h with old | rfl
      · exact old
      · exact known.2
  · obtain ⟨larger, added, _, _, gained⟩ := new
    rw [added, edges_setEdges _ _ _ _ ((contains_withEnds nfa t t.source).mpr (by simp))]
    split
    · rename_i same
      cases s
      cases t
      simp_all
    · rename_i other
      have differ : s ≠ t := fun same => other (congrArg Transition.source same)
      simp [differ]

theorem addTransition_reports (t : Transition α) :
    (nfa.addTransition t).2 = true ↔ t ∉ nfa.transitions := by
  rw [mem_transitions]
  rcases wellFormed.addTransition_cases t with known | new
  · simp [known.1, known.2]
  · obtain ⟨larger, added, missing, _⟩ := new
    simp [added, missing]

omit wellFormed [TransOrd α] in
theorem marks_addTransition (nfa : Nfa α) (t : Transition α) :
    (nfa.addTransition t).1.initial = nfa.initial ∧
      (nfa.addTransition t).1.accepting = nfa.accepting := by
  rw [addTransition_eq]
  split <;> simp [Nfa.setEdges, Nfa.withEnds]

theorem contains_removeTransition (t : Transition α) (q : State) :
    (nfa.removeTransition t).1.contains q = nfa.contains q := by
  rcases wellFormed.removeTransition_cases t with unknown | found
  · rw [unknown.1]
  · obtain ⟨smaller, removed, member, _⟩ := found
    rw [removed, contains_setEdges _ _ _ _ (wellFormed.ends_live _ _ _ member).1]

theorem mem_transitions_removeTransition (t s : Transition α) :
    s ∈ (nfa.removeTransition t).1.transitions ↔ s ∈ nfa.transitions ∧ s ≠ t := by
  rw [mem_transitions, mem_transitions]
  rcases wellFormed.removeTransition_cases t with unknown | found
  · rw [unknown.1]
    constructor
    · intro member
      refine ⟨member, ?_⟩
      intro same
      exact unknown.2 (same ▸ member)
    · exact And.left
  · obtain ⟨smaller, removed, member, _, lost⟩ := found
    rw [removed, edges_setEdges _ _ _ _ (wellFormed.ends_live _ _ _ member).1]
    split
    · rename_i same
      cases s
      cases t
      simp_all
    · rename_i other
      have differ : s ≠ t := fun same => other (congrArg Transition.source same)
      simp [differ]

theorem removeTransition_reports (t : Transition α) :
    (nfa.removeTransition t).2 = true ↔ t ∈ nfa.transitions := by
  rw [mem_transitions]
  rcases wellFormed.removeTransition_cases t with unknown | found
  · simp [unknown.1, unknown.2]
  · obtain ⟨smaller, removed, member, _⟩ := found
    simp [removed, member]

omit wellFormed [TransOrd α] in
theorem marks_removeTransition (nfa : Nfa α) (t : Transition α) :
    (nfa.removeTransition t).1.initial = nfa.initial ∧
      (nfa.removeTransition t).1.accepting = nfa.accepting := by
  unfold Nfa.removeTransition
  split <;> exact ⟨rfl, rfl⟩

theorem mem_transitions_addTransitions (ts : List (Transition α)) (s : Transition α) :
    s ∈ (nfa.addTransitions ts).transitions ↔ s ∈ nfa.transitions ∨ s ∈ ts := by
  induction ts generalizing nfa with
  | nil => simp [Nfa.addTransitions]
  | cons t rest ih =>
    change s ∈ ((nfa.addTransition t).1.addTransitions rest).transitions ↔ _
    rw [ih (wellFormed.addTransition t), wellFormed.mem_transitions_addTransition, List.mem_cons,
      or_assoc]

omit wellFormed [TransOrd α] in
theorem marks_addTransitions (nfa : Nfa α) (ts : List (Transition α)) :
    (nfa.addTransitions ts).initial = nfa.initial ∧
      (nfa.addTransitions ts).accepting = nfa.accepting := by
  induction ts generalizing nfa with
  | nil => exact ⟨rfl, rfl⟩
  | cons t rest ih =>
    obtain ⟨initial, accepting⟩ := ih (nfa.addTransition t).1
    obtain ⟨initialOnce, acceptingOnce⟩ := marks_addTransition nfa t
    exact ⟨initial.trans initialOnce, accepting.trans acceptingOnce⟩

theorem mem_transitions_addFragment (f : Fragment α) (t : Transition α) :
    t ∈ (nfa.addFragment f).transitions ↔ t ∈ nfa.transitions ∨ t ∈ f.transitions := by
  rw [addFragment_eq, (wellFormed.newStates f.size).mem_transitions_addTransitions,
    mem_transitions_of_edges_eq (edges_newStates nfa f.size)]

omit wellFormed [TransOrd α] in
theorem marks_addFragment (nfa : Nfa α) (f : Fragment α) :
    (nfa.addFragment f).initial = nfa.initial ∧ (nfa.addFragment f).accepting = nfa.accepting :=
  marks_addTransitions (nfa.newStates f.size) f.transitions

end WellFormed

end IntervalAutomata.Nfa
