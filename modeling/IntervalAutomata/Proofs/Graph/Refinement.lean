import IntervalAutomata.Proofs.Graph.Basic
import IntervalAutomata.Proofs.Nfa.Transitions

namespace IntervalAutomata

open Std

universe u

variable {α : Type u}

namespace Nfa

structure Denotes (nfa : Nfa α) (g : Graph α) : Prop where
  states : ∀ q, nfa.contains q = true ↔ q ∈ g.states
  initial : nfa.initial = g.initial
  accepting : ∀ q, q ∈ nfa.accepting ↔ q ∈ g.accepting
  transitions : ∀ t, t ∈ nfa.transitions ↔ t ∈ g.transitions

structure Represents (nfa : Nfa α) (g : Graph α) : Prop where
  states_ascending : nfa.states.Pairwise fun p q => p.index < q.index
  states_exact : ∀ q, q ∈ nfa.states ↔ q ∈ g.states
  size_eq : nfa.size = g.states.card
  initial_eq : nfa.initial = g.initial
  accepting_ascending : nfa.acceptingStates.Pairwise fun p q => p.index < q.index
  accepting_exact : ∀ q, q ∈ nfa.acceptingStates ↔ q ∈ g.accepting
  transitions_ascending : nfa.transitions.Pairwise fun s t => s.source.index ≤ t.source.index
  transitions_nodup : nfa.transitions.Nodup
  transitions_exact : ∀ t, t ∈ nfa.transitions ↔ t ∈ g.transitions
  transitionsFrom_nodup : ∀ q, (nfa.transitionsFrom q).Nodup
  transitionsFrom_exact : ∀ q t, t ∈ nfa.transitionsFrom q ↔ t ∈ g.transitions ∧ t.source = q

theorem Represents.unique {nfa : Nfa α} {g h : Graph α} (one : nfa.Represents g)
    (other : nfa.Represents h) : g = h := by
  have states : g.states = h.states := by
    apply Finset.ext
    intro q
    rw [← one.states_exact, other.states_exact]
  have accepting : g.accepting = h.accepting := by
    apply Finset.ext
    intro q
    rw [← one.accepting_exact, other.accepting_exact]
  have transitions : g.transitions = h.transitions := by
    apply Finset.ext
    intro t
    rw [← one.transitions_exact, other.transitions_exact]
  have initial : g.initial = h.initial := one.initial_eq.symm.trans other.initial_eq
  cases g
  cases h
  simp_all only

theorem denotes_empty : Denotes (∅ : Nfa α) ∅ where
  states q := by
    have missing : (∅ : Nfa α).contains q = false := rfl
    simp [missing]
  initial := rfl
  accepting q := by simp
  transitions t := by simp

namespace Denotes

variable {nfa : Nfa α} {g : Graph α} (denotes : nfa.Denotes g)
include denotes

theorem represents [Ord α] (wellFormed : nfa.WellFormed) : nfa.Represents g where
  states_ascending := Nfa.states_ascending nfa
  states_exact q := by rw [mem_states, denotes.states]
  size_eq := by
    have same : nfa.states.toFinset = g.states := by
      apply Finset.ext
      intro q
      rw [List.mem_toFinset, mem_states, denotes.states]
    rw [← same, List.toFinset_card_of_nodup (nodup_states nfa), wellFormed.length_states_eq]
    rfl
  initial_eq := denotes.initial
  accepting_ascending := StateSet.toList_ascending nfa.accepting
  accepting_exact q := by rw [acceptingStates, TreeSet.mem_toList, denotes.accepting]
  transitions_ascending := Nfa.transitions_ascending nfa
  transitions_nodup := wellFormed.nodup_transitions
  transitions_exact := denotes.transitions
  transitionsFrom_nodup := wellFormed.nodup_transitionsFrom
  transitionsFrom_exact q t := by
    rw [mem_transitionsFrom, ← denotes.transitions, mem_transitions, and_comm]
    apply and_congr_left
    intro same
    rw [same]

theorem ensure (p : State) : (nfa.ensure p).Denotes { g with states := insert p g.states } where
  states q := by rw [contains_ensure, denotes.states, Finset.mem_insert, or_comm]
  initial := by rw [initial_ensure, denotes.initial]
  accepting q := by rw [accepting_ensure, denotes.accepting]
  transitions t := by rw [mem_transitions_of_edges_eq (edges_ensure nfa p), denotes.transitions]

theorem setInitial (p : State) :
    (nfa.setInitial p).Denotes { g with states := insert p g.states, initial := some p } :=
  { denotes.ensure p with initial := rfl }

theorem newState :
    nfa.newState.1.Denotes { g with states := insert ⟨nfa.slots.size⟩ g.states } where
  states q := by
    have numbered : q = ⟨nfa.slots.size⟩ ↔
        nfa.slots.size ≤ q.index ∧ q.index < nfa.slots.size + 1 := by
      rw [State.ext_iff]
      show q.index = nfa.slots.size ↔ _
      omega
    rw [newState_eq, contains_newStates, denotes.states, Finset.mem_insert, numbered, or_comm]
  initial := denotes.initial
  accepting := denotes.accepting
  transitions t := by
    rw [newState_eq, mem_transitions_of_edges_eq (edges_newStates nfa 1), denotes.transitions]

theorem addAccepting (p : State) :
    (nfa.addAccepting p).1.Denotes
      { g with states := insert p g.states, accepting := insert p g.accepting } :=
  { denotes.ensure p with
    accepting := by
      intro q
      rw [mem_accepting_addAccepting, denotes.accepting, Finset.mem_insert] }

theorem removeAccepting (p : State) :
    (nfa.removeAccepting p).1.Denotes { g with accepting := g.accepting.erase p } :=
  { denotes with
    accepting := by
      intro q
      have member := StateSet.mem_erase nfa.accepting p q
      rw [denotes.accepting, and_comm, ← Finset.mem_erase] at member
      exact member }

theorem removeStates (doomed : StateSet) (removed : Finset State)
    (same : ∀ q, q ∈ doomed ↔ q ∈ removed) :
    (nfa.removeStates doomed).Denotes (g.without removed) where
  states q := by
    rw [contains_removeStates, denotes.states, same]
    exact Finset.mem_sdiff.symm
  initial := by
    have kept : (fun q => decide (q ∉ doomed)) = fun q => decide (q ∉ removed) := by
      funext q
      simp [same]
    show nfa.initial.filter _ = g.initial.filter _
    rw [denotes.initial, kept]
  accepting q := by
    have member := StateSet.mem_filter nfa.accepting (fun r => decide (r ∉ doomed)) q
    rw [decide_eq_true_eq, denotes.accepting, same, ← Finset.mem_sdiff] at member
    exact member
  transitions t := by
    rw [mem_transitions_removeStates, denotes.transitions, same, same, Graph.without,
      Finset.mem_filter]

theorem leads_iff (p q : State) : Traversal.Leads nfa.successors p q ↔ g.Leads p q := by
  have same : (fun p q => q ∈ nfa.successors p) =
      fun p q => ∃ label, ⟨p, label, q⟩ ∈ g.transitions := by
    funext p q
    simp only [mem_successors, denotes.transitions]
  rw [Traversal.Leads, same, Graph.Leads]

theorem pruneFrom (seed : State) :
    ∃ doomed : Finset State,
      (∀ q, q ∈ doomed ↔ q ∈ g.states ∧ ¬(seed ∈ g.states ∧ g.Leads seed q)) ∧
      ((nfa.pruneFrom seed).2 = true ↔ doomed.Nonempty) ∧
      (nfa.pruneFrom seed).1.Denotes (g.without doomed) := by
  refine ⟨(nfa.unreachableFrom seed).toFinset, ?_, ?_⟩
  · intro q
    rw [List.mem_toFinset, mem_unreachableFrom, denotes.states, denotes.states,
      denotes.leads_iff]
  · unfold Nfa.pruneFrom
    cases doomed : nfa.unreachableFrom seed with
    | nil =>
      refine ⟨by simp, ?_⟩
      show nfa.Denotes (g.without ∅)
      rw [g.without_empty]
      exact denotes
    | cons q rest =>
      refine ⟨by simp, denotes.removeStates _ _ ?_⟩
      intro p
      rw [StateSet.mem_ofList, List.mem_toFinset]

variable [Ord α] [TransOrd α] [DecidableEq α] (wellFormed : nfa.WellFormed)
include wellFormed

theorem addTransition (t : Transition α) :
    (nfa.addTransition t).1.Denotes
      { g with
        states := insert t.source (insert t.target g.states)
        transitions := insert t g.transitions } where
  states q := by
    rw [contains_addTransition, denotes.states, Finset.mem_insert, Finset.mem_insert]
    tauto
  initial := (WellFormed.marks_addTransition nfa t).1.trans denotes.initial
  accepting q := by rw [(WellFormed.marks_addTransition nfa t).2, denotes.accepting]
  transitions s := by
    rw [wellFormed.mem_transitions_addTransition, denotes.transitions, Finset.mem_insert, or_comm]

theorem removeTransition (t : Transition α) :
    (nfa.removeTransition t).1.Denotes { g with transitions := g.transitions.erase t } where
  states q := by rw [wellFormed.contains_removeTransition, denotes.states]
  initial := (WellFormed.marks_removeTransition nfa t).1.trans denotes.initial
  accepting q := by rw [(WellFormed.marks_removeTransition nfa t).2, denotes.accepting]
  transitions s := by
    rw [wellFormed.mem_transitions_removeTransition, denotes.transitions, Finset.mem_erase,
      and_comm]

theorem addFragment (f : Fragment α) (within : f.Within nfa.slots.size) :
    (nfa.addFragment f).Denotes
      { g with
        states := g.states ∪ Graph.block nfa.slots.size f.size
        transitions := g.transitions ∪ f.transitions.toFinset } where
  states q := by
    rw [nfa.contains_addFragment f within, denotes.states, Finset.mem_union, Graph.mem_block]
  initial := (WellFormed.marks_addFragment nfa f).1.trans denotes.initial
  accepting q := by rw [(WellFormed.marks_addFragment nfa f).2, denotes.accepting]
  transitions t := by
    rw [wellFormed.mem_transitions_addFragment, denotes.transitions, Finset.mem_union,
      List.mem_toFinset]

end Denotes

end Nfa

namespace Operation

variable [Ord α] [Alphabet α] [DecidableEq α]

/-- The automaton represents the graph at every point of a run of operations, and each operation
    answers what it answers on the graph. -/
def Follows (nfa : Nfa α) (g : Graph α) : List (Operation α) → Prop
  | [] => nfa.Represents g
  | operation :: rest =>
    nfa.Represents g ∧ ∃ next, g.Step operation (operation.apply nfa).2 next ∧
      Follows (operation.apply nfa).1 next rest

variable [TransOrd α]

omit [TransOrd α] in
theorem exists_pruneStep {nfa : Nfa α} {g : Graph α} (denotes : nfa.Denotes g) (seed : State) :
    ∃ next, g.Step (pruneFrom seed) ((pruneFrom seed).apply nfa).2 next ∧
      ((pruneFrom seed).apply nfa).1.Denotes next := by
  obtain ⟨doomed, unreachable, answer, pruned⟩ := denotes.pruneFrom seed
  exact ⟨_, .pruneFrom seed doomed _ unreachable answer, pruned⟩

theorem exists_step {nfa : Nfa α} {g : Graph α} (wellFormed : nfa.WellFormed)
    (denotes : nfa.Denotes g) (operation : Operation α) :
    ∃ next, g.Step operation (operation.apply nfa).2 next ∧
      (operation.apply nfa).1.Denotes next := by
  have below : ∀ p ∈ g.states, p.index < nfa.slots.size := fun p member =>
    Nfa.index_lt_of_contains nfa p ((denotes.states p).mpr member)
  cases operation with
  | newState => exact ⟨_, .newState ⟨nfa.slots.size⟩ below, denotes.newState⟩
  | setInitial q => exact ⟨_, .setInitial q, denotes.setInitial q⟩
  | addAccepting q =>
    have answer := nfa.addAccepting_reports q
    rw [denotes.accepting] at answer
    exact ⟨_, .addAccepting q _ answer, denotes.addAccepting q⟩
  | removeAccepting q =>
    have answer := nfa.removeAccepting_reports q
    rw [denotes.accepting] at answer
    exact ⟨_, .removeAccepting q _ answer, denotes.removeAccepting q⟩
  | addTransition t =>
    have answer := wellFormed.addTransition_reports t
    rw [denotes.transitions] at answer
    exact ⟨_, .addTransition t _ answer, denotes.addTransition wellFormed t⟩
  | removeTransition t =>
    have answer := wellFormed.removeTransition_reports t
    rw [denotes.transitions] at answer
    exact ⟨_, .removeTransition t _ answer, denotes.removeTransition wellFormed t⟩
  | removeStates doomed =>
    refine ⟨_, .removeStates doomed, denotes.removeStates _ _ ?_⟩
    intro q
    rw [StateSet.mem_ofList, List.mem_toFinset]
  | pruneFrom seed => exact exists_pruneStep denotes seed
  | prune =>
    have same := denotes.initial
    cases marked : nfa.initial with
    | none =>
      have idle : prune.apply nfa = (nfa, .changed false) := by
        simp only [apply, Nfa.prune, marked]
        rfl
      rw [idle]
      exact ⟨g, .pruneUnmarked (same.symm.trans marked), denotes⟩
    | some seed =>
      have fromSeed : prune.apply nfa = (pruneFrom seed).apply nfa := by
        simp only [apply, Nfa.prune, marked]
      obtain ⟨next, step, pruned⟩ := exists_pruneStep denotes seed
      rw [fromSeed]
      exact ⟨next, .prune seed _ _ (same.symm.trans marked) step, pruned⟩
  | construct compiler regex =>
    cases allowed : compiler.allowance regex with
    | ok count =>
      rw [apply_construct_of_ok nfa compiler regex count allowed]
      exact ⟨_, .construct compiler regex count nfa.slots.size _ allowed below rfl,
        denotes.addFragment wellFormed _ (Fragment.within_ofCore _ _)⟩
    | error e =>
      rw [apply_construct_of_error nfa compiler regex e allowed]
      exact ⟨g, .refuse compiler regex e allowed, denotes⟩

theorem follows {nfa : Nfa α} {g : Graph α} (wellFormed : nfa.WellFormed)
    (denotes : nfa.Denotes g) (operations : List (Operation α)) : Follows nfa g operations := by
  induction operations generalizing nfa g with
  | nil => exact denotes.represents wellFormed
  | cons operation rest ih =>
    obtain ⟨next, step, after⟩ := exists_step wellFormed denotes operation
    exact ⟨denotes.represents wellFormed, next, step,
      ih (wellFormed_apply wellFormed operation) after⟩

/-- Whatever operations edit an automaton from nothing, it behaves as the graph that they edit. -/
theorem follows_empty (operations : List (Operation α)) : Follows ∅ ∅ operations :=
  follows Nfa.wellFormed_empty Nfa.denotes_empty operations

def levelEdits : List (Operation Letter) :=
  [addTransition ⟨⟨0⟩, .symbol ⟨.inclusive .A, .inclusive .C⟩, ⟨1⟩⟩,
    addTransition ⟨⟨0⟩, .symbol ⟨.inclusive .A, .exclusive .B⟩, ⟨1⟩⟩,
    addTransition ⟨⟨0⟩, .symbol ⟨.inclusive .A, .unbounded⟩, ⟨2⟩⟩,
    addTransition ⟨⟨0⟩, .symbol ⟨.inclusive .A, .exclusive .B⟩, ⟨1⟩⟩,
    removeTransition ⟨⟨0⟩, .symbol ⟨.inclusive .A, .exclusive .B⟩, ⟨1⟩⟩,
    addAccepting ⟨1⟩, removeStates [⟨2⟩]]

theorem follows_levelEdits :
    Follows ∅ ∅ levelEdits ∧ (applyAll ∅ levelEdits).transitions =
      [⟨⟨0⟩, .symbol ⟨.inclusive .A, .inclusive .C⟩, ⟨1⟩⟩] :=
  ⟨follows_empty levelEdits, by decide +kernel⟩

end Operation

end IntervalAutomata
