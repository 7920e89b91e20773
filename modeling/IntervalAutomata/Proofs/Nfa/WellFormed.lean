import IntervalAutomata.Operation
import IntervalAutomata.Proofs.Alphabet.Lawful
import IntervalAutomata.Proofs.Nfa.EdgeEdits
import IntervalAutomata.Proofs.Nfa.Slots
import IntervalAutomata.Proofs.Nfa.StateSet

namespace IntervalAutomata

namespace Nfa

open Std

universe u

variable {α : Type u} [Ord α]

structure WellFormed (nfa : Nfa α) : Prop where
  size_eq : nfa.size = nfa.slots.countP Option.isSome
  initial_live : ∀ q ∈ nfa.initial, nfa.contains q = true
  accepting_live : ∀ q ∈ nfa.accepting, nfa.contains q = true
  ends_live : ∀ p label q, (label, q) ∈ (nfa.edges p).toList →
    nfa.contains p = true ∧ nfa.contains q = true
  edges_wellFormed : ∀ q, (nfa.edges q).WellFormed

theorem wellFormed_empty : WellFormed (∅ : Nfa α) where
  size_eq := rfl
  initial_live := fun q member => absurd member (Option.not_mem_none q)
  accepting_live := fun q member => absurd member TreeSet.not_mem_emptyc
  ends_live := by
    intro p label q edge
    have none : (∅ : Nfa α).edges p = {} := rfl
    simp [none, Edges.toList] at edge
  edges_wellFormed := fun _ => Edges.wellFormed_empty

namespace WellFormed

variable {nfa : Nfa α} (wellFormed : nfa.WellFormed)
include wellFormed

theorem length_states_eq : nfa.states.length = nfa.live := by
  rw [length_states, ← wellFormed.size_eq, size]

theorem newStates (count : Nat) : (nfa.newStates count).WellFormed where
  size_eq := by
    have size := wellFormed.size_eq
    simp_all [Nfa.newStates, Nfa.size, Array.countP_append, Array.countP_replicate]
  initial_live := by
    intro q member
    exact (contains_newStates nfa count q).mpr (.inl (wellFormed.initial_live q member))
  accepting_live := by
    intro q member
    exact (contains_newStates nfa count q).mpr (.inl (wellFormed.accepting_live q member))
  ends_live := by
    intro p label q edge
    rw [edges_newStates] at edge
    have ends := wellFormed.ends_live p label q edge
    simp [contains_newStates, ends]
  edges_wellFormed := by
    intro q
    rw [edges_newStates]
    exact wellFormed.edges_wellFormed q

theorem ensure (p : State) : (nfa.ensure p).WellFormed where
  size_eq := by
    rw [← length_states, size, live_ensure, ← wellFormed.length_states_eq]
    symm
    split
    · rename_i known
      rw [Nfa.ensure, if_pos known]
    · rename_i missing
      apply length_states_of_mem _ (p :: nfa.states)
      · rw [List.nodup_cons, mem_states]
        exact ⟨missing, nodup_states nfa⟩
      · intro q
        rw [contains_ensure, List.mem_cons, mem_states, or_comm]
  initial_live := by
    intro q member
    rw [initial_ensure] at member
    exact (contains_ensure nfa p q).mpr (.inl (wellFormed.initial_live q member))
  accepting_live := by
    intro q member
    rw [accepting_ensure] at member
    exact (contains_ensure nfa p q).mpr (.inl (wellFormed.accepting_live q member))
  ends_live := by
    intro r label q edge
    rw [edges_ensure] at edge
    have ends := wellFormed.ends_live r label q edge
    simp [contains_ensure, ends]
  edges_wellFormed := by
    intro q
    rw [edges_ensure]
    exact wellFormed.edges_wellFormed q

theorem setEdges (p : State) (edges : Edges α) (live : nfa.contains p = true)
    (edgesWellFormed : edges.WellFormed)
    (targets : ∀ label q, (label, q) ∈ edges.toList → nfa.contains q = true) :
    (nfa.setEdges p edges).WellFormed where
  size_eq := by
    have unchanged : (nfa.setEdges p edges).states.length = nfa.states.length := by
      apply length_states_of_mem _ _ (nodup_states nfa)
      intro q
      rw [contains_setEdges nfa p q edges live, mem_states]
    rw [← length_states, unchanged, wellFormed.length_states_eq]
    rfl
  initial_live := by
    intro q member
    rw [contains_setEdges nfa p q edges live]
    exact wellFormed.initial_live q member
  accepting_live := by
    intro q member
    rw [contains_setEdges nfa p q edges live]
    exact wellFormed.accepting_live q member
  ends_live := by
    intro r label q edge
    rw [edges_setEdges nfa p r edges live] at edge
    rw [contains_setEdges nfa p r edges live, contains_setEdges nfa p q edges live]
    split at edge
    · rename_i same
      rw [same]
      exact ⟨live, targets label q edge⟩
    · exact wellFormed.ends_live r label q edge
  edges_wellFormed := by
    intro q
    rw [edges_setEdges nfa p q edges live]
    split
    · exact edgesWellFormed
    · exact wellFormed.edges_wellFormed q

theorem setInitial (p : State) : (nfa.setInitial p).WellFormed :=
  { wellFormed.ensure p with
    initial_live := by
      intro q member
      rw [← Option.some.inj member]
      exact (contains_ensure nfa p p).mpr (.inr rfl) }

theorem addAccepting (p : State) : (nfa.addAccepting p).1.WellFormed :=
  { wellFormed.ensure p with
    accepting_live := by
      intro q member
      rcases (StateSet.mem_insert _ p q).mp member with same | old
      · rw [same]
        exact (contains_ensure nfa p p).mpr (.inr rfl)
      · exact (wellFormed.ensure p).accepting_live q old }

theorem removeAccepting (p : State) : (nfa.removeAccepting p).1.WellFormed :=
  { wellFormed with
    accepting_live := by
      intro q member
      exact wellFormed.accepting_live q ((StateSet.mem_erase _ p q).mp member).1 }

theorem removeStates (doomed : StateSet) : (nfa.removeStates doomed).WellFormed where
  size_eq := by
    have kept : (nfa.removeStates doomed).states.length =
        (nfa.states.filter fun q => ¬q ∈ doomed).length := by
      apply length_states_of_mem _ _ ((nodup_states nfa).filter _)
      intro q
      simp [contains_removeStates, mem_states]
    have gone : (doomed.toList.filter nfa.contains).length =
        (nfa.states.filter fun q => q ∈ doomed).length := by
      apply List.Perm.length_eq
      rw [List.perm_ext_iff_of_nodup ((StateSet.nodup_toList doomed).filter _)
        ((nodup_states nfa).filter _)]
      intro q
      simp [mem_states, and_comm]
    have total := nfa.states.length_eq_countP_add_countP fun q => decide (q ∈ doomed)
    simp only [List.countP_eq_length_filter, decide_eq_true_eq] at total
    have live : (nfa.removeStates doomed).size =
        nfa.live - (doomed.toList.filter nfa.contains).length := rfl
    rw [← length_states, kept, live, gone, ← wellFormed.length_states_eq]
    omega
  initial_live := by
    intro q member
    obtain ⟨was, kept⟩ := Option.mem_filter_iff.mp member
    exact (contains_removeStates nfa doomed q).mpr
      ⟨wellFormed.initial_live q was, by simpa using kept⟩
  accepting_live := by
    intro q member
    obtain ⟨was, kept⟩ := (StateSet.mem_filter _ _ q).mp member
    exact (contains_removeStates nfa doomed q).mpr
      ⟨wellFormed.accepting_live q was, by simpa using kept⟩
  ends_live := by
    intro p label q edge
    rw [edges_removeStates] at edge
    split at edge
    · simp [Edges.toList] at edge
    · rename_i kept
      obtain ⟨old, target⟩ := (Edges.mem_toList_dropTargets _ _ _ _).mp edge
      have ends := wellFormed.ends_live p label q old
      exact ⟨(contains_removeStates nfa doomed p).mpr ⟨ends.1, kept⟩,
        (contains_removeStates nfa doomed q).mpr ⟨ends.2, target⟩⟩
  edges_wellFormed := by
    intro q
    rw [edges_removeStates]
    split
    · exact Edges.wellFormed_empty
    · rw [Edges.dropTargets_eq_keeping]
      exact (wellFormed.edges_wellFormed q).keeping _

end WellFormed

def withEnds (nfa : Nfa α) (t : Transition α) : Nfa α :=
  (nfa.ensure t.target).ensure t.source

omit [Ord α] in
theorem contains_withEnds (nfa : Nfa α) (t : Transition α) (q : State) :
    (nfa.withEnds t).contains q = true ↔
      nfa.contains q = true ∨ q = t.source ∨ q = t.target := by
  rw [withEnds, contains_ensure, contains_ensure, or_assoc, or_comm (a := q = t.source)]

omit [Ord α] in
@[simp] theorem edges_withEnds (nfa : Nfa α) (t : Transition α) (q : State) :
    (nfa.withEnds t).edges q = nfa.edges q := by
  rw [withEnds, edges_ensure, edges_ensure]

theorem addTransition_eq [DecidableEq α] (nfa : Nfa α) (t : Transition α) :
    nfa.addTransition t =
      match ((nfa.withEnds t).edges t.source).insert? t.label t.target with
      | some edges => ((nfa.withEnds t).setEdges t.source edges, true)
      | none => (nfa.withEnds t, false) := rfl

def addTransitions [DecidableEq α] (nfa : Nfa α) (ts : List (Transition α)) : Nfa α :=
  ts.foldl (fun nfa t => (nfa.addTransition t).1) nfa

theorem addFragment_eq [DecidableEq α] (nfa : Nfa α) (f : Fragment α) :
    nfa.addFragment f = (nfa.newStates f.size).addTransitions f.transitions := rfl

namespace WellFormed

variable [TransOrd α] [DecidableEq α] {nfa : Nfa α} (wellFormed : nfa.WellFormed)
include wellFormed

omit [TransOrd α] [DecidableEq α] in
theorem withEnds (t : Transition α) : (nfa.withEnds t).WellFormed :=
  (wellFormed.ensure t.target).ensure t.source

theorem addTransition_cases (t : Transition α) :
    (nfa.addTransition t = (nfa.withEnds t, false) ∧
      (t.label, t.target) ∈ (nfa.edges t.source).toList) ∨
    ∃ larger, nfa.addTransition t = ((nfa.withEnds t).setEdges t.source larger, true) ∧
      (t.label, t.target) ∉ (nfa.edges t.source).toList ∧ larger.WellFormed ∧
      ∀ l q, (l, q) ∈ larger.toList ↔
        (l, q) ∈ (nfa.edges t.source).toList ∨ (l = t.label ∧ q = t.target) := by
  have cases := Edges.insert?_cases _ (wellFormed.edges_wellFormed t.source) t.label t.target
  rw [← edges_withEnds nfa t] at cases ⊢
  rcases cases with known | new
  · obtain ⟨refused, member⟩ := known
    refine .inl ⟨?_, member⟩
    rw [addTransition_eq, refused]
  · obtain ⟨larger, accepted, missing, edgesWellFormed, gained⟩ := new
    refine .inr ⟨larger, ?_, missing, edgesWellFormed, gained⟩
    rw [addTransition_eq, accepted]

theorem removeTransition_cases (t : Transition α) :
    (nfa.removeTransition t = (nfa, false) ∧
      (t.label, t.target) ∉ (nfa.edges t.source).toList) ∨
    ∃ smaller, nfa.removeTransition t = (nfa.setEdges t.source smaller, true) ∧
      (t.label, t.target) ∈ (nfa.edges t.source).toList ∧ smaller.WellFormed ∧
      ∀ l q, (l, q) ∈ smaller.toList ↔
        (l, q) ∈ (nfa.edges t.source).toList ∧ ¬(l = t.label ∧ q = t.target) := by
  have cases := Edges.erase?_cases _ (wellFormed.edges_wellFormed t.source) t.label t.target
  rcases cases with unknown | found
  · obtain ⟨refused, missing⟩ := unknown
    refine .inl ⟨?_, missing⟩
    rw [Nfa.removeTransition, refused]
  · obtain ⟨smaller, accepted, member, edgesWellFormed, lost⟩ := found
    refine .inr ⟨smaller, ?_, member, edgesWellFormed, lost⟩
    rw [Nfa.removeTransition, accepted]

theorem addTransition (t : Transition α) : (nfa.addTransition t).1.WellFormed := by
  have ends := wellFormed.withEnds t
  rcases wellFormed.addTransition_cases t with known | new
  · rw [known.1]
    exact ends
  · obtain ⟨larger, added, _, edgesWellFormed, gained⟩ := new
    rw [added]
    apply ends.setEdges _ _ ((contains_withEnds nfa t t.source).mpr (.inr (.inl rfl)))
      edgesWellFormed
    intro label q edge
    rcases (gained label q).mp edge with old | same
    · rw [← edges_withEnds nfa t] at old
      exact (ends.ends_live t.source label q old).2
    · rw [same.2]
      exact (contains_withEnds nfa t t.target).mpr (.inr (.inr rfl))

theorem removeTransition (t : Transition α) : (nfa.removeTransition t).1.WellFormed := by
  rcases wellFormed.removeTransition_cases t with unknown | found
  · rw [unknown.1]
    exact wellFormed
  · obtain ⟨smaller, removed, member, edgesWellFormed, lost⟩ := found
    have live := (wellFormed.ends_live _ _ _ member).1
    rw [removed]
    apply wellFormed.setEdges _ _ live edgesWellFormed
    intro label q edge
    exact (wellFormed.ends_live _ _ _ ((lost label q).mp edge).1).2

omit [TransOrd α] [DecidableEq α] in
theorem pruneFrom (seed : State) : (nfa.pruneFrom seed).1.WellFormed := by
  unfold Nfa.pruneFrom
  simp only
  split
  · exact wellFormed
  · exact wellFormed.removeStates _

omit [TransOrd α] [DecidableEq α] in
theorem prune : nfa.prune.1.WellFormed := by
  unfold Nfa.prune
  split
  · exact wellFormed.pruneFrom _
  · exact wellFormed

theorem addTransitions (ts : List (Transition α)) : (nfa.addTransitions ts).WellFormed := by
  induction ts generalizing nfa with
  | nil => exact wellFormed
  | cons t rest ih => exact ih (wellFormed.addTransition t)

theorem addFragment (f : Fragment α) : (nfa.addFragment f).WellFormed := by
  rw [addFragment_eq]
  exact (wellFormed.newStates f.size).addTransitions f.transitions

end WellFormed

end Nfa

namespace Operation

open Std

universe u

variable {α : Type u} [Ord α] [Alphabet α] [DecidableEq α]

theorem apply_construct_of_ok (nfa : Nfa α) (compiler : Compiler) (regex : Regex α) (count : Nat)
    (allowed : compiler.allowance regex = .ok count) :
    (construct compiler regex).apply nfa =
      (nfa.addFragment (Fragment.ofCore nfa.slots.size regex.desugar),
        .fragment (Fragment.ofCore nfa.slots.size regex.desugar).start
          (Fragment.ofCore nfa.slots.size regex.desugar).stop) := by
  simp only [apply, Compiler.extend_of_allowed allowed]

theorem apply_construct_of_error (nfa : Nfa α) (compiler : Compiler) (regex : Regex α)
    (error : Error α) (refused : compiler.allowance regex = .error error) :
    (construct compiler regex).apply nfa = (nfa, .refused error) := by
  simp only [apply, Compiler.extend_of_refused refused]

variable [TransOrd α]

theorem wellFormed_apply {nfa : Nfa α} (wellFormed : nfa.WellFormed) (operation : Operation α) :
    (operation.apply nfa).1.WellFormed := by
  cases operation with
  | newState =>
    change nfa.newState.1.WellFormed
    rw [Nfa.newState_eq]
    exact wellFormed.newStates 1
  | setInitial q => exact wellFormed.setInitial q
  | addAccepting q => exact wellFormed.addAccepting q
  | removeAccepting q => exact wellFormed.removeAccepting q
  | addTransition t => exact wellFormed.addTransition t
  | removeTransition t => exact wellFormed.removeTransition t
  | removeStates doomed => exact wellFormed.removeStates _
  | pruneFrom seed => exact wellFormed.pruneFrom seed
  | prune => exact wellFormed.prune
  | construct compiler regex =>
    cases allowed : compiler.allowance regex with
    | ok count =>
      rw [apply_construct_of_ok nfa compiler regex count allowed]
      exact wellFormed.addFragment _
    | error e =>
      rw [apply_construct_of_error nfa compiler regex e allowed]
      exact wellFormed

theorem wellFormed_applyAll {nfa : Nfa α} (wellFormed : nfa.WellFormed)
    (operations : List (Operation α)) : (applyAll nfa operations).WellFormed := by
  induction operations generalizing nfa with
  | nil => exact wellFormed
  | cons operation rest ih => exact ih (wellFormed_apply wellFormed operation)

/-- No sequence of edits breaks an automaton, whatever states and intervals it names. -/
theorem wellFormed_of_edits (operations : List (Operation α)) :
    (applyAll (∅ : Nfa α) operations).WellFormed :=
  wellFormed_applyAll Nfa.wellFormed_empty operations

def foreignEdits : List (Operation Letter) :=
  [addTransition ⟨⟨5⟩, .symbol ⟨.inclusive .E, .exclusive .A⟩, ⟨2⟩⟩,
    addTransition ⟨⟨5⟩, .symbol ⟨.inclusive .E, .exclusive .A⟩, ⟨2⟩⟩,
    addAccepting ⟨9⟩, removeStates [⟨2⟩, ⟨40⟩], setInitial ⟨2⟩]

theorem wellFormed_of_foreignEdits :
    (applyAll ∅ foreignEdits).WellFormed ∧
      (applyAll ∅ foreignEdits).states = [⟨2⟩, ⟨5⟩, ⟨9⟩] :=
  ⟨wellFormed_of_edits foreignEdits, by decide +kernel⟩

end Operation

end IntervalAutomata
