import IntervalAutomata.Proofs.Nfa.Prune
import IntervalAutomata.Proofs.Thompson.Isolation

namespace IntervalAutomata

open Std

universe u

variable {α : Type u}

namespace Nfa

structure ShowsAs (nfa other : Nfa α) : Prop where
  states : nfa.states = other.states
  size : nfa.size = other.size
  transitions : nfa.transitions = other.transitions
  initial : nfa.initial = other.initial
  acceptingStates : nfa.acceptingStates = other.acceptingStates

variable [Ord α] [DecidableEq α]

theorem transitions_addFragment (nfa : Nfa α) (f : Fragment α) (within : f.Within nfa.slots.size) :
    ∃ added, (nfa.addFragment f).transitions = nfa.transitions ++ added ∧
      ∀ t ∈ added, nfa.contains t.source = false := by
  have slots := nfa.size_slots_addFragment f within
  have states := states_eq_append slots (nfa.contains_addFragment f within)
  have kept : ∀ q ∈ nfa.states, (nfa.addFragment f).transitionsFrom q = nfa.transitionsFrom q := by
    intro q member
    have old := index_lt_of_contains nfa q ((mem_states nfa q).mp member)
    simp only [transitionsFrom, edges, nfa.edges?_addFragment f within q old]
  refine ⟨_, by rw [transitions, states, List.flatMap_append, List.flatMap_congr kept]; rfl, ?_⟩
  intro t member
  obtain ⟨q, inBlock, leaving⟩ := List.mem_flatMap.mp member
  obtain ⟨offset, _, rfl⟩ := List.mem_map.mp inBlock
  rw [((mem_transitionsFrom _ _ t).mp leaving).1]
  apply Bool.eq_false_iff.mpr
  intro live
  exact Nat.not_lt_of_le (Nat.le_add_right _ offset) (index_lt_of_contains nfa _ live)

namespace WellFormed

variable [TransOrd α] {nfa : Nfa α} (wellFormed : nfa.WellFormed)
include wellFormed

theorem reaches_addFragment_iff (f : Fragment α) (within : f.Within nfa.slots.size) {seed : State}
    (live : nfa.contains seed = true) (q : State) :
    (nfa.addFragment f).Reaches seed q ↔ nfa.Reaches seed q := by
  refine ⟨fun reached => ?_, fun reached => ?_⟩
  · obtain ⟨_, path⟩ := reached
    induction path with
    | refl => exact .refl live
    | tail _ edge ih =>
      obtain ⟨label, edge⟩ := edge
      rcases wellFormed.mem_transitions_addFragment_cases within edge with old | new
      · exact ih.step old.1
      · have known := ih.live wellFormed
        rw [new.1.2] at known
        contradiction
  · obtain ⟨_, path⟩ := reached
    refine ⟨(nfa.contains_addFragment f within seed).mpr (.inl live),
      Relation.ReflTransGen.mono ?_ _ _ path⟩
    intro p r edge
    obtain ⟨label, edge⟩ := edge
    exact ⟨label, (wellFormed.mem_transitions_addFragment f _).mpr (.inl edge)⟩

end WellFormed

omit [DecidableEq α] in
/-- What is kept of two automata shows alike if both have the same marks and one has the transitions
    of the other and behind them only such as leave states that are not kept. -/
theorem KeepsOnly.showsAs {nfa larger next other : Nfa α} {kept : State → Prop}
    (small : nfa.KeepsOnly kept next) (large : larger.KeepsOnly kept other)
    (wellFormed : next.WellFormed) (otherWellFormed : other.WellFormed)
    (initial : larger.initial = nfa.initial) (accepting : larger.accepting = nfa.accepting)
    {added : List (Transition α)} (transitions : larger.transitions = nfa.transitions ++ added)
    (dropped : ∀ t ∈ added, ¬kept t.source) : other.ShowsAs next := by
  have states : other.states = next.states := by
    apply StateSet.eq_of_ascending (states_ascending other) (states_ascending next)
    intro q
    rw [large.states, small.states]
  refine ⟨states, ?_, ?_, ?_, ?_⟩
  · show other.live = next.live
    rw [← otherWellFormed.length_states_eq, states, wellFormed.length_states_eq]
  · have none : added.filter (fun t => t.source ∈ next.states ∧ t.target ∈ next.states) = [] := by
      rw [List.filter_eq_nil_iff]
      intro t member
      simp [small.states, dropped t member]
    rw [large.transitions, small.transitions, transitions, states, List.filter_append, none,
      List.append_nil]
  · ext q
    have same := large.initial q
    rw [initial, ← small.initial] at same
    exact same
  · apply StateSet.eq_of_ascending (StateSet.toList_ascending _) (StateSet.toList_ascending _)
    intro q
    rw [TreeSet.mem_toList, TreeSet.mem_toList, large.accepting, small.accepting, accepting]

namespace WellFormed

variable [TransOrd α] {nfa : Nfa α} (wellFormed : nfa.WellFormed) (f : Fragment α)
  (within : f.Within nfa.slots.size) {seed : State} (seeded : nfa.initial = some seed)
include wellFormed within seeded

theorem prune_addFragment_reports : (nfa.addFragment f).prune.2 = true := by
  have live := wellFormed.initial_live seed seeded
  have after := wellFormed.addFragment f
  obtain ⟨held, new⟩ := gains_addFragment within within.start
  rw [prune_of_initial ((marks_addFragment nfa f).1.trans seeded), after.pruneFrom_reports seed]
  refine ⟨f.start, (mem_states _ _).mpr held, ?_⟩
  rw [(after.keepsOnly_pruneFrom seed).states, wellFormed.reaches_addFragment_iff f within live]
  intro reached
  rw [reached.live wellFormed] at new
  contradiction

theorem showsAs_prune_addFragment : (nfa.addFragment f).prune.1.ShowsAs nfa.prune.1 := by
  have live := wellFormed.initial_live seed seeded
  have after := wellFormed.addFragment f
  have same : (nfa.addFragment f).Reaches seed = nfa.Reaches seed := by
    funext q
    exact propext (wellFormed.reaches_addFragment_iff f within live q)
  have large := after.keepsOnly_pruneFrom seed
  rw [same] at large
  obtain ⟨initial, accepting⟩ := marks_addFragment nfa f
  obtain ⟨added, transitions, new⟩ := transitions_addFragment nfa f within
  rw [prune_of_initial (initial.trans seeded), prune_of_initial seeded]
  apply (wellFormed.keepsOnly_pruneFrom seed).showsAs large (wellFormed.pruneFrom seed)
    (after.pruneFrom seed) initial accepting transitions
  intro t member reached
  have foreign := new t member
  rw [reached.live wellFormed] at foreign
  contradiction

end WellFormed

end Nfa

namespace Operation

variable [Ord α] [Alphabet α] [DecidableEq α] [TransOrd α]

/-- Pruning right after a construction finds something to remove, and leaves what pruning leaves
    without the construction: all that was there if the initial state leads to every state. -/
theorem prune_construct (operations : List (Operation α)) (compiler : Compiler) (regex : Regex α)
    (built : Construction α) (seed : State) (seeded : (applyAll ∅ operations).initial = some seed)
    (constructed : compiler.construct regex (applyAll ∅ operations) = .ok built) :
    built.nfa.prune.2 = true ∧ built.nfa.prune.1.ShowsAs (applyAll ∅ operations).prune.1 ∧
      ((∀ q ∈ (applyAll ∅ operations).states, (applyAll ∅ operations).Reaches seed q) →
        built.nfa.prune.1.ShowsAs (applyAll ∅ operations)) := by
  have wellFormed := wellFormed_applyAll Nfa.wellFormed_empty operations
  rw [Compiler.construct_eq_ok constructed]
  generalize applyAll ∅ operations = nfa at wellFormed seeded
  have live := wellFormed.initial_live seed seeded
  have within := Fragment.within_ofCore nfa.slots.size regex.desugar
  have shown := wellFormed.showsAs_prune_addFragment _ within seeded
  refine ⟨?_, shown, fun all => ?_⟩
  · exact wellFormed.prune_addFragment_reports _ within seeded
  · have idle := Nfa.pruneFrom_of_reaches fun q known => all q ((Nfa.mem_states nfa q).mpr known)
    rw [Nfa.prune_of_initial seeded, idle] at shown
    exact shown

def circledEdits : List (Operation Letter) :=
  [setInitial ⟨4⟩, addTransition ⟨⟨4⟩, .symbol (.closed .A .C), ⟨1⟩⟩,
    addTransition ⟨⟨1⟩, .epsilon, ⟨4⟩⟩, addAccepting ⟨1⟩]

theorem prune_construct_circledEdits :
    ∃ built, ({} : Compiler).construct (.plus (.literal .D)) (applyAll ∅ circledEdits) = .ok built ∧
      built.nfa.states = [⟨1⟩, ⟨4⟩, ⟨5⟩, ⟨6⟩, ⟨7⟩, ⟨8⟩, ⟨9⟩, ⟨10⟩] ∧
      built.nfa.prune.2 = true ∧
      (∀ q ∈ (applyAll ∅ circledEdits).states, (applyAll ∅ circledEdits).Reaches ⟨4⟩ q) ∧
      built.nfa.prune.1.ShowsAs (applyAll ∅ circledEdits) := by
  have seeded : (applyAll ∅ circledEdits).initial = some ⟨4⟩ := by cbv
  have constructed : ({} : Compiler).construct (.plus (.literal .D)) (applyAll ∅ circledEdits) =
      .ok ⟨(applyAll ∅ circledEdits).addFragment (.ofCore 5 (Regex.plus (.literal .D)).desugar),
        ⟨5⟩, ⟨8⟩⟩ := by cbv
  have all : ∀ q ∈ (applyAll ∅ circledEdits).states,
      (applyAll ∅ circledEdits).Reaches ⟨4⟩ q := by
    have states : (applyAll ∅ circledEdits).states = [⟨1⟩, ⟨4⟩] := by cbv
    have start : (applyAll ∅ circledEdits).Reaches ⟨4⟩ ⟨4⟩ := .refl (by cbv)
    have edge : ⟨⟨4⟩, .symbol (.closed .A .C), ⟨1⟩⟩ ∈ (applyAll ∅ circledEdits).transitions := by
      decide +kernel
    intro q member
    rw [states] at member
    rcases List.mem_pair.mp member with rfl | rfl
    · exact start.step edge
    · exact start
  obtain ⟨reported, _, restored⟩ :=
    prune_construct circledEdits {} (.plus (.literal .D)) _ ⟨4⟩ seeded constructed
  exact ⟨_, constructed, by cbv, reported, all, restored all⟩

end Operation

end IntervalAutomata
