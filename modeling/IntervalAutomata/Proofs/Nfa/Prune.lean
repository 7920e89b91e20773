import IntervalAutomata.Alphabet.Letter
import IntervalAutomata.Proofs.Nfa.Run
import Mathlib

namespace IntervalAutomata

open Std

universe u

variable {α : Type u}

namespace Nfa

/-- Whether transitions of any label lead from a seed to a state. From a seed that the automaton
    does not hold they lead nowhere. -/
def Reaches (nfa : Nfa α) (seed q : State) : Prop :=
  nfa.contains seed = true ∧
    Relation.ReflTransGen (fun p r => ∃ label, ⟨p, label, r⟩ ∈ nfa.transitions) seed q

theorem Reaches.refl {nfa : Nfa α} {seed : State} (live : nfa.contains seed = true) :
    nfa.Reaches seed seed :=
  ⟨live, .refl⟩

theorem Reaches.step {nfa : Nfa α} {seed p q : State} {label : Label α}
    (reached : nfa.Reaches seed p) (edge : ⟨p, label, q⟩ ∈ nfa.transitions) :
    nfa.Reaches seed q :=
  ⟨reached.1, reached.2.tail ⟨label, edge⟩⟩

theorem Reaches.path [Ord α] {nfa : Nfa α} {seed p q : State} {word : List α}
    (reached : nfa.Reaches seed p) (path : Path nfa.transitions p word q) : nfa.Reaches seed q := by
  induction path with
  | refl q => exact reached
  | epsilon edge _ ih => exact ih (reached.step edge)
  | symbol edge _ _ ih => exact ih (reached.step edge)

theorem mem_reachableFrom_iff (nfa : Nfa α) (seed q : State) :
    q ∈ nfa.reachableFrom seed ↔ nfa.Reaches seed q := by
  have same : (fun p r => r ∈ nfa.successors p) =
      fun p r => ∃ label, ⟨p, label, r⟩ ∈ nfa.transitions := by
    funext p r
    simp only [mem_successors]
  rw [mem_reachableFrom, Traversal.Leads, same, Reaches]

theorem mem_unreachableFrom_iff (nfa : Nfa α) (seed q : State) :
    q ∈ nfa.unreachableFrom seed ↔ nfa.contains q = true ∧ ¬nfa.Reaches seed q := by
  rw [mem_unreachableFrom, ← mem_reachableFrom, mem_reachableFrom_iff]

theorem pruneFrom_cases (nfa : Nfa α) (seed : State) :
    (nfa.pruneFrom seed = (nfa, false) ∧
        ∀ q, nfa.contains q = true → nfa.Reaches seed q) ∨
      (nfa.pruneFrom seed = (nfa.removeStates (.ofList (nfa.unreachableFrom seed)), true) ∧
        ∃ q, nfa.contains q = true ∧ ¬nfa.Reaches seed q) := by
  cases doomed : nfa.unreachableFrom seed with
  | nil =>
    refine .inl ⟨by simp [pruneFrom, doomed], ?_⟩
    intro q live
    by_contra unreached
    have member := (mem_unreachableFrom_iff nfa seed q).mpr ⟨live, unreached⟩
    simp [doomed] at member
  | cons q rest =>
    have member : q ∈ nfa.unreachableFrom seed := by simp [doomed]
    exact .inr ⟨by simp [pruneFrom, doomed], q, (mem_unreachableFrom_iff nfa seed q).mp member⟩

theorem pruneFrom_of_reaches {nfa : Nfa α} {seed : State}
    (all : ∀ q, nfa.contains q = true → nfa.Reaches seed q) :
    nfa.pruneFrom seed = (nfa, false) := by
  rcases nfa.pruneFrom_cases seed with idle | removing
  · exact idle.1
  · obtain ⟨_, q, live, unreached⟩ := removing
    exact absurd (all q live) unreached

theorem prune_of_initial {nfa : Nfa α} {seed : State} (seeded : nfa.initial = some seed) :
    nfa.prune = nfa.pruneFrom seed := by
  simp only [prune, seeded]

theorem prune_cases (nfa : Nfa α) :
    nfa.prune = (nfa, false) ∨ ∃ seed ∈ nfa.initial, nfa.prune = nfa.pruneFrom seed := by
  cases seeded : nfa.initial with
  | none => exact .inl (by simp only [prune, seeded])
  | some seed => exact .inr ⟨seed, rfl, prune_of_initial seeded⟩

theorem pruneFrom_of_unchanged {nfa : Nfa α} {seed : State}
    (unchanged : (nfa.pruneFrom seed).2 = false) : (nfa.pruneFrom seed).1 = nfa := by
  rcases nfa.pruneFrom_cases seed with idle | removing
  · rw [idle.1]
  · simp [removing.1] at unchanged

theorem prune_of_unchanged {nfa : Nfa α} (unchanged : nfa.prune.2 = false) : nfa.prune.1 = nfa := by
  rcases nfa.prune_cases with idle | ⟨seed, _, same⟩
  · rw [idle]
  · rw [same] at unchanged ⊢
    exact pruneFrom_of_unchanged unchanged

theorem flatMap_filter_of_nil {β γ : Type*} (f : β → List γ) (keep : β → Bool) (items : List β)
    (silent : ∀ x, keep x = false → f x = []) :
    (items.filter keep).flatMap f = items.flatMap f := by
  induction items with
  | nil => rfl
  | cons x rest ih =>
    rw [List.filter_cons, List.flatMap_cons]
    split
    · rw [List.flatMap_cons, ih]
    · rename_i dropped
      rw [ih, silent x (Bool.eq_false_iff.mpr dropped), List.nil_append]

theorem transitionsFrom_of_not_contains {nfa : Nfa α} {q : State}
    (missing : nfa.contains q = false) : nfa.transitionsFrom q = [] := by
  simp [transitionsFrom, edges_of_not_contains nfa q missing, Edges.toList]

theorem transitions_eq_slots (nfa : Nfa α) :
    nfa.transitions = ((List.range nfa.slots.size).map State.mk).flatMap nfa.transitionsFrom :=
  flatMap_filter_of_nil nfa.transitionsFrom nfa.contains _ fun _ => transitionsFrom_of_not_contains

theorem transitionsFrom_removeStates (nfa : Nfa α) (doomed : StateSet) (q : State) :
    (nfa.removeStates doomed).transitionsFrom q =
      (nfa.transitionsFrom q).filter fun t => t.source ∉ doomed ∧ t.target ∉ doomed := by
  rw [transitionsFrom, edges_removeStates, transitionsFrom, List.filter_map]
  by_cases gone : q ∈ doomed
  · simp [gone, Edges.toList, Function.comp_def]
  · rw [if_neg gone, Edges.dropTargets_eq_keeping, Edges.toList_keeping]
    simp [gone, Function.comp_def]

theorem transitions_removeStates (nfa : Nfa α) (doomed : StateSet) :
    (nfa.removeStates doomed).transitions =
      nfa.transitions.filter fun t => t.source ∉ doomed ∧ t.target ∉ doomed := by
  have slots : (nfa.removeStates doomed).slots.size = nfa.slots.size := Array.size_mapIdx
  rw [transitions_eq_slots, transitions_eq_slots, slots, List.filter_flatMap]
  exact List.flatMap_congr fun q _ => transitionsFrom_removeStates nfa doomed q

/-- Whether just the states of a kind are left of an automaton, with the transitions between them in
    their order and with their marks. -/
structure KeepsOnly (nfa : Nfa α) (kept : State → Prop) (next : Nfa α) : Prop where
  states : ∀ q, q ∈ next.states ↔ kept q
  transitions : next.transitions =
    nfa.transitions.filter fun t => t.source ∈ next.states ∧ t.target ∈ next.states
  initial : ∀ q, q ∈ next.initial ↔ q ∈ nfa.initial ∧ kept q
  accepting : ∀ q, q ∈ next.accepting ↔ q ∈ nfa.accepting ∧ kept q

variable [Ord α]

theorem Reaches.live {nfa : Nfa α} {seed q : State} (wellFormed : nfa.WellFormed)
    (reached : nfa.Reaches seed q) : nfa.contains q = true := by
  obtain ⟨live, path⟩ := reached
  cases path with
  | refl => exact live
  | tail _ edge =>
    obtain ⟨label, edge⟩ := edge
    exact (wellFormed.ends_live _ _ _ ((mem_edges _ _ _ _).mpr edge)).2

namespace WellFormed

variable {nfa : Nfa α} (wellFormed : nfa.WellFormed)
include wellFormed

theorem ends_of_mem {t : Transition α} (member : t ∈ nfa.transitions) :
    nfa.contains t.source = true ∧ nfa.contains t.target = true :=
  wellFormed.ends_live _ _ _ ((mem_transitions nfa t).mp member)

theorem keepsOnly_self (kept : State → Prop) (same : ∀ q, nfa.contains q = true ↔ kept q) :
    nfa.KeepsOnly kept nfa where
  states q := by rw [mem_states, same]
  transitions := by
    symm
    rw [List.filter_eq_self]
    intro t member
    simpa [mem_states] using wellFormed.ends_of_mem member
  initial q := by
    refine ⟨fun marked => ⟨marked, ?_⟩, And.left⟩
    exact (same q).mp (wellFormed.initial_live q marked)
  accepting q := by
    refine ⟨fun marked => ⟨marked, ?_⟩, And.left⟩
    exact (same q).mp (wellFormed.accepting_live q marked)

theorem keepsOnly_removeStates (doomed : StateSet) (kept : State → Prop)
    (same : ∀ q, nfa.contains q = true → (q ∉ doomed ↔ kept q))
    (live : ∀ q, kept q → nfa.contains q = true) :
    nfa.KeepsOnly kept (nfa.removeStates doomed) where
  states q := by
    rw [mem_states, contains_removeStates]
    exact ⟨fun h => (same q h.1).mp h.2, fun h => ⟨live q h, (same q (live q h)).mpr h⟩⟩
  transitions := by
    rw [transitions_removeStates]
    apply List.filter_congr
    intro t member
    obtain ⟨source, target⟩ := wellFormed.ends_of_mem member
    simp [mem_states, contains_removeStates, source, target]
  initial q := by
    show q ∈ nfa.initial.filter _ ↔ _
    rw [Option.mem_filter_iff, decide_eq_true_eq]
    exact and_congr_right fun marked => same q (wellFormed.initial_live q marked)
  accepting q := by
    show q ∈ nfa.accepting.filter _ ↔ _
    rw [StateSet.mem_filter, decide_eq_true_eq]
    exact and_congr_right fun marked => same q (wellFormed.accepting_live q marked)

theorem keepsOnly_pruneFrom (seed : State) :
    nfa.KeepsOnly (nfa.Reaches seed) (nfa.pruneFrom seed).1 := by
  rcases nfa.pruneFrom_cases seed with idle | removing
  · rw [idle.1]
    exact wellFormed.keepsOnly_self _ fun q => ⟨idle.2 q, Reaches.live wellFormed⟩
  · rw [removing.1]
    apply wellFormed.keepsOnly_removeStates
    · intro q live
      rw [StateSet.mem_ofList, mem_unreachableFrom_iff]
      simp [live]
    · intro q reached
      exact reached.live wellFormed

theorem pruneFrom_reports (seed : State) :
    (nfa.pruneFrom seed).2 = true ↔ ∃ q ∈ nfa.states, q ∉ (nfa.pruneFrom seed).1.states := by
  simp only [(wellFormed.keepsOnly_pruneFrom seed).states, mem_states]
  rcases nfa.pruneFrom_cases seed with idle | removing
  · rw [idle.1]
    simpa using idle.2
  · rw [removing.1]
    simpa using removing.2

end WellFormed

namespace KeepsOnly

variable {nfa next : Nfa α} {seed : State} (keeps : nfa.KeepsOnly (nfa.Reaches seed) next)
include keeps

omit [Ord α] in
theorem contains_iff (q : State) : next.contains q = true ↔ nfa.Reaches seed q := by
  rw [← mem_states, keeps.states]

omit [Ord α] in
theorem mem_transitions_iff (t : Transition α) :
    t ∈ next.transitions ↔ t ∈ nfa.transitions ∧ nfa.Reaches seed t.source := by
  rw [keeps.transitions, List.mem_filter, decide_eq_true_eq, keeps.states, keeps.states]
  apply and_congr_right
  intro member
  exact and_iff_left_of_imp fun reached => reached.step member

omit [Ord α] in
theorem reaches {q : State} (reached : nfa.Reaches seed q) : next.Reaches seed q := by
  obtain ⟨live, path⟩ := reached
  refine ⟨(keeps.contains_iff seed).mpr (.refl live), ?_⟩
  induction path with
  | refl => exact .refl
  | tail before edge ih =>
    obtain ⟨label, edge⟩ := edge
    exact ih.tail ⟨label, (keeps.mem_transitions_iff _).mpr ⟨edge, live, before⟩⟩

omit [Ord α] in
theorem pruneFrom_again : next.pruneFrom seed = (next, false) :=
  pruneFrom_of_reaches fun q live => keeps.reaches ((keeps.contains_iff q).mp live)

theorem accepts_eq [TransOrd α] (wellFormed : nfa.WellFormed) (after : next.WellFormed)
    (seeded : nfa.initial = some seed) (word : List α) :
    next.accepts word = nfa.accepts word := by
  have start : nfa.Reaches seed seed := .refl (wellFormed.initial_live seed seeded)
  have closed : ∀ t ∈ nfa.transitions, nfa.Reaches seed t.source →
      t ∈ next.transitions ∧ nfa.Reaches seed t.target := fun t member reached =>
    ⟨(keeps.mem_transitions_iff t).mpr ⟨member, reached⟩, reached.step member⟩
  have fewer : next.transitions ⊆ nfa.transitions := fun t member =>
    ((keeps.mem_transitions_iff t).mp member).1
  apply Bool.eq_iff_iff.mpr
  rw [after.accepts_iff_path, wellFormed.accepts_iff_path]
  refine ⟨fun h => ?_, fun h => ?_⟩
  · obtain ⟨p, initial, q, marked, path⟩ := h
    exact ⟨p, ((keeps.initial p).mp initial).1, q, ((keeps.accepting q).mp marked).1,
      path.mono fewer⟩
  · obtain ⟨p, initial, q, marked, path⟩ := h
    obtain rfl : seed = p := Option.some.inj (seeded.symm.trans initial)
    exact ⟨seed, (keeps.initial seed).mpr ⟨initial, start⟩, q,
      (keeps.accepting q).mpr ⟨marked, start.path path⟩,
      path.of_closed (nfa.Reaches seed) closed start⟩

end KeepsOnly

end Nfa

namespace Operation

variable [Ord α] [Alphabet α] [DecidableEq α] [TransOrd α]

/-- Pruning from a seed keeps just what the seed leads to and tells whether anything else was there,
    so that doing it again does nothing. Pruning from the initial state changes no word's
    acceptance, and without an initial state it does nothing. -/
theorem prune_exact (operations : List (Operation α)) :
    (∀ seed, ∃ next changed,
      (pruneFrom seed).apply (applyAll ∅ operations) = (next, .changed changed) ∧
        (applyAll ∅ operations).KeepsOnly ((applyAll ∅ operations).Reaches seed) next ∧
        (changed = true ↔ ∃ q ∈ (applyAll ∅ operations).states, q ∉ next.states) ∧
        (pruneFrom seed).apply next = (next, .changed false)) ∧
      (∀ word, (prune.apply (applyAll ∅ operations)).1.accepts word =
        (applyAll ∅ operations).accepts word) ∧
      ((applyAll ∅ operations).initial = none →
        prune.apply (applyAll ∅ operations) = (applyAll ∅ operations, .changed false)) := by
  have wellFormed := wellFormed_applyAll Nfa.wellFormed_empty operations
  generalize applyAll ∅ operations = nfa at wellFormed
  refine ⟨fun seed => ?_, fun word => ?_, fun unmarked => ?_⟩
  · have keeps := wellFormed.keepsOnly_pruneFrom seed
    refine ⟨(nfa.pruneFrom seed).1, (nfa.pruneFrom seed).2, rfl, keeps,
      wellFormed.pruneFrom_reports seed, ?_⟩
    show changing ((nfa.pruneFrom seed).1.pruneFrom seed) = _
    rw [keeps.pruneFrom_again]
    rfl
  · show nfa.prune.1.accepts word = _
    cases seeded : nfa.initial with
    | none => simp only [Nfa.prune, seeded]
    | some seed =>
      have keeps := wellFormed.keepsOnly_pruneFrom seed
      rw [Nfa.prune_of_initial seeded]
      exact keeps.accepts_eq wellFormed (wellFormed.pruneFrom seed) seeded word
  · simp only [apply, Nfa.prune, unmarked, changing]

def strandedEdits : List (Operation Letter) :=
  [setInitial ⟨0⟩, addTransition ⟨⟨0⟩, .symbol (.closed .A .B), ⟨1⟩⟩,
    addTransition ⟨⟨1⟩, .epsilon, ⟨0⟩⟩, addTransition ⟨⟨3⟩, .symbol (.closed .C .C), ⟨1⟩⟩,
    addTransition ⟨⟨3⟩, .epsilon, ⟨4⟩⟩, addAccepting ⟨1⟩, addAccepting ⟨4⟩]

theorem prune_strandedEdits :
    (applyAll ∅ strandedEdits).states = [⟨0⟩, ⟨1⟩, ⟨3⟩, ⟨4⟩] ∧
      (∀ q, (applyAll ∅ strandedEdits).Reaches ⟨0⟩ q ↔ q ∈ [State.mk 0, ⟨1⟩]) ∧
      (∀ q, ¬(applyAll ∅ strandedEdits).Reaches ⟨9⟩ q) ∧
      (∀ word, (prune.apply (applyAll ∅ strandedEdits)).1.accepts word =
        (applyAll ∅ strandedEdits).accepts word) ∧
      (applyAll ∅ (strandedEdits ++ [removeStates [⟨0⟩]])).initial = none ∧
      prune.apply (applyAll ∅ (strandedEdits ++ [removeStates [⟨0⟩]])) =
        (applyAll ∅ (strandedEdits ++ [removeStates [⟨0⟩]]), .changed false) := by
  obtain ⟨exact, accepts, _⟩ := prune_exact strandedEdits
  have unmarked : (applyAll ∅ (strandedEdits ++ [removeStates [⟨0⟩]])).initial = none := by cbv
  refine ⟨by cbv, ?_, ?_, accepts, unmarked, (prune_exact _).2.2 unmarked⟩
  · obtain ⟨next, changed, pruned, keeps, _⟩ := exact ⟨0⟩
    have same : ((pruneFrom ⟨0⟩).apply (applyAll ∅ strandedEdits)).1.states =
        [⟨0⟩, ⟨1⟩] := by cbv
    intro q
    rw [pruned] at same
    rw [← keeps.states, same]
  · obtain ⟨next, changed, pruned, keeps, _⟩ := exact ⟨9⟩
    have gone : ((pruneFrom ⟨9⟩).apply (applyAll ∅ strandedEdits)).1.states = [] := by cbv
    intro q
    rw [pruned] at gone
    rw [← keeps.states, gone]
    exact List.not_mem_nil

end Operation

end IntervalAutomata
