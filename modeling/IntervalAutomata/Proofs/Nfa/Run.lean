import IntervalAutomata.Proofs.Nfa.Lookup
import IntervalAutomata.Proofs.Nfa.Path
import IntervalAutomata.Proofs.Nfa.Transitions

namespace IntervalAutomata

open Std

universe u

variable {α : Type u} [Ord α]

namespace Nfa

omit [Ord α] in
theorem mem_epsilonTargets (nfa : Nfa α) (p q : State) :
    q ∈ nfa.epsilonTargets p ↔ ⟨p, .epsilon, q⟩ ∈ nfa.transitions := by
  rw [epsilonTargets, ← Edges.epsilon_mem_toList, mem_edges]

def EpsilonLeads {α : Type u} (nfa : Nfa α) : State → State → Prop :=
  Relation.ReflTransGen fun p q => ⟨p, .epsilon, q⟩ ∈ nfa.transitions

omit [Ord α] in
theorem leads_epsilonTargets (nfa : Nfa α) :
    Traversal.Leads nfa.epsilonTargets = nfa.EpsilonLeads := by
  unfold Traversal.Leads EpsilonLeads
  simp only [mem_epsilonTargets]

omit [Ord α] in
theorem mem_epsilonClosure_iff (nfa : Nfa α) (starts : List State) (q : State) :
    q ∈ nfa.epsilonClosure starts ↔ ∃ p ∈ starts, nfa.EpsilonLeads p q := by
  rw [epsilonClosure, StateSet.mem_ofList, Traversal.mem_layers]
  · simp only [leads_epsilonTargets, TreeSet.not_mem_emptyc, not_false_eq_true, true_and]
  · intro p known
    exact absurd known TreeSet.not_mem_emptyc

theorem epsilonLeads_iff_path (nfa : Nfa α) (p q : State) :
    nfa.EpsilonLeads p q ↔ Path nfa.transitions p [] q := by
  constructor
  · intro leads
    induction leads using Relation.ReflTransGen.head_induction_on with
    | refl => exact .refl q
    | head edge _ ih => exact .epsilon edge ih
  · intro path
    generalize none : [] = word at path
    induction path with
    | refl q => exact .refl
    | epsilon edge _ ih => exact .head edge (ih none)
    | symbol => contradiction

theorem mem_epsilonClosure (nfa : Nfa α) (starts : List State) (q : State) :
    q ∈ nfa.epsilonClosure starts ↔ ∃ p ∈ starts, Path nfa.transitions p [] q := by
  simp only [mem_epsilonClosure_iff, epsilonLeads_iff_path]

theorem not_mem_step_of_isEmpty (nfa : Nfa α) (states : StateSet) (a : α)
    (none : states.isEmpty = true) (q : State) : q ∉ nfa.step states a := by
  have gone : states.toList = [] := by
    rw [← List.isEmpty_iff, TreeSet.isEmpty_toList, none]
  rw [step, gone, List.flatMap_nil, mem_epsilonClosure]
  simp

theorem not_mem_run_of_isEmpty (nfa : Nfa α) (states : StateSet) (word : List α)
    (none : states.isEmpty = true) (q : State) : q ∉ nfa.run states word := by
  induction word generalizing states with
  | nil => exact TreeSet.not_mem_of_isEmpty none
  | cons a rest ih =>
    apply ih (nfa.step states a)
    rw [TreeSet.isEmpty_iff_forall_not_mem]
    exact nfa.not_mem_step_of_isEmpty states a none

/-- Ending a run where no states are left loses nothing. -/
theorem acceptsFrom_eq (nfa : Nfa α) (states : StateSet) (word : List α) :
    nfa.acceptsFrom states word = (nfa.run states word).toList.any nfa.isAccepting := by
  fun_induction acceptsFrom nfa states word with
  | case1 states => rfl
  | case2 states a rest next none =>
    symm
    rw [List.any_eq_false]
    intro q member
    rw [TreeSet.mem_toList] at member
    exact absurd member (nfa.not_mem_run_of_isEmpty next rest none q)
  | case3 states a rest next some ih => exact ih

namespace WellFormed

variable [TransOrd α] {nfa : Nfa α} (wellFormed : nfa.WellFormed)
include wellFormed

theorem mem_targetsOn (p q : State) (a : α) :
    q ∈ nfa.targetsOn p a ↔ ∃ i, ⟨p, .symbol i, q⟩ ∈ nfa.transitions ∧ i.contains a = true := by
  rw [wellFormed.targetsOn_eq_scan, TreeSet.mem_toList, Edges.mem_scan]
  simp only [← mem_edges, Edges.symbol_mem_toList, Array.mem_toList_iff]
  constructor
  · intro h
    obtain ⟨e, member, rfl, admits⟩ := h
    exact ⟨e.interval, member, admits⟩
  · intro h
    obtain ⟨i, member, admits⟩ := h
    exact ⟨⟨i, q⟩, member, rfl, admits⟩

theorem mem_run (starts : List State) (word : List α) (q : State) :
    q ∈ nfa.run (nfa.epsilonClosure starts) word ↔
      ∃ p ∈ starts, Path nfa.transitions p word q := by
  induction word generalizing starts with
  | nil => exact mem_epsilonClosure nfa starts q
  | cons a rest ih =>
    have unrolled : nfa.run (nfa.epsilonClosure starts) (a :: rest) =
        nfa.run (nfa.epsilonClosure
          ((nfa.epsilonClosure starts).toList.flatMap (nfa.targetsOn · a))) rest := rfl
    rw [unrolled, ih]
    simp only [List.mem_flatMap, TreeSet.mem_toList, mem_epsilonClosure, wellFormed.mem_targetsOn,
      Path.cons_iff]
    constructor
    · intro h
      obtain ⟨back, ⟨front, ⟨p, start, lead⟩, i, edge, admits⟩, path⟩ := h
      exact ⟨p, start, front, i, back, lead, edge, admits, path⟩
    · intro h
      obtain ⟨p, start, front, i, back, lead, edge, admits, path⟩ := h
      exact ⟨back, ⟨front, ⟨p, start, lead⟩, i, edge, admits⟩, path⟩

theorem accepts_iff_path (word : List α) :
    nfa.accepts word = true ↔
      ∃ p ∈ nfa.initial, ∃ q ∈ nfa.accepting, Path nfa.transitions p word q := by
  unfold accepts
  simp only [acceptsFrom_eq]
  cases nfa.initial with
  | none => simp
  | some p =>
    simp only [List.any_eq_true, TreeSet.mem_toList, wellFormed.mem_run, List.mem_singleton,
      exists_eq_left, isAccepting, TreeSet.contains_iff_mem, Option.mem_some_iff]
    constructor
    · intro h
      obtain ⟨q, path, marked⟩ := h
      exact ⟨p, rfl, q, marked, path⟩
    · intro h
      obtain ⟨_, rfl, q, marked, path⟩ := h
      exact ⟨q, path, marked⟩

end WellFormed

end Nfa

end IntervalAutomata
