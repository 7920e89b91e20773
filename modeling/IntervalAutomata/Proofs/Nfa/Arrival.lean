import IntervalAutomata.Alphabet.Letter
import IntervalAutomata.Proofs.Nfa.EdgeOrder
import IntervalAutomata.Proofs.Nfa.Prune
import Mathlib

/-!
The edges of a state in the order in which they came. Whatever else is added and removed, the symbol
edges are a stable sort by lower bound of those that are still there, taken in the order in which
each was added last, and the epsilon edges are in that order itself.
-/

namespace IntervalAutomata

open Std

universe u

variable {α : Type u}

namespace Nfa

def Keeps (keep : Transition α → Bool) (nfa next : Nfa α) : Prop :=
  ∀ q, next.edges q = (nfa.edges q).keeping fun label r => keep ⟨q, label, r⟩

theorem Keeps.of_edges_eq {nfa next : Nfa α} (same : ∀ q, next.edges q = nfa.edges q) :
    Keeps (fun _ => true) nfa next := by
  intro q
  rw [same, Edges.keeping_eq_self fun _ _ _ => rfl]

theorem keeps_removeStates (nfa : Nfa α) (doomed : StateSet) :
    Keeps (fun t => t.source ∉ doomed ∧ t.target ∉ doomed) nfa (nfa.removeStates doomed) := by
  intro q
  rw [edges_removeStates]
  split
  · rename_i gone
    simp only [gone, not_true_eq_false, false_and, decide_false, Edges.keeping_none]
  · rename_i stays
    rw [Edges.dropTargets_eq_keeping]
    simp only [stays, not_false_eq_true, true_and]

theorem Keeps.mem_transitions_iff {keep : Transition α → Bool} {nfa next : Nfa α}
    (keeps : Keeps keep nfa next) (t : Transition α) :
    t ∈ next.transitions ↔ t ∈ nfa.transitions ∧ keep t = true := by
  rw [mem_transitions, keeps, Edges.mem_toList_keeping, ← mem_transitions]

theorem keeps_pruneFrom (nfa : Nfa α) (seed : State) :
    ∃ keep, Keeps keep nfa (nfa.pruneFrom seed).1 := by
  rcases nfa.pruneFrom_cases seed with idle | removing
  · rw [idle.1]
    exact ⟨_, .of_edges_eq fun _ => rfl⟩
  · rw [removing.1]
    exact ⟨_, nfa.keeps_removeStates _⟩

theorem keeps_prune (nfa : Nfa α) : ∃ keep, Keeps keep nfa nfa.prune.1 := by
  rcases nfa.prune_cases with idle | ⟨seed, _, same⟩
  · rw [idle]
    exact ⟨_, .of_edges_eq fun _ => rfl⟩
  · rw [same]
    exact nfa.keeps_pruneFrom seed

theorem dedup_concat {β : Type*} [DecidableEq β] (items : List β) (last : β) :
    (items ++ [last]).dedup = items.dedup.filter (· ≠ last) ++ [last] := by
  induction items with
  | nil => rfl
  | cons x rest ih =>
    rw [List.cons_append]
    by_cases again : x ∈ rest
    · rw [List.dedup_cons_of_mem (List.mem_append_left _ again), List.dedup_cons_of_mem again, ih]
    · rw [List.dedup_cons_of_notMem again, List.filter_cons]
      by_cases same : x = last
      · rw [List.dedup_cons_of_mem (by simp [same]), ih, if_neg (by simp [same])]
      · rw [List.dedup_cons_of_notMem (by simp [again, same]), ih, if_pos (by simp [same]),
          List.cons_append]

section Lasting

variable [DecidableEq α]

/-- The transitions that an automaton still has of those that were added to it, in the order in
    which each was added last. -/
def lasting (nfa : Nfa α) (additions : List (Transition α)) : List (Transition α) :=
  additions.dedup.filter (· ∈ nfa.transitions)

theorem Keeps.lasting_eq {keep : Transition α → Bool} {nfa next : Nfa α}
    (keeps : Keeps keep nfa next) (additions : List (Transition α)) :
    next.lasting additions = (nfa.lasting additions).filter keep := by
  rw [lasting, lasting, List.filter_filter]
  apply List.filter_congr
  intro t _
  rw [Bool.eq_iff_iff]
  simp [keeps.mem_transitions_iff, and_comm]

theorem lasting_concat {nfa next : Nfa α} {t : Transition α} (missing : t ∉ nfa.transitions)
    (gained : ∀ s, s ∈ next.transitions ↔ s ∈ nfa.transitions ∨ s = t)
    (additions : List (Transition α)) :
    next.lasting (additions ++ [t]) = nfa.lasting additions ++ [t] := by
  have present : t ∈ next.transitions := (gained t).mpr (.inr rfl)
  rw [lasting, dedup_concat, List.filter_append, List.filter_filter, lasting]
  congr 1
  · apply List.filter_congr
    intro s _
    rw [Bool.eq_iff_iff]
    by_cases same : s = t
    · simp [same, missing]
    · simp [gained, same]
  · simp [present]

end Lasting

variable [Ord α]

/-- Whether the edges of each state are in the order of some arrivals. Its symbol edges are a stable
    sort by lower bound of those that arrived, its epsilon edges stand just as they arrived. -/
structure Arranged (nfa : Nfa α) (arrivals : List (Transition α)) : Prop where
  symbols : ∀ q, (nfa.symbolEdges q).toList =
    Stable.sort Edges.compareStart (arrivals.filterMap (·.symbolEdgeFrom? q))
  epsilons : ∀ q, nfa.epsilonTargets q = arrivals.filterMap (·.epsilonTargetFrom? q)

theorem arranged_empty : (∅ : Nfa α).Arranged [] :=
  ⟨fun _ => List.mergeSort_nil.symm, fun _ => rfl⟩

theorem Arranged.arrived {nfa : Nfa α} {arrivals : List (Transition α)}
    (arranged : nfa.Arranged arrivals) {t : Transition α} (member : t ∈ nfa.transitions) :
    t ∈ arrivals := by
  rw [mem_transitions] at member
  obtain ⟨p, label, q⟩ := t
  cases label with
  | epsilon =>
    have target := (Edges.epsilon_mem_toList _ q).mp member
    rw [← epsilonTargets, arranged.epsilons, List.mem_filterMap] at target
    obtain ⟨t, arrived, edge⟩ := target
    rwa [← Transition.eq_of_epsilonTargetFrom? edge]
  | symbol i =>
    have edge := (Edges.symbol_mem_toList _ i q).mp member
    rw [← symbolEdges, arranged.symbols, Stable.sort, List.mem_mergeSort, List.mem_filterMap] at edge
    obtain ⟨t, arrived, edge⟩ := edge
    rwa [← Transition.eq_of_symbolEdgeFrom? edge]

theorem Arranged.keeps [TransOrd α] {keep : Transition α → Bool} {nfa next : Nfa α}
    {arrivals : List (Transition α)} (arranged : nfa.Arranged arrivals)
    (keeps : Keeps keep nfa next) : next.Arranged (arrivals.filter keep) where
  symbols q := by
    rw [filterMap_filter_of_inverse fun _ _ => Transition.eq_of_symbolEdgeFrom?,
      Stable.sort_filter, ← arranged.symbols, symbolEdges, keeps]
    exact Array.toList_filter
  epsilons q := by
    rw [filterMap_filter_of_inverse fun _ _ => Transition.eq_of_epsilonTargetFrom?,
      ← arranged.epsilons, epsilonTargets, keeps]
    rfl

variable [DecidableEq α]

def accepted (nfa : Nfa α) : List (Transition α) → List (Transition α)
  | [] => []
  | t :: rest =>
    let (next, new) := nfa.addTransition t
    if new then t :: next.accepted rest else next.accepted rest

theorem accepted_cons (nfa : Nfa α) (t : Transition α) (rest : List (Transition α)) :
    nfa.accepted (t :: rest) = nfa.accepted [t] ++ (nfa.addTransition t).1.accepted rest := by
  simp only [accepted]
  split <;> rfl

theorem addTransition_of_insert? {nfa : Nfa α} {t : Transition α} {larger : Edges α}
    (added : (nfa.edges t.source).insert? t.label t.target = some larger) :
    nfa.addTransition t = ((nfa.withEnds t).setEdges t.source larger, true) := by
  rw [addTransition_eq, edges_withEnds, added]

theorem addTransition_of_known {nfa : Nfa α} {t : Transition α}
    (known : (nfa.edges t.source).insert? t.label t.target = none) :
    nfa.addTransition t = (nfa.withEnds t, false) := by
  rw [addTransition_eq, edges_withEnds, known]

variable [TransOrd α]

namespace WellFormed

variable {nfa : Nfa α} (wellFormed : nfa.WellFormed)
include wellFormed

theorem arranged_insert? {t : Transition α} {larger : Edges α} {arrivals : List (Transition α)}
    (added : (nfa.edges t.source).insert? t.label t.target = some larger)
    (arranged : nfa.Arranged arrivals) :
    ((nfa.withEnds t).setEdges t.source larger).Arranged (arrivals ++ [t]) := by
  have edges : ∀ q, ((nfa.withEnds t).setEdges t.source larger).edges q =
      if q = t.source then larger else nfa.edges q := by
    intro q
    rw [edges_setEdges _ _ _ _ ((contains_withEnds nfa t t.source).mpr (by simp)), edges_withEnds]
  obtain ⟨symbols, epsilons⟩ := Edges.insert?_arrives (wellFormed.edges_wellFormed t.source) added
    (arranged.symbols t.source)
  refine ⟨fun q => ?_, fun q => ?_⟩
  · rw [symbolEdges, edges, List.filterMap_append]
    by_cases same : q = t.source
    · subst same
      rw [if_pos rfl, symbols]
      rfl
    · rw [if_neg same]
      simp [Transition.symbolEdgeFrom?_of_ne same, ← arranged.symbols, symbolEdges]
  · rw [epsilonTargets, edges, List.filterMap_append]
    by_cases same : q = t.source
    · subst same
      rw [if_pos rfl, epsilons, ← arranged.epsilons]
      rfl
    · rw [if_neg same]
      simp [Transition.epsilonTargetFrom?_of_ne same, ← arranged.epsilons, epsilonTargets]

theorem arranged_addTransition (t : Transition α) {additions : List (Transition α)}
    (arranged : nfa.Arranged (nfa.lasting additions)) :
    (nfa.addTransition t).1.Arranged
      ((nfa.addTransition t).1.lasting (additions ++ nfa.accepted [t])) := by
  cases inserted : (nfa.edges t.source).insert? t.label t.target with
  | none =>
    -- The ends may be new, but no edge is.
    have keeps : Keeps (fun _ => true) nfa (nfa.withEnds t) := .of_edges_eq (edges_withEnds nfa t)
    have refused := addTransition_of_known inserted
    have nothing : nfa.accepted [t] = [] := by simp [accepted, refused]
    rw [nothing, List.append_nil, refused, keeps.lasting_eq]
    exact arranged.keeps keeps
  | some larger =>
    have added := addTransition_of_insert? inserted
    have missing : t ∉ nfa.transitions := (wellFormed.addTransition_reports t).mp (by rw [added])
    have gained := wellFormed.mem_transitions_addTransition t
    have new : nfa.accepted [t] = [t] := by simp [accepted, added]
    rw [new, lasting_concat missing gained, added]
    exact wellFormed.arranged_insert? inserted arranged

theorem arranged_addTransitions (ts : List (Transition α)) {additions : List (Transition α)}
    (arranged : nfa.Arranged (nfa.lasting additions)) :
    (nfa.addTransitions ts).Arranged
      ((nfa.addTransitions ts).lasting (additions ++ nfa.accepted ts)) := by
  induction ts generalizing nfa additions with
  | nil =>
    rw [accepted, List.append_nil]
    exact arranged
  | cons t rest ih =>
    rw [accepted_cons, ← List.append_assoc]
    exact ih (wellFormed.addTransition t) (wellFormed.arranged_addTransition t arranged)

theorem keeps_removeTransition (t : Transition α) :
    ∃ keep, Keeps keep nfa (nfa.removeTransition t).1 := by
  by_cases member : t ∈ nfa.transitions
  · have found := (mem_transitions nfa t).mp member
    refine ⟨fun s => s ≠ t, fun q => ?_⟩
    rw [Nfa.removeTransition, Edges.erase?_of_mem (wellFormed.edges_wellFormed t.source) found,
      edges_setEdges _ _ _ _ (wellFormed.ends_of_mem member).1]
    split
    · rename_i same
      subst same
      refine congrArg _ (funext₂ fun label r => decide_eq_decide.mpr ?_)
      cases t
      simp
    · rename_i other
      symm
      apply Edges.keeping_eq_self
      intro label r _
      rw [decide_eq_true_eq]
      exact fun same => other (congrArg Transition.source same)
  · have missing := mt (mem_transitions nfa t).mpr member
    refine ⟨_, .of_edges_eq fun q => ?_⟩
    rw [Nfa.removeTransition,
      Edges.erase?_of_not_mem (wellFormed.edges_wellFormed t.source) missing]

end WellFormed

end Nfa

namespace Operation

variable [Ord α] [Alphabet α] [DecidableEq α]

def added (nfa : Nfa α) : Operation α → List (Transition α)
  | addTransition t => nfa.accepted [t]
  | construct compiler regex =>
    match compiler.allowance regex with
    | .ok _ =>
      let f := Fragment.ofCore nfa.slots.size regex.desugar
      (nfa.newStates f.size).accepted f.transitions
    | .error _ => []
  | newState | setInitial _ | addAccepting _ | removeAccepting _ | removeTransition _
  | removeStates _ | pruneFrom _ | prune => []

/-- The transitions that operations add in turn; one that is removed and added again is listed
    again. -/
def additions (nfa : Nfa α) : List (Operation α) → List (Transition α)
  | [] => []
  | operation :: rest => operation.added nfa ++ additions (operation.apply nfa).1 rest

theorem reply_addTransition (nfa : Nfa α) (t : Transition α) :
    ((addTransition t).apply nfa).2 = .changed (nfa.addTransition t).2 := rfl

theorem edges_eq_of_unchanged (nfa : Nfa α) {operation : Operation α}
    (unchanged : (operation.apply nfa).2 = .changed false) (q : State) :
    (operation.apply nfa).1.edges q = nfa.edges q := by
  cases operation with
  | newState | setInitial | removeStates => simp [apply] at unchanged
  | addAccepting p => exact nfa.edges_ensure p q
  | removeAccepting p => rfl
  | addTransition t =>
    cases inserted : (nfa.edges t.source).insert? t.label t.target with
    | none =>
      simp only [apply, changing, Nfa.addTransition_of_known inserted, Nfa.edges_withEnds]
    | some larger =>
      simp [apply, changing, Nfa.addTransition_of_insert? inserted] at unchanged
  | removeTransition t =>
    simp only [apply, changing, Nfa.removeTransition] at unchanged ⊢
    split at unchanged
    · simp at unchanged
    · rfl
  | pruneFrom seed =>
    have idle := Nfa.pruneFrom_of_unchanged (Reply.changed.inj unchanged)
    exact congrArg (Nfa.edges · q) idle
  | prune =>
    have idle := Nfa.prune_of_unchanged (Reply.changed.inj unchanged)
    exact congrArg (Nfa.edges · q) idle
  | construct compiler regex =>
    cases allowed : compiler.allowance regex with
    | ok count => simp [apply_construct_of_ok nfa compiler regex count allowed] at unchanged
    | error e => simp [apply_construct_of_error nfa compiler regex e allowed] at unchanged

variable [TransOrd α]

theorem arranged_apply {nfa : Nfa α} (wellFormed : nfa.WellFormed) (operation : Operation α)
    {before : List (Transition α)} (arranged : nfa.Arranged (nfa.lasting before)) :
    (operation.apply nfa).1.Arranged
      ((operation.apply nfa).1.lasting (before ++ operation.added nfa)) := by
  have kept : ∀ next : Nfa α, (∃ keep, Nfa.Keeps keep nfa next) →
      next.Arranged (next.lasting (before ++ [])) := by
    rintro next ⟨keep, keeps⟩
    rw [List.append_nil, keeps.lasting_eq]
    exact arranged.keeps keeps
  cases operation with
  | newState =>
    apply kept
    show ∃ keep, Nfa.Keeps keep nfa nfa.newState.1
    rw [nfa.newState_eq]
    exact ⟨_, .of_edges_eq (nfa.edges_newStates 1)⟩
  | setInitial p => exact kept _ ⟨_, .of_edges_eq (nfa.edges_ensure p)⟩
  | addAccepting p => exact kept _ ⟨_, .of_edges_eq (nfa.edges_ensure p)⟩
  | removeAccepting p => exact kept _ ⟨_, .of_edges_eq fun _ => rfl⟩
  | addTransition t => exact wellFormed.arranged_addTransition t arranged
  | removeTransition t => exact kept _ (wellFormed.keeps_removeTransition t)
  | removeStates doomed => exact kept _ ⟨_, nfa.keeps_removeStates _⟩
  | pruneFrom seed => exact kept _ (nfa.keeps_pruneFrom seed)
  | prune => exact kept _ nfa.keeps_prune
  | construct compiler regex =>
    cases allowed : compiler.allowance regex with
    | ok count =>
      have keeps : Nfa.Keeps (fun _ => true) nfa (nfa.newStates
          (Fragment.ofCore nfa.slots.size regex.desugar).size) :=
        .of_edges_eq (nfa.edges_newStates _)
      have grown := arranged.keeps keeps
      rw [← keeps.lasting_eq] at grown
      rw [apply_construct_of_ok nfa compiler regex count allowed]
      simp only [added, allowed]
      exact (wellFormed.newStates _).arranged_addTransitions _ grown
    | error e =>
      rw [apply_construct_of_error nfa compiler regex e allowed]
      simp only [added, allowed]
      exact kept nfa ⟨_, .of_edges_eq fun _ => rfl⟩

theorem arranged_applyAll {nfa : Nfa α} (wellFormed : nfa.WellFormed)
    (operations : List (Operation α)) {before : List (Transition α)}
    (arranged : nfa.Arranged (nfa.lasting before)) :
    (applyAll nfa operations).Arranged
      ((applyAll nfa operations).lasting (before ++ additions nfa operations)) := by
  induction operations generalizing nfa before with
  | nil =>
    rw [additions, List.append_nil]
    exact arranged
  | cons operation rest ih =>
    rw [additions, ← List.append_assoc]
    exact ih (wellFormed_apply wellFormed operation) (arranged_apply wellFormed operation arranged)

/-- After any run, the edges of each state are in the order in which the transitions that are left
    were added last, and an operation that answers that it changed nothing leaves them so. -/
theorem edges_by_arrival (operations : List (Operation α)) :
    (applyAll ∅ operations).Arranged
        ((applyAll ∅ operations).lasting (additions ∅ operations)) ∧
      (∀ t, t ∈ (applyAll ∅ operations).lasting (additions ∅ operations) ↔
        t ∈ (applyAll ∅ operations).transitions) ∧
      ∀ operation : Operation α,
        (operation.apply (applyAll ∅ operations)).2 = .changed false →
          ∀ q, (operation.apply (applyAll ∅ operations)).1.edges q =
            (applyAll ∅ operations).edges q := by
  have start : (∅ : Nfa α).Arranged ((∅ : Nfa α).lasting []) := Nfa.arranged_empty
  have arranged := arranged_applyAll Nfa.wellFormed_empty operations start
  refine ⟨arranged, fun t => ⟨fun member => ?_, arranged.arrived⟩, ?_⟩
  · simpa using (List.mem_filter.mp member).2
  · exact fun operation unchanged => edges_eq_of_unchanged _ unchanged

def rearrangedEdits : List (Operation Letter) :=
  [addTransition ⟨⟨0⟩, .symbol (.closed .B .D), ⟨1⟩⟩, addTransition ⟨⟨0⟩, .epsilon, ⟨2⟩⟩,
    addTransition ⟨⟨0⟩, .symbol (.closed .B .B), ⟨1⟩⟩, addTransition ⟨⟨0⟩, .epsilon, ⟨1⟩⟩,
    addTransition ⟨⟨0⟩, .symbol (.closed .B .D), ⟨3⟩⟩,
    addTransition ⟨⟨0⟩, .symbol (.closed .A .A), ⟨2⟩⟩,
    removeTransition ⟨⟨0⟩, .symbol (.closed .B .D), ⟨1⟩⟩,
    removeTransition ⟨⟨0⟩, .epsilon, ⟨2⟩⟩, removeStates [⟨3⟩],
    addTransition ⟨⟨0⟩, .symbol (.closed .B .B), ⟨1⟩⟩,
    addTransition ⟨⟨0⟩, .symbol (.closed .B .D), ⟨1⟩⟩, addTransition ⟨⟨0⟩, .epsilon, ⟨2⟩⟩]

theorem edges_of_rearrangedEdits :
    (applyAll ∅ rearrangedEdits).Arranged
        [⟨⟨0⟩, .symbol (.closed .B .B), ⟨1⟩⟩, ⟨⟨0⟩, .epsilon, ⟨1⟩⟩,
          ⟨⟨0⟩, .symbol (.closed .A .A), ⟨2⟩⟩, ⟨⟨0⟩, .symbol (.closed .B .D), ⟨1⟩⟩,
          ⟨⟨0⟩, .epsilon, ⟨2⟩⟩] ∧
      ((applyAll ∅ rearrangedEdits).symbolEdges ⟨0⟩).toList =
        [⟨.closed .A .A, ⟨2⟩⟩, ⟨.closed .B .B, ⟨1⟩⟩, ⟨.closed .B .D, ⟨1⟩⟩] ∧
      (applyAll ∅ rearrangedEdits).epsilonTargets ⟨0⟩ = [⟨1⟩, ⟨2⟩] ∧
      ∀ q, ((addTransition ⟨⟨0⟩, .symbol (.closed .B .B), ⟨1⟩⟩).apply
        (applyAll ∅ rearrangedEdits)).1.edges q = (applyAll ∅ rearrangedEdits).edges q := by
  obtain ⟨arranged, _, unchanged⟩ := edges_by_arrival rearrangedEdits
  have left : (applyAll ∅ rearrangedEdits).lasting (additions ∅ rearrangedEdits) =
      [⟨⟨0⟩, .symbol (.closed .B .B), ⟨1⟩⟩, ⟨⟨0⟩, .epsilon, ⟨1⟩⟩,
        ⟨⟨0⟩, .symbol (.closed .A .A), ⟨2⟩⟩, ⟨⟨0⟩, .symbol (.closed .B .D), ⟨1⟩⟩,
        ⟨⟨0⟩, .epsilon, ⟨2⟩⟩] := by
    decide +kernel
  rw [left] at arranged
  refine ⟨arranged, by decide +kernel, by decide +kernel, ?_⟩
  apply unchanged
  rw [reply_addTransition]
  exact congrArg Reply.changed (by decide +kernel)

end Operation

end IntervalAutomata
