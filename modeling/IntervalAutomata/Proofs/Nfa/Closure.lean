import IntervalAutomata.Proofs.Nfa.Run
import Mathlib

namespace IntervalAutomata

open Std

universe u

namespace Traversal

structure Worklist where
  closed : StateSet
  stack : List State

namespace Worklist

/-- Takes the top of the stack. A new state is closed, and its successors are put on the stack, the
    last one on top. -/
def turn (successors : State → List State) : Worklist → Worklist
  | ⟨closed, []⟩ => ⟨closed, []⟩
  | ⟨closed, q :: rest⟩ =>
    if q ∈ closed then ⟨closed, rest⟩ else ⟨closed.insert q, (successors q).reverse ++ rest⟩

def Known (w : Worklist) (q : State) : Prop :=
  q ∈ w.closed ∨ q ∈ w.stack

/-- What holds at every turn of a search from some states. What a closed state leads to is never
    lost: it stays on the stack until it is closed itself. -/
structure Explores (successors : State → List State) (starts : List State) (w : Worklist) :
    Prop where
  reached : ∀ q, w.Known q → ∃ p ∈ starts, Leads successors p q
  started : ∀ p ∈ starts, w.Known p
  frontier : ∀ p ∈ w.closed, ∀ q ∈ successors p, w.Known q

variable {successors : State → List State} {starts : List State}

theorem explores_start : Explores successors starts ⟨∅, starts.reverse⟩ where
  reached := by
    intro q known
    rcases known with closed | waiting
    · exact absurd closed TreeSet.not_mem_emptyc
    · exact ⟨q, List.mem_reverse.mp waiting, .refl⟩
  started := fun p start => .inr (List.mem_reverse.mpr start)
  frontier := fun p closed => absurd closed TreeSet.not_mem_emptyc

theorem mem_closed_turn (closed : StateSet) (top : State) (rest : List State) (q : State) :
    q ∈ (turn successors ⟨closed, top :: rest⟩).closed ↔ q = top ∨ q ∈ closed := by
  by_cases old : top ∈ closed
  · simp only [turn, old, if_true, iff_or_self]
    rintro rfl
    exact old
  · simp only [turn, old, if_false, StateSet.mem_insert]

theorem known_turn_iff (closed : StateSet) (top : State) (rest : List State) (q : State) :
    (turn successors ⟨closed, top :: rest⟩).Known q ↔
      Known ⟨closed, top :: rest⟩ q ∨ (top ∉ closed ∧ q ∈ successors top) := by
  rw [Known, mem_closed_turn, Known, List.mem_cons]
  by_cases old : top ∈ closed
  · have inside : q = top → q ∈ closed := fun same => same ▸ old
    simp only [turn, old, if_true, not_true_eq_false, false_and, or_false]
    tauto
  · simp only [turn, old, if_false, List.mem_append, List.mem_reverse, not_false_eq_true, true_and]
    tauto

theorem Explores.after_turn {w : Worklist} (explores : Explores successors starts w) :
    Explores successors starts (w.turn successors) := by
  obtain ⟨closed, stack⟩ := w
  obtain ⟨reached, started, frontier⟩ := explores
  cases stack with
  | nil => exact ⟨reached, started, frontier⟩
  | cons top rest =>
    refine ⟨fun q known => ?_, fun p start => ?_, fun p inside q edge => ?_⟩
    · rcases (known_turn_iff closed top rest q).mp known with before | next
      · exact reached q before
      · obtain ⟨p, start, path⟩ := reached top (.inr List.mem_cons_self)
        exact ⟨p, start, path.tail next.2⟩
    · exact (known_turn_iff closed top rest p).mpr (.inl (started p start))
    · rw [known_turn_iff]
      by_cases old : p ∈ closed
      · exact .inl (frontier p old q edge)
      · rcases (mem_closed_turn closed top rest p).mp inside with rfl | known
        · exact .inr ⟨old, edge⟩
        · exact absurd known old

theorem Explores.after_turns {w : Worklist} (explores : Explores successors starts w) (count : Nat) :
    Explores successors starts ((turn successors)^[count] w) := by
  induction count generalizing w with
  | zero => exact explores
  | succ count ih => exact ih explores.after_turn

theorem Explores.mem_closed_iff {closed : StateSet}
    (explores : Explores successors starts ⟨closed, []⟩) (q : State) :
    q ∈ closed ↔ ∃ p ∈ starts, Leads successors p q := by
  have known : ∀ p, Known ⟨closed, []⟩ p ↔ p ∈ closed := fun p => by simp [Known]
  obtain ⟨reached, started, frontier⟩ := explores
  simp only [known] at reached started frontier
  refine ⟨reached q, fun h => ?_⟩
  obtain ⟨p, start, path⟩ := h
  by_contra outside
  -- A way out of the closed states would pass a state that waits on the empty stack.
  obtain ⟨_, never, _⟩ := exists_frontier (· ∈ closed) (fun _ => False)
    (fun r inside s edge => .inl (frontier r inside s edge)) path (started p start) outside
  exact never

theorem exists_turns (bound : Nat) (bounded : ∀ q, bound ≤ q.index → successors q = [])
    (closed : StateSet) (stack : List State) :
    ∃ count result, (turn successors)^[count] ⟨closed, stack⟩ = ⟨result, []⟩ := by
  match stack with
  | [] => exact ⟨0, closed, rfl⟩
  | top :: rest =>
    by_cases old : top ∈ closed
    · have popped : turn successors ⟨closed, top :: rest⟩ = ⟨closed, rest⟩ := if_pos old
      obtain ⟨count, result, emptied⟩ := exists_turns bound bounded closed rest
      exact ⟨count + 1, result, by rw [Function.iterate_succ_apply, popped, emptied]⟩
    · have pushed : turn successors ⟨closed, top :: rest⟩ =
          ⟨closed.insert top, (successors top).reverse ++ rest⟩ := if_neg old
      obtain ⟨count, result, emptied⟩ := exists_turns bound bounded (closed.insert top)
        ((successors top).reverse ++ rest)
      exact ⟨count + 1, result, by rw [Function.iterate_succ_apply, pushed, emptied]⟩
-- A turn closes a state that may lead on, or makes the stack smaller and reopens nothing.
termination_by ((unseen bound closed).length, stack.length)
decreasing_by
  · exact .right _ (by simp)
  · have grows : ∀ q ∈ closed, q ∈ closed.insert top := fun q inside =>
      (StateSet.mem_insert closed top q).mpr (.inr inside)
    by_cases below : top.index < bound
    · have added : top ∈ closed.insert top := (StateSet.mem_insert closed top top).mpr (.inl rfl)
      exact .left _ _ (length_unseen_lt grows below old added)
    · rw [bounded top (Nat.le_of_not_lt below)]
      have noMore : (unseen bound (closed.insert top)).length ≤ (unseen bound closed).length :=
        length_unseen_le grows
      rcases Nat.lt_or_eq_of_le noMore with fewer | same
      · exact .left _ _ fewer
      · rw [same]
        exact .right _ (by simp)

theorem exists_turns_mem_iff (bound : Nat) (bounded : ∀ q, bound ≤ q.index → successors q = [])
    (starts : List State) :
    ∃ count closed, (turn successors)^[count] ⟨∅, starts.reverse⟩ = ⟨closed, []⟩ ∧
      ∀ q, q ∈ closed ↔ ∃ p ∈ starts, Leads successors p q := by
  obtain ⟨count, closed, emptied⟩ := exists_turns bound bounded ∅ starts.reverse
  refine ⟨count, closed, emptied, ?_⟩
  have explores : Explores successors starts ((turn successors)^[count] ⟨∅, starts.reverse⟩) :=
    explores_start.after_turns count
  rw [emptied] at explores
  exact explores.mem_closed_iff

end Worklist

end Traversal

variable {α : Type u}

namespace Nfa

theorem WellFormed.mem_step [Ord α] [TransOrd α] {nfa : Nfa α} (wellFormed : nfa.WellFormed)
    (states : StateSet) (a : α) (q : State) :
    q ∈ nfa.step states a ↔ ∃ p ∈ states, ∃ i r, ⟨p, .symbol i, r⟩ ∈ nfa.transitions ∧
      i.contains a = true ∧ nfa.EpsilonLeads r q := by
  simp only [step, mem_epsilonClosure_iff, List.mem_flatMap, TreeSet.mem_toList,
    wellFormed.mem_targetsOn]
  constructor
  · rintro ⟨r, ⟨p, inside, i, edge, admits⟩, leads⟩
    exact ⟨p, inside, i, r, edge, admits, leads⟩
  · rintro ⟨p, inside, i, r, edge, admits, leads⟩
    exact ⟨r, ⟨p, inside, i, edge, admits⟩, leads⟩

end Nfa

namespace Operation

open Traversal (Worklist)

variable [Ord α] [Alphabet α] [DecidableEq α] [TransOrd α]

/-- Whatever operations an automaton comes from, a closure holds just what epsilon transitions lead
    to, however often and in whatever order the states to start from are given, and closing them by a
    stack ends with the same states. A step holds just what one transition on the symbol leads to,
    and epsilon transitions from there. -/
theorem closure_and_step_exact (operations : List (Operation α)) :
    (∀ starts q, q ∈ (applyAll (∅ : Nfa α) operations).epsilonClosure starts ↔
      ∃ p ∈ starts, (applyAll ∅ operations).EpsilonLeads p q) ∧
    (∀ starts others : List State, (∀ p, p ∈ starts ↔ p ∈ others) →
      ((applyAll (∅ : Nfa α) operations).epsilonClosure starts).toList =
        ((applyAll ∅ operations).epsilonClosure others).toList) ∧
    (∀ starts : List State, ∃ turns closed,
      (Worklist.turn (applyAll (∅ : Nfa α) operations).epsilonTargets)^[turns]
          ⟨∅, starts.reverse⟩ = ⟨closed, []⟩ ∧
        closed.toList = ((applyAll ∅ operations).epsilonClosure starts).toList) ∧
    ∀ states a q, q ∈ (applyAll ∅ operations).step states a ↔
      ∃ p ∈ states, ∃ i r, ⟨p, .symbol i, r⟩ ∈ (applyAll ∅ operations).transitions ∧
        i.contains a = true ∧ (applyAll ∅ operations).EpsilonLeads r q := by
  have wellFormed := wellFormed_applyAll Nfa.wellFormed_empty operations
  generalize applyAll ∅ operations = nfa at wellFormed ⊢
  have exact := nfa.mem_epsilonClosure_iff
  refine ⟨exact, fun starts others same => ?_, fun starts => ?_, wellFormed.mem_step⟩
  · apply StateSet.toList_eq
    intro q
    simp only [exact, same]
  · obtain ⟨turns, closed, emptied, found⟩ := Worklist.exists_turns_mem_iff nfa.slots.size
      nfa.epsilonTargets_eq_nil_of_size_le starts
    refine ⟨turns, closed, emptied, StateSet.toList_eq fun q => ?_⟩
    rw [found, exact, nfa.leads_epsilonTargets]

def epsilonCircleEdits : List (Operation Letter) :=
  [addTransition ⟨⟨0⟩, .epsilon, ⟨1⟩⟩, addTransition ⟨⟨1⟩, .epsilon, ⟨0⟩⟩,
    addTransition ⟨⟨1⟩, .epsilon, ⟨1⟩⟩, addTransition ⟨⟨1⟩, .epsilon, ⟨4⟩⟩,
    addTransition ⟨⟨4⟩, .symbol (.closed .A .C), ⟨0⟩⟩, addTransition ⟨⟨1⟩, .epsilon, ⟨3⟩⟩,
    removeStates [⟨3⟩]]

theorem closure_and_step_epsilonCircle :
    ((applyAll ∅ epsilonCircleEdits).epsilonClosure [⟨9⟩, ⟨1⟩, ⟨3⟩, ⟨1⟩]).toList =
        [⟨0⟩, ⟨1⟩, ⟨3⟩, ⟨4⟩, ⟨9⟩] ∧
      ((applyAll ∅ epsilonCircleEdits).epsilonClosure [⟨3⟩, ⟨1⟩, ⟨9⟩]).toList =
        [⟨0⟩, ⟨1⟩, ⟨3⟩, ⟨4⟩, ⟨9⟩] ∧
      (∀ q, (applyAll ∅ epsilonCircleEdits).EpsilonLeads ⟨1⟩ q ↔ q ∈ [State.mk 0, ⟨1⟩, ⟨4⟩]) ∧
      ∃ p ∈ (applyAll ∅ epsilonCircleEdits).epsilonClosure [⟨1⟩], ∃ i r,
        ⟨p, .symbol i, r⟩ ∈ (applyAll ∅ epsilonCircleEdits).transitions ∧ i.contains .B = true ∧
          (applyAll ∅ epsilonCircleEdits).EpsilonLeads r ⟨4⟩ := by
  obtain ⟨exact, unordered, _, steps⟩ := closure_and_step_exact epsilonCircleEdits
  have closed : ((applyAll ∅ epsilonCircleEdits).epsilonClosure [⟨9⟩, ⟨1⟩, ⟨3⟩, ⟨1⟩]).toList =
      [⟨0⟩, ⟨1⟩, ⟨3⟩, ⟨4⟩, ⟨9⟩] := by cbv
  have same : ∀ p : State, p ∈ [State.mk 3, ⟨1⟩, ⟨9⟩] ↔ p ∈ [State.mk 9, ⟨1⟩, ⟨3⟩, ⟨1⟩] := by
    intro p
    simp only [List.mem_cons, List.not_mem_nil, or_false]
    tauto
  have circle : ((applyAll ∅ epsilonCircleEdits).epsilonClosure [⟨1⟩]).toList =
      [⟨0⟩, ⟨1⟩, ⟨4⟩] := by cbv
  have stepped : ((applyAll ∅ epsilonCircleEdits).step
      ((applyAll ∅ epsilonCircleEdits).epsilonClosure [⟨1⟩]) .B).toList = [⟨0⟩, ⟨1⟩, ⟨4⟩] := by cbv
  refine ⟨closed, (unordered _ _ same).trans closed, fun q => ?_, ?_⟩
  · rw [← circle, TreeSet.mem_toList, exact]
    simp
  · rw [← steps, ← TreeSet.mem_toList, stepped]
    simp

end Operation

end IntervalAutomata
