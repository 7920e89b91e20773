import IntervalAutomata.Nfa.Basic
import IntervalAutomata.Proofs.Nfa.EdgeEdits
import IntervalAutomata.Proofs.Stable
import Mathlib.Logic.Basic

namespace IntervalAutomata

open Std

universe u

variable {α : Type u}

namespace Transition

def symbolEdgeFrom? (q : State) : Transition α → Option (SymbolEdge α)
  | ⟨p, .symbol interval, r⟩ => if p = q then some ⟨interval, r⟩ else none
  | ⟨_, .epsilon, _⟩ => none

def epsilonTargetFrom? (q : State) : Transition α → Option State
  | ⟨_, .symbol _, _⟩ => none
  | ⟨p, .epsilon, r⟩ => if p = q then some r else none

theorem eq_of_symbolEdgeFrom? {q : State} {t : Transition α} {e : SymbolEdge α}
    (edge : t.symbolEdgeFrom? q = some e) : t = ⟨q, .symbol e.interval, e.target⟩ := by
  obtain ⟨p, label, r⟩ := t
  cases label with
  | epsilon => simp [symbolEdgeFrom?] at edge
  | symbol i =>
    simp only [symbolEdgeFrom?, Option.ite_none_right_eq_some, Option.some.injEq] at edge
    obtain ⟨rfl, rfl⟩ := edge
    rfl

theorem eq_of_epsilonTargetFrom? {q r : State} {t : Transition α}
    (edge : t.epsilonTargetFrom? q = some r) : t = ⟨q, .epsilon, r⟩ := by
  obtain ⟨p, label, s⟩ := t
  cases label with
  | symbol i => simp [epsilonTargetFrom?] at edge
  | epsilon =>
    simp only [epsilonTargetFrom?, Option.ite_none_right_eq_some, Option.some.injEq] at edge
    obtain ⟨rfl, rfl⟩ := edge
    rfl

theorem symbolEdgeFrom?_of_ne {q : State} {t : Transition α} (other : q ≠ t.source) :
    t.symbolEdgeFrom? q = none :=
  Option.eq_none_iff_forall_ne_some.mpr fun _ edge =>
    other (congrArg source (eq_of_symbolEdgeFrom? edge)).symm

theorem epsilonTargetFrom?_of_ne {q : State} {t : Transition α} (other : q ≠ t.source) :
    t.epsilonTargetFrom? q = none :=
  Option.eq_none_iff_forall_ne_some.mpr fun _ edge =>
    other (congrArg source (eq_of_epsilonTargetFrom? edge)).symm

end Transition

theorem filterMap_filter_of_inverse {β γ : Type*} {f : β → Option γ} {back : γ → β}
    (inverse : ∀ b c, f b = some c → b = back c) (keep : β → Bool) (items : List β) :
    (items.filter keep).filterMap f = (items.filterMap f).filter fun c => keep (back c) := by
  rw [List.filterMap_filter, List.filter_filterMap]
  apply List.filterMap_congr
  intro b _
  cases image : f b with
  | none => simp
  | some c =>
    obtain rfl := inverse b c image
    rw [Option.filter_some]

namespace Edges

variable [Ord α] [TransOrd α] [DecidableEq α]

theorem insert?_arrives {edges larger : Edges α} (wellFormed : edges.WellFormed) {t : Transition α}
    (added : edges.insert? t.label t.target = some larger) {items : List (SymbolEdge α)}
    (sorted : edges.symbols.toList = Stable.sort compareStart items) :
    larger.symbols.toList =
        Stable.sort compareStart (items ++ (t.symbolEdgeFrom? t.source).toList) ∧
      larger.epsilons = edges.epsilons ++ (t.epsilonTargetFrom? t.source).toList := by
  obtain ⟨p, label, r⟩ := t
  cases label with
  | epsilon =>
    simp only [insert?, Option.ite_none_left_eq_some, Option.some.injEq] at added
    obtain ⟨_, rfl⟩ := added
    simp [Transition.symbolEdgeFrom?, Transition.epsilonTargetFrom?, sorted]
  | symbol i =>
    simp only [insert?, Option.ite_none_left_eq_some, Option.some.injEq] at added
    obtain ⟨new, rfl⟩ := added
    have missing := mt (place_exact_iff edges.symbols ⟨i, r⟩ wellFormed.ascending).mpr new
    obtain ⟨front, run, back, split, parted, inserted⟩ :=
      toList_insert_place edges.symbols ⟨i, r⟩ wellFormed.ascending missing
    simp only [Transition.symbolEdgeFrom?, Transition.epsilonTargetFrom?, if_true,
      Option.toList_some, Option.toList_none, List.append_nil, and_true, inserted]
    symm
    -- The run of level edges ends where the new edge goes, so all of it comes first.
    apply Stable.sort_concat items (front ++ run) back ⟨i, r⟩ (sorted.symm.trans split)
    · intro e member
      rcases List.mem_append.mp member with inFront | inRun
      · exact Ordering.isLE_of_eq_lt (parted.below e inFront)
      · exact Ordering.isLE_of_eq_eq (parted.level e inRun)
    · intro e member
      exact OrientedCmp.lt_of_gt (parted.above e member)

end Edges

end IntervalAutomata
