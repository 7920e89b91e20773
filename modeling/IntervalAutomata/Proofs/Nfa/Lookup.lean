import IntervalAutomata.Alphabet.Letter
import IntervalAutomata.Nfa.Simulation
import IntervalAutomata.Proofs.Nfa.WellFormed
import Mathlib

/-!
Looking up where a state leads on a symbol. The search cuts off the edges that start too high for
the symbol. As the edges ascend by their lower bounds, none of those admits it, so that the lookup
finds what trying every edge finds.
-/

namespace IntervalAutomata

open Std

universe u

variable {α : Type u} [Ord α]

namespace Edges

def scan (edges : Edges α) (a : α) : StateSet :=
  .ofList ((edges.symbols.toList.filter (·.interval.contains a)).map (·.target))

theorem mem_scan (edges : Edges α) (a : α) (q : State) :
    q ∈ edges.scan a ↔ ∃ e ∈ edges.symbols, e.target = q ∧ e.interval.contains a = true := by
  rw [scan, StateSet.mem_ofList, List.mem_map]
  constructor
  · intro h
    obtain ⟨e, admitting, rfl⟩ := h
    obtain ⟨member, admits⟩ := List.mem_filter.mp admitting
    exact ⟨e, Array.mem_toList_iff.mp member, rfl, admits⟩
  · intro h
    obtain ⟨e, member, rfl, admits⟩ := h
    exact ⟨e, List.mem_filter.mpr ⟨Array.mem_toList_iff.mpr member, admits⟩, rfl⟩

def started (edges : Edges α) (a : α) : Search.Position :=
  Search.binarySearch edges.symbols a (·.interval.lower) (Bound.compareToLower compare)

theorem started_not_exact (edges : Edges α) (a : α) : (edges.started a).exact = false := by
  apply Bool.eq_false_iff.mpr
  intro exact
  obtain ⟨inside, level⟩ := Search.binarySearch_exact edges.symbols a (·.interval.lower)
    (Bound.compareToLower compare) exact
  unfold Bound.compareToLower at level
  split at level <;> contradiction

variable [TransOrd α]

/-- The order that the edges are stored in suits the search for a symbol, although it is not the
    order that the search asks for. -/
theorem descending_of_admitting (symbols : Array (SymbolEdge α)) (a : α)
    (ascending : Ascending symbols.toList) :
    Search.Descending (Search.orderAt symbols a (·.interval.lower)
      (Bound.compareToLower compare)) 0 symbols.size := by
  apply Search.descending_of_pairwise
  apply List.Pairwise.imp _ ascending
  intro e f ordered
  simp only [Bound.compareToLower_eq_gt, Bound.compareToLower_eq_lt]
  exact ⟨Bound.admitsAbove_of_isLE e.interval.lower f.interval.lower a ordered,
    Bound.not_admitsAbove_of_isLE e.interval.lower f.interval.lower a ordered⟩

theorem not_contains_of_mem_drop_started (edges : Edges α) (wellFormed : edges.WellFormed) (a : α)
    (e : SymbolEdge α) (late : e ∈ edges.symbols.toList.drop (edges.started a).index) :
    e.interval.contains a = false := by
  obtain ⟨_, later⟩ := Search.binarySearch_not_exact edges.symbols a (·.interval.lower)
    (Bound.compareToLower compare) (descending_of_admitting edges.symbols a wellFormed.ascending)
    (started_not_exact edges a)
  have refused := (Bound.compareToLower_eq_lt _ a).mp (later e late)
  rw [Interval.contains, Interval.containsBy, refused, Bool.false_and]

theorem filter_take_started (edges : Edges α) (wellFormed : edges.WellFormed) (a : α) :
    (edges.symbols.toList.take (edges.started a).index).filter (·.interval.contains a) =
      edges.symbols.toList.filter (·.interval.contains a) := by
  have beyond : (edges.symbols.toList.drop (edges.started a).index).filter
      (·.interval.contains a) = [] := by
    rw [List.filter_eq_nil_iff]
    intro e late
    rw [Bool.not_eq_true]
    exact not_contains_of_mem_drop_started edges wellFormed a e late
  rw [← List.append_nil (List.filter _ (List.take _ _)), ← beyond, ← List.filter_append,
    List.take_append_drop]

theorem targetsOn_eq_scan (edges : Edges α) (wellFormed : edges.WellFormed) (a : α) :
    edges.targetsOn a = (edges.scan a).toList := by
  rw [scan, ← filter_take_started edges wellFormed a]
  rfl

end Edges

theorem Nfa.WellFormed.targetsOn_eq_scan [TransOrd α] {nfa : Nfa α} (wellFormed : nfa.WellFormed)
    (q : State) (a : α) : nfa.targetsOn q a = ((nfa.edges q).scan a).toList :=
  (nfa.edges q).targetsOn_eq_scan (wellFormed.edges_wellFormed q) a

namespace Operation

variable [Alphabet α] [DecidableEq α] [TransOrd α]

/-- Whatever operations an automaton comes from, each of its states leads on a symbol just where its
    stored edges say, and the targets ascend. -/
theorem targetsOn_exact (operations : List (Operation α)) (q : State) (a : α) :
    ((applyAll (∅ : Nfa α) operations).targetsOn q a).Pairwise (fun s t => s.index < t.index) ∧
      ((applyAll (∅ : Nfa α) operations).targetsOn q a).Nodup ∧
      ∀ t, t ∈ (applyAll (∅ : Nfa α) operations).targetsOn q a ↔
        ∃ e ∈ (applyAll (∅ : Nfa α) operations).symbolEdges q,
          e.target = t ∧ e.interval.contains a = true := by
  have wellFormed := wellFormed_applyAll Nfa.wellFormed_empty operations
  rw [wellFormed.targetsOn_eq_scan]
  refine ⟨StateSet.toList_ascending _, StateSet.nodup_toList _, ?_⟩
  intro t
  rw [TreeSet.mem_toList, Edges.mem_scan, Nfa.symbolEdges]

def mixedEdits : List (Operation Letter) :=
  [addTransition ⟨⟨0⟩, .symbol ⟨.exclusive .B, .exclusive .E⟩, ⟨6⟩⟩,
    addTransition ⟨⟨0⟩, .symbol ⟨.inclusive .B, .inclusive .D⟩, ⟨4⟩⟩,
    addTransition ⟨⟨0⟩, .symbol ⟨.inclusive .D, .inclusive .A⟩, ⟨5⟩⟩,
    addTransition ⟨⟨0⟩, .symbol ⟨.inclusive .B, .exclusive .B⟩, ⟨5⟩⟩,
    addTransition ⟨⟨0⟩, .symbol ⟨.unbounded, .inclusive .C⟩, ⟨9⟩⟩,
    addTransition ⟨⟨0⟩, .symbol ⟨.inclusive .B, .inclusive .B⟩, ⟨2⟩⟩,
    addTransition ⟨⟨0⟩, .symbol ⟨.inclusive .B, .unbounded⟩, ⟨8⟩⟩,
    addTransition ⟨⟨0⟩, .symbol ⟨.unbounded, .unbounded⟩, ⟨4⟩⟩,
    addTransition ⟨⟨7⟩, .symbol ⟨.unbounded, .unbounded⟩, ⟨0⟩⟩,
    removeStates [⟨7⟩, ⟨8⟩]]

theorem targetsOn_mixedEdits :
    (applyAll ∅ mixedEdits).targetsOn ⟨0⟩ .B = [⟨2⟩, ⟨4⟩, ⟨9⟩] ∧
      (∀ t : State, t ∈ [⟨2⟩, ⟨4⟩, ⟨9⟩] ↔ ∃ e ∈ (applyAll ∅ mixedEdits).symbolEdges ⟨0⟩,
        e.target = t ∧ e.interval.contains .B = true) ∧
      ¬∃ e ∈ (applyAll ∅ mixedEdits).symbolEdges ⟨7⟩,
        e.target = ⟨0⟩ ∧ e.interval.contains .B = true := by
  have found : (applyAll ∅ mixedEdits).targetsOn ⟨0⟩ .B = [⟨2⟩, ⟨4⟩, ⟨9⟩] := by cbv
  have removed : (applyAll ∅ mixedEdits).targetsOn ⟨7⟩ .B = [] := by cbv
  obtain ⟨_, _, exact⟩ := targetsOn_exact mixedEdits ⟨0⟩ .B
  obtain ⟨_, _, nowhere⟩ := targetsOn_exact mixedEdits ⟨7⟩ .B
  rw [found] at exact
  rw [← nowhere, removed]
  exact ⟨found, exact, List.not_mem_nil⟩

end Operation

end IntervalAutomata
