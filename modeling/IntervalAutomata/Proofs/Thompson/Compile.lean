import IntervalAutomata.Proofs.Nfa.Run
import IntervalAutomata.Proofs.Thompson.Allocation
import IntervalAutomata.Proofs.Thompson.Language
import Mathlib

namespace IntervalAutomata

open Std

universe u

variable {α : Type u} [Ord α] [DecidableEq α]

namespace Fragment

def toNfa (f : Fragment α) : Nfa α :=
  ((((∅ : Nfa α).addFragment f).setInitial f.start).addAccepting f.stop).1

theorem initial_toNfa (f : Fragment α) : f.toNfa.initial = some f.start :=
  Nfa.initial_addAccepting _ f.stop

theorem mem_accepting_toNfa (f : Fragment α) (q : State) : q ∈ f.toNfa.accepting ↔ q = f.stop := by
  rw [toNfa, Nfa.mem_accepting_addAccepting, Nfa.setInitial, Nfa.accepting_ensure,
    (Nfa.WellFormed.marks_addFragment ∅ f).2]
  simp

theorem acceptingStates_toNfa (f : Fragment α) : f.toNfa.acceptingStates = [f.stop] := by
  apply StateSet.eq_of_ascending (StateSet.toList_ascending _) (List.pairwise_singleton _ _)
  intro q
  rw [TreeSet.mem_toList, mem_accepting_toNfa, List.mem_singleton]

theorem contains_toNfa {f : Fragment α} (within : f.Within 0) (q : State) :
    f.toNfa.contains q = true ↔ q.InBlock 0 f.size := by
  have added := Nfa.contains_addFragment ∅ f within q
  rw [toNfa, Nfa.contains_addAccepting, Nfa.contains_setInitial, added]
  constructor
  · rintro (((none | inside) | rfl) | rfl)
    · contradiction
    · exact inside
    · exact within.start
    · exact within.stop
  · exact fun inside => .inl (.inl (.inr inside))

variable [TransOrd α]

theorem wellFormed_toNfa (f : Fragment α) : f.toNfa.WellFormed :=
  ((Nfa.wellFormed_empty.addFragment f).setInitial f.start).addAccepting f.stop

theorem mem_transitions_toNfa (f : Fragment α) (t : Transition α) :
    t ∈ f.toNfa.transitions ↔ t ∈ f.transitions := by
  rw [toNfa, Nfa.mem_transitions_addAccepting, Nfa.mem_transitions_setInitial,
    Nfa.wellFormed_empty.mem_transitions_addFragment]
  simp

theorem Reads.accepts_iff {f : Fragment α} {base : Nat} {l : Language α}
    (reads : f.Reads base l) (word : List α) : f.toNfa.accepts word = true ↔ word ∈ l := by
  rw [f.wellFormed_toNfa.accepts_iff_path, initial_toNfa]
  simp only [Option.mem_some_iff, exists_eq_left', mem_accepting_toNfa, exists_eq_left,
    Path.congr f.mem_transitions_toNfa, reads.path_iff]

end Fragment

namespace Compiler

variable [Alphabet α]

theorem compile_eq_ok {compiler : Compiler} {regex : Regex α} {nfa : Nfa α}
    (compiled : compiler.compile regex = .ok nfa) :
    nfa = (Fragment.ofCore 0 regex.desugar).toNfa := by
  unfold compile at compiled
  cases constructed : compiler.construct regex ∅ with
  | error e =>
    rw [constructed] at compiled
    contradiction
  | ok built =>
    rw [constructed, construct_eq_ok constructed] at compiled
    exact (Except.ok.inj compiled).symm

/-- A compiled automaton accepts the words of the expression and no others. -/
theorem accepts_compile_iff [LawfulAlphabet α] (compiler : Compiler) (regex : Regex α)
    (ordered : regex.Ordered) (nfa : Nfa α) (compiled : compiler.compile regex = .ok nfa)
    (word : List α) : nfa.accepts word = true ↔ word ∈ regex.language := by
  have reads := Fragment.reads_ofCore 0 regex.desugar
  rw [regex.language_desugar ordered] at reads
  rw [compile_eq_ok compiled]
  exact reads.accepts_iff word

def lettersThenBs : Regex Letter :=
  .seq (.star (.oneOf true [⟨.B, .C⟩])) (.repeated (.literal .B) 1 (some 2))

theorem accepts_lettersThenBs :
    ({} : Compiler).compile lettersThenBs =
        .ok (Fragment.ofCore 0 lettersThenBs.desugar).toNfa ∧
      (Fragment.ofCore 0 lettersThenBs.desugar).toNfa.accepts [.E, .B, .B] = true ∧
      [.E, .B, .B] ∈ lettersThenBs.language ∧ [.E, .C, .B] ∉ lettersThenBs.language := by
  have ordered : lettersThenBs.Ordered := by
    simp [lettersThenBs, Regex.Ordered, Regex.EveryClass, Span.Ordered]
    decide
  have compiled : ({} : Compiler).compile lettersThenBs =
      .ok (Fragment.ofCore 0 lettersThenBs.desugar).toNfa := by cbv
  have accepted : (Fragment.ofCore 0 lettersThenBs.desugar).toNfa.accepts [.E, .B, .B] = true := by
    cbv
  have refused : (Fragment.ofCore 0 lettersThenBs.desugar).toNfa.accepts [.E, .C, .B] = false := by
    cbv
  have exact := accepts_compile_iff {} lettersThenBs ordered _ compiled
  refine ⟨compiled, accepted, (exact _).mp accepted, ?_⟩
  rw [← exact, refused]
  exact Bool.false_ne_true

end Compiler

end IntervalAutomata
