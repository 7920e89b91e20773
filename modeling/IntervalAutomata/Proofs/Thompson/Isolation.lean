import IntervalAutomata.Proofs.Nfa.Run
import IntervalAutomata.Proofs.Thompson.Allocation
import Mathlib

namespace IntervalAutomata

open Std

universe u

variable {α : Type u}

theorem Fragment.start_ne_stop [Ord α] (base : Nat) (core : Core α) :
    (ofCore base core).start ≠ (ofCore base core).stop := by
  have apart : State.mk base ≠ ⟨base + 1⟩ := by
    intro same
    injection same
    omega
  cases core with
  | empty => exact apart
  | nothing => exact apart
  | literal a => exact apart
  | range a b => exact apart
  | seq first second =>
    have front := (within_ofCore base first).start
    have back := (within_ofCore (base + (ofCore base first).size) second).stop
    exact front.ne back
  | alt first second => exact apart
  | star inner => exact apart

namespace Nfa

def Gains (nfa next : Nfa α) (q : State) : Prop :=
  next.contains q = true ∧ nfa.contains q = false

structure KeptBeside [Ord α] (nfa next : Nfa α) : Prop where
  edges : ∀ q, nfa.contains q = true → next.edges? q = nfa.edges? q
  initial : next.initial = nfa.initial
  accepting : next.accepting = nfa.accepting
  added : ∀ t ∈ next.transitions, t ∉ nfa.transitions →
    nfa.Gains next t.source ∧ nfa.Gains next t.target
  unlinked : ∀ t ∈ next.transitions, nfa.contains t.source = nfa.contains t.target
  accepts : ∀ word, next.accepts word = nfa.accepts word

variable [Ord α] [DecidableEq α]

theorem gains_addFragment {nfa : Nfa α} {f : Fragment α} (within : f.Within nfa.slots.size)
    {q : State} (inside : q.InBlock nfa.slots.size f.size) : nfa.Gains (nfa.addFragment f) q := by
  refine ⟨(nfa.contains_addFragment f within q).mpr (.inr inside), Bool.eq_false_iff.mpr ?_⟩
  intro old
  exact State.not_inBlock_of_lt (index_lt_of_contains nfa q old) inside

theorem edges?_addTransition (nfa : Nfa α) (t : Transition α) (q : State)
    (source : nfa.contains t.source = true) (target : nfa.contains t.target = true)
    (foreign : q ≠ t.source) : (nfa.addTransition t).1.edges? q = nfa.edges? q := by
  rw [addTransition_eq, withEnds_of_live nfa t source target]
  split
  · rw [edges?_setEdges nfa t.source q _ source, if_neg foreign]
  · rfl

theorem edges?_addFragment (nfa : Nfa α) (f : Fragment α) (within : f.Within nfa.slots.size)
    (q : State) (old : q.index < nfa.slots.size) :
    (nfa.addFragment f).edges? q = nfa.edges? q := by
  have foreign : ¬q.InBlock nfa.slots.size f.size := State.not_inBlock_of_lt old
  rw [addFragment_eq]
  apply addTransitions_of_live (fun next => next.edges? q = nfa.edges? q)
    (live_newStates within.ends)
  · rw [edges?_newStates]
    exact if_neg foreign
  · intro t member next source target same
    rw [edges?_addTransition next t q source target, same]
    intro own
    rw [own] at foreign
    exact foreign (within.ends t member).1

namespace WellFormed

variable [TransOrd α] {nfa : Nfa α} (wellFormed : nfa.WellFormed)
include wellFormed

theorem mem_transitions_addFragment_cases {f : Fragment α} (within : f.Within nfa.slots.size)
    {t : Transition α} (member : t ∈ (nfa.addFragment f).transitions) :
    (t ∈ nfa.transitions ∧ nfa.contains t.source = true ∧ nfa.contains t.target = true) ∨
      (nfa.Gains (nfa.addFragment f) t.source ∧ nfa.Gains (nfa.addFragment f) t.target) := by
  rcases (wellFormed.mem_transitions_addFragment f t).mp member with old | new
  · exact .inl ⟨old, wellFormed.ends_live _ _ _ ((mem_transitions nfa t).mp old)⟩
  · have ends := within.ends t new
    exact .inr ⟨gains_addFragment within ends.1, gains_addFragment within ends.2⟩

theorem accepts_addFragment (f : Fragment α) (within : f.Within nfa.slots.size) (word : List α) :
    (nfa.addFragment f).accepts word = nfa.accepts word := by
  obtain ⟨initial, accepting⟩ := marks_addFragment nfa f
  -- from an old state only old transitions lead on, so a run never gets to the new states
  have closed : ∀ t ∈ (nfa.addFragment f).transitions, nfa.contains t.source = true →
      t ∈ nfa.transitions ∧ nfa.contains t.target = true := by
    intro t member known
    rcases wellFormed.mem_transitions_addFragment_cases within member with old | new
    · exact ⟨old.1, old.2.2⟩
    · rw [new.1.2] at known
      contradiction
  apply Bool.eq_iff_iff.mpr
  rw [(wellFormed.addFragment f).accepts_iff_path, wellFormed.accepts_iff_path, initial, accepting]
  constructor
  · intro h
    obtain ⟨p, start, q, marked, path⟩ := h
    exact ⟨p, start, q, marked, path.of_closed (fun r => nfa.contains r = true) closed
      (wellFormed.initial_live p start)⟩
  · intro h
    obtain ⟨p, start, q, marked, path⟩ := h
    exact ⟨p, start, q, marked, path.mono fun t member =>
      (wellFormed.mem_transitions_addFragment f t).mpr (.inl member)⟩

theorem keptBeside_addFragment (f : Fragment α) (within : f.Within nfa.slots.size) :
    nfa.KeptBeside (nfa.addFragment f) where
  edges q known := nfa.edges?_addFragment f within q (index_lt_of_contains nfa q known)
  initial := (marks_addFragment nfa f).1
  accepting := (marks_addFragment nfa f).2
  added t member new :=
    (wellFormed.mem_transitions_addFragment_cases within member).resolve_left fun old => new old.1
  unlinked t member := by
    rcases wellFormed.mem_transitions_addFragment_cases within member with old | new
    · rw [old.2.1, old.2.2]
    · rw [new.1.2, new.2.2]
  accepts := wellFormed.accepts_addFragment f within

end WellFormed

end Nfa

namespace Operation

variable [Ord α] [Alphabet α] [DecidableEq α] [TransOrd α]

/-- A construction leaves all that was there as it was, and its start and its stop are two of the
    states it adds. -/
theorem keptBeside_construct (operations : List (Operation α)) (compiler : Compiler)
    (regex : Regex α) (built : Construction α)
    (constructed : compiler.construct regex (applyAll ∅ operations) = .ok built) :
    (applyAll ∅ operations).KeptBeside built.nfa ∧ built.start ≠ built.stop ∧
      (applyAll ∅ operations).Gains built.nfa built.start ∧
      (applyAll ∅ operations).Gains built.nfa built.stop := by
  have wellFormed := wellFormed_applyAll Nfa.wellFormed_empty operations
  have within := Fragment.within_ofCore (applyAll ∅ operations).slots.size regex.desugar
  rw [Compiler.construct_eq_ok constructed]
  exact ⟨wellFormed.keptBeside_addFragment _ within, Fragment.start_ne_stop _ _,
    Nfa.gains_addFragment within within.start, Nfa.gains_addFragment within within.stop⟩

def strayEdits : List (Operation Letter) :=
  [setInitial ⟨4⟩, addTransition ⟨⟨4⟩, .symbol (.closed .A .C), ⟨1⟩⟩, addAccepting ⟨1⟩,
    addAccepting ⟨3⟩, removeStates [⟨3⟩]]

theorem keptBeside_strayStates :
    ∃ built, ({} : Compiler).construct (.plus (.literal .D)) (applyAll ∅ strayEdits) = .ok built ∧
      (applyAll ∅ strayEdits).KeptBeside built.nfa ∧ built.start = ⟨5⟩ ∧ built.stop = ⟨8⟩ ∧
      built.nfa.states = [⟨1⟩, ⟨4⟩, ⟨5⟩, ⟨6⟩, ⟨7⟩, ⟨8⟩, ⟨9⟩, ⟨10⟩] ∧
      built.nfa.accepts [.B] = true ∧ built.nfa.accepts [.D] = false := by
  have constructed : ({} : Compiler).construct (.plus (.literal .D)) (applyAll ∅ strayEdits) =
      .ok ⟨(applyAll ∅ strayEdits).addFragment (.ofCore 5 (Regex.plus (.literal .D)).desugar),
        ⟨5⟩, ⟨8⟩⟩ := by cbv
  obtain ⟨kept, _⟩ := keptBeside_construct strayEdits {} (.plus (.literal .D)) _ constructed
  refine ⟨_, constructed, kept, rfl, rfl, by cbv, ?_, ?_⟩
  · rw [kept.accepts]
    cbv
  · rw [kept.accepts]
    cbv

end Operation

end IntervalAutomata
