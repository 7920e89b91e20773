import IntervalAutomata.Alphabet.Letter
import IntervalAutomata.Proofs.Nfa.Transitions
import IntervalAutomata.Proofs.Regex.StateCount

namespace IntervalAutomata

open Std

universe u

variable {α : Type u}

namespace Nfa

structure GrownBy (nfa : Nfa α) (count : Nat) (next : Nfa α) : Prop where
  size : next.size = nfa.size + count
  slots : next.slots.size = nfa.slots.size + count
  states : next.states =
    nfa.states ++ (List.range count).map fun offset => ⟨nfa.slots.size + offset⟩

theorem states_eq_append {nfa next : Nfa α} {count : Nat}
    (slots : next.slots.size = nfa.slots.size + count)
    (block : ∀ q, next.contains q = true ↔
      nfa.contains q = true ∨ q.InBlock nfa.slots.size count) :
    next.states = nfa.states ++ (List.range count).map fun offset => ⟨nfa.slots.size + offset⟩ := by
  unfold states
  rw [slots, List.range_add, List.map_append, List.filter_append, List.map_map]
  congr 1
  -- the slots that were there keep their states, and each new one holds one
  · apply List.filter_congr
    intro q member
    obtain ⟨index, old, rfl⟩ := List.mem_map.mp member
    have outside : ¬State.InBlock ⟨index⟩ nfa.slots.size count :=
      State.not_inBlock_of_lt (List.mem_range.mp old)
    apply Bool.eq_iff_iff.mpr
    rw [block, or_iff_left outside]
  · apply List.filter_eq_self.mpr
    intro q member
    obtain ⟨offset, new, rfl⟩ := List.mem_map.mp member
    have inside := Nat.add_lt_add_left (List.mem_range.mp new) nfa.slots.size
    exact (block _).mpr (.inr ⟨Nat.le_add_right _ offset, inside⟩)

theorem withEnds_of_live (nfa : Nfa α) (t : Transition α) (source : nfa.contains t.source = true)
    (target : nfa.contains t.target = true) : nfa.withEnds t = nfa := by
  have kept : nfa.ensure t.target = nfa := if_pos target
  rw [withEnds, kept]
  exact if_pos source

variable [Ord α] [DecidableEq α]

theorem size_slots_addTransition (nfa : Nfa α) (t : Transition α)
    (source : nfa.contains t.source = true) (target : nfa.contains t.target = true) :
    (nfa.addTransition t).1.slots.size = nfa.slots.size := by
  rw [addTransition_eq, withEnds_of_live nfa t source target]
  split
  · exact Array.size_setIfInBounds
  · rfl

theorem size_slots_addTransitions {nfa : Nfa α} {ts : List (Transition α)}
    (live : ∀ t ∈ ts, nfa.contains t.source = true ∧ nfa.contains t.target = true) :
    (nfa.addTransitions ts).slots.size = nfa.slots.size := by
  apply addTransitions_of_live (fun next => next.slots.size = nfa.slots.size) live rfl
  intro t _ next source target same
  rw [size_slots_addTransition next t source target, same]

theorem size_slots_addFragment (nfa : Nfa α) (f : Fragment α) (within : f.Within nfa.slots.size) :
    (nfa.addFragment f).slots.size = nfa.slots.size + f.size := by
  rw [addFragment_eq, size_slots_addTransitions (live_newStates within.ends)]
  simp [Nfa.newStates]

namespace WellFormed

variable [TransOrd α] {nfa : Nfa α} (wellFormed : nfa.WellFormed)
include wellFormed

theorem grownBy_addFragment (f : Fragment α) (within : f.Within nfa.slots.size) :
    nfa.GrownBy f.size (nfa.addFragment f) := by
  have slots := nfa.size_slots_addFragment f within
  have states := states_eq_append slots (nfa.contains_addFragment f within)
  refine ⟨?_, slots, states⟩
  have total := congrArg List.length states
  rw [List.length_append, List.length_map, List.length_range, wellFormed.length_states_eq,
    (wellFormed.addFragment f).length_states_eq] at total
  exact total

end WellFormed

end Nfa

variable [Ord α] [Alphabet α] [DecidableEq α]

namespace Compiler

omit [DecidableEq α] in
theorem allowance_eq_ok (compiler : Compiler) {regex : Regex α} {count : Nat}
    (counted : regex.stateCount? = some count) (fits : count ≤ compiler.limit) :
    compiler.allowance regex = .ok count := by
  simp only [allowance, counted, if_pos fits]

omit [DecidableEq α] in
theorem counted_of_allowance {compiler : Compiler} {regex : Regex α} {count : Nat}
    (allowed : compiler.allowance regex = .ok count) :
    regex.stateCount? = some count ∧ count ≤ compiler.limit := by
  unfold allowance at allowed
  split at allowed
  · rename_i counted
    split at allowed
    · rename_i fits
      rw [← Except.ok.inj allowed]
      exact ⟨counted, fits⟩
    · contradiction
  · contradiction

omit [DecidableEq α] in
theorem allowance_eq_error (compiler : Compiler) {regex : Regex α}
    (above : ∀ count, regex.stateCount? = some count → compiler.limit < count) :
    compiler.allowance regex = .error (.stateLimitExceeded compiler.limit) := by
  cases counted : regex.stateCount? with
  | none => simp only [allowance, counted]
  | some count => simp only [allowance, counted, if_neg (Nat.not_le_of_lt (above count counted))]

theorem construct_of_allowance {compiler : Compiler} {regex : Regex α} {count : Nat}
    (allowed : compiler.allowance regex = .ok count) (nfa : Nfa α) :
    compiler.construct regex nfa = .ok ⟨nfa.addFragment (.ofCore nfa.slots.size regex.desugar),
      (Fragment.ofCore nfa.slots.size regex.desugar).start,
      (Fragment.ofCore nfa.slots.size regex.desugar).stop⟩ := by
  simp only [construct, extend_of_allowed allowed]

theorem construct_of_refused {compiler : Compiler} {regex : Regex α} {error : Error α}
    (refused : compiler.allowance regex = .error error) (nfa : Nfa α) :
    compiler.construct regex nfa = .error error := by
  simp only [construct, extend_of_refused refused]

theorem allowance_of_construct {compiler : Compiler} {regex : Regex α} {nfa : Nfa α}
    {built : Construction α} (constructed : compiler.construct regex nfa = .ok built) :
    ∃ count, compiler.allowance regex = .ok count := by
  cases allowed : compiler.allowance regex with
  | ok count => exact ⟨count, rfl⟩
  | error e =>
    rw [construct_of_refused allowed] at constructed
    contradiction

theorem construct_eq_ok {compiler : Compiler} {regex : Regex α} {nfa : Nfa α}
    {built : Construction α} (constructed : compiler.construct regex nfa = .ok built) :
    built = ⟨nfa.addFragment (.ofCore nfa.slots.size regex.desugar),
      (Fragment.ofCore nfa.slots.size regex.desugar).start,
      (Fragment.ofCore nfa.slots.size regex.desugar).stop⟩ := by
  obtain ⟨count, allowed⟩ := allowance_of_construct constructed
  rw [construct_of_allowance allowed] at constructed
  exact (Except.ok.inj constructed).symm

end Compiler

namespace Operation

variable [TransOrd α]

/-- A construction adds the states that were counted if the limit allows so many; else it changes
    nothing. -/
theorem apply_construct_exact (operations : List (Operation α)) (compiler : Compiler)
    (regex : Regex α) :
    (∀ count, regex.stateCount? = some count → count ≤ compiler.limit →
      ∃ next start stop,
        (construct compiler regex).apply (applyAll ∅ operations) = (next, .fragment start stop) ∧
          (applyAll ∅ operations).GrownBy count next) ∧
    ((∀ count, regex.stateCount? = some count → compiler.limit < count) →
      (construct compiler regex).apply (applyAll ∅ operations) =
        (applyAll ∅ operations, .refused (.stateLimitExceeded compiler.limit))) := by
  have wellFormed := wellFormed_applyAll Nfa.wellFormed_empty operations
  constructor
  · intro count counted fits
    have allowed := compiler.allowance_eq_ok counted fits
    refine ⟨_, _, _, apply_construct_of_ok _ compiler regex count allowed, ?_⟩
    have grown := wellFormed.grownBy_addFragment _
      (Fragment.within_ofCore (applyAll ∅ operations).slots.size regex.desugar)
    rw [Fragment.size_ofCore, Regex.stateCount_of_counted counted] at grown
    exact grown
  · intro above
    exact apply_construct_of_error _ compiler regex _ (compiler.allowance_eq_error above)

def gapEdits : List (Operation Letter) :=
  [addTransition ⟨⟨5⟩, .epsilon, ⟨2⟩⟩, addAccepting ⟨3⟩, removeStates [⟨3⟩]]

def rawRegex : Regex Letter :=
  .alt (.repeated (.string [.A, .B]) 3 (some 1)) (.range .E .B)

theorem apply_construct_rawRegex :
    rawRegex.stateCount? = some 16 ∧
      (∃ next start stop,
        (construct ⟨some 16⟩ rawRegex).apply (applyAll ∅ gapEdits) = (next, .fragment start stop) ∧
          (applyAll ∅ gapEdits).GrownBy 16 next) ∧
      (applyAll ∅ gapEdits).states = [⟨2⟩, ⟨5⟩] ∧ (applyAll ∅ gapEdits).slots.size = 6 ∧
      (construct ⟨some 15⟩ rawRegex).apply (applyAll ∅ gapEdits) =
        (applyAll ∅ gapEdits, .refused (.stateLimitExceeded 15)) := by
  have counted : rawRegex.stateCount? = some 16 := by decide
  refine ⟨counted, (apply_construct_exact gapEdits ⟨some 16⟩ rawRegex).1 16 counted (by decide),
    by decide +kernel, by decide +kernel,
    (apply_construct_exact gapEdits ⟨some 15⟩ rawRegex).2 ?_⟩
  intro count other
  rw [counted] at other
  rw [← Option.some.inj other]
  decide

end Operation

namespace Regex

theorem construct_refused_iff (regex : Regex α) (nfa : Nfa α) :
    (∃ error, regex.construct nfa = .error error) ↔ regex.stateCount? = none := by
  unfold construct
  constructor
  · intro refused
    cases given : regex.stateCount? with
    | none => rfl
    | some count =>
      have fits := Size.fit?_eq_some_iff.mp (fit?_of_counted given)
      have allowed := Compiler.allowance_eq_ok {} given (fits.2 ▸ fits.1)
      rw [Compiler.construct_of_allowance allowed] at refused
      obtain ⟨_, absurd⟩ := refused
      contradiction
  · intro none
    have refused : Compiler.allowance {} regex = _ := Compiler.allowance_eq_error {} (by simp [none])
    exact ⟨_, Compiler.construct_of_refused refused nfa⟩

/-- The count is the number of states, and count and construction are refused just if the number does
    not fit in a size. Only an expression that overshoots is refused whether its states fit or not,
    and it has so many that four more would not fit. -/
theorem counted_or_near_greatest (regex : Regex α) (nfa : Nfa α) :
    (¬regex.Overshoots ∧
      regex.stateCount? = Size.fit? (Fragment.ofCore nfa.slots.size regex.desugar).size ∧
      ((∃ error, regex.construct nfa = .error error) ↔
        Size.greatest < (Fragment.ofCore nfa.slots.size regex.desugar).size)) ∨
    (regex.Overshoots ∧ regex.stateCount? = none ∧ (∃ error, regex.construct nfa = .error error) ∧
      Size.greatest < (Fragment.ofCore nfa.slots.size regex.desugar).size + 4) := by
  rw [construct_refused_iff, Fragment.size_ofCore]
  rcases regex.counted with ⟨sound, told⟩ | ⟨overshoots, refused⟩
  · left
    rw [told, Size.fit?_eq_none_iff]
    exact ⟨sound, rfl, Iff.rfl⟩
  · have near := regex.near_greatest_of_overshoots overshoots
    exact .inr ⟨overshoots, refused, refused, near⟩

/-- One copy of a part that takes the greatest even size. -/
def oneGreatest : Regex Letter :=
  .repeated (.repeated .empty (2 ^ 63 - 1) (some (2 ^ 63 - 1))) 1 (some 1)

/-- Its states fit, but it is refused: on the way four is added to the count of the part, only to be
    multiplied by zero. -/
theorem refused_oneGreatest :
    (Fragment.ofCore 0 oneGreatest.desugar).size = 2 ^ 64 - 2 ∧ 2 ^ 64 - 2 ≤ Size.greatest ∧
      oneGreatest.stateCount? = none ∧
      oneGreatest.construct ∅ = .error (.stateLimitExceeded Size.greatest) := by
  have size : (Fragment.ofCore 0 oneGreatest.desugar).size = 2 ^ 64 - 2 := by
    simp [Fragment.size_ofCore, oneGreatest, desugar, Core.stateCount_repeated, Core.stateCount]
  have none : oneGreatest.stateCount? = none := by decide
  have refused : Compiler.allowance {} oneGreatest = _ :=
    Compiler.allowance_eq_error {} (by simp [none])
  exact ⟨size, by decide, none, Compiler.construct_of_refused refused ∅⟩

end Regex

end IntervalAutomata
