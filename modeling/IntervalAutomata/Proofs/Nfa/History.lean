import IntervalAutomata.Proofs.Nfa.Prune
import IntervalAutomata.Proofs.Thompson.Allocation
import Mathlib

namespace IntervalAutomata

open Std

universe u

variable {α : Type u}

namespace Nfa

/-- Whether no transition enters or leaves a state and no mark is on it. -/
structure Blank (nfa : Nfa α) (q : State) : Prop where
  transitions : ∀ t ∈ nfa.transitions, t.source ≠ q ∧ t.target ≠ q
  initial : nfa.initial ≠ some q
  accepting : q ∉ nfa.accepting

theorem WellFormed.blank [Ord α] {nfa : Nfa α} {q : State} (wellFormed : nfa.WellFormed)
    (missing : nfa.contains q = false) : nfa.Blank q where
  transitions t member := by
    obtain ⟨source, target⟩ := wellFormed.ends_of_mem member
    refine ⟨?_, ?_⟩ <;> rintro rfl <;> simp_all
  initial marked := by
    have live := wellFormed.initial_live q marked
    simp_all
  accepting marked := by
    have live := wellFormed.accepting_live q marked
    simp_all

theorem contains_newState (nfa : Nfa α) : nfa.newState.1.contains nfa.newState.2 = true := by
  rw [newState_eq, contains_newStates]
  exact .inr ⟨Nat.le_refl _, Nat.lt_succ_self _⟩

theorem blank_newState [Ord α] {nfa : Nfa α} (wellFormed : nfa.WellFormed) :
    nfa.newState.1.Blank nfa.newState.2 := by
  have fresh : nfa.contains nfa.newState.2 = false := by
    apply Bool.eq_false_iff.mpr
    intro live
    exact Nat.lt_irrefl _ (index_lt_of_contains nfa _ live)
  obtain ⟨transitions, initial, accepting⟩ := wellFormed.blank fresh
  refine ⟨fun t member => transitions t ?_, initial, accepting⟩
  rwa [newState_eq, mem_transitions_of_edges_eq (edges_newStates nfa 1)] at member

theorem size_slots_ensure_le (nfa : Nfa α) (q : State) :
    nfa.slots.size ≤ (nfa.ensure q).slots.size := by
  unfold ensure
  split
  · exact Nat.le_refl _
  · simp

theorem size_slots_addTransition_le [Ord α] [DecidableEq α] (nfa : Nfa α) (t : Transition α) :
    nfa.slots.size ≤ (nfa.addTransition t).1.slots.size := by
  have ends : nfa.slots.size ≤ (nfa.withEnds t).slots.size :=
    Nat.le_trans (size_slots_ensure_le nfa t.target) (size_slots_ensure_le _ t.source)
  rw [addTransition_eq]
  split
  · simpa [setEdges] using ends
  · exact ends

theorem size_slots_removeTransition [Ord α] [DecidableEq α] (nfa : Nfa α) (t : Transition α) :
    (nfa.removeTransition t).1.slots.size = nfa.slots.size := by
  unfold removeTransition
  split
  · exact Array.size_setIfInBounds
  · rfl

end Nfa

namespace Operation

/-- Whether an operation names a state as one that the automaton has to hold: as the initial or an
    accepting state, or as an end of a transition. -/
def Revives (q : State) : Operation α → Prop
  | setInitial p | addAccepting p => p = q
  | addTransition t => t.source = q ∨ t.target = q
  | newState | removeAccepting _ | removeTransition _ | removeStates _ | pruneFrom _ | prune
  | construct _ _ => False

/-- What an operation can add: states that it names, states on new numbers with the transitions
    between them, and a transition or a mark that it is there to add. No slot goes. -/
structure Adds (operation : Operation α) (nfa next : Nfa α) : Prop where
  slots : nfa.slots.size ≤ next.slots.size
  states : ∀ q, next.contains q = true →
    nfa.contains q = true ∨ operation.Revives q ∨ nfa.slots.size ≤ q.index
  transitions : ∀ t ∈ next.transitions,
    t ∈ nfa.transitions ∨ operation = addTransition t ∨
      (nfa.slots.size ≤ t.source.index ∧ nfa.slots.size ≤ t.target.index)
  initial : ∀ q, next.initial = some q → nfa.initial = some q ∨ operation = setInitial q
  accepting : ∀ q ∈ next.accepting, q ∈ nfa.accepting ∨ operation = addAccepting q

theorem Adds.of_fewer (operation : Operation α) {nfa next : Nfa α}
    (slots : next.slots.size = nfa.slots.size)
    (states : ∀ q, next.contains q = true → nfa.contains q = true)
    (transitions : ∀ t ∈ next.transitions, t ∈ nfa.transitions)
    (initial : ∀ q, next.initial = some q → nfa.initial = some q)
    (accepting : ∀ q ∈ next.accepting, q ∈ nfa.accepting) : operation.Adds nfa next where
  slots := Nat.le_of_eq slots.symm
  states q live := .inl (states q live)
  transitions t member := .inl (transitions t member)
  initial q marked := .inl (initial q marked)
  accepting q marked := .inl (accepting q marked)

theorem Adds.refl (operation : Operation α) (nfa : Nfa α) : operation.Adds nfa nfa :=
  .of_fewer operation rfl (fun _ => id) (fun _ => id) (fun _ => id) (fun _ => id)

theorem Adds.removeStates (operation : Operation α) (nfa : Nfa α) (doomed : StateSet) :
    operation.Adds nfa (nfa.removeStates doomed) := by
  refine .of_fewer operation Array.size_mapIdx ?_ ?_ ?_ ?_
  · exact fun q live => ((nfa.contains_removeStates doomed q).mp live).1
  · exact fun t member => ((nfa.mem_transitions_removeStates doomed t).mp member).1
  · exact fun q marked => (Option.mem_filter_iff.mp marked).1
  · exact fun q marked => ((StateSet.mem_filter _ _ q).mp marked).1

theorem Adds.pruneFrom (operation : Operation α) (nfa : Nfa α) (seed : State) :
    operation.Adds nfa (nfa.pruneFrom seed).1 := by
  rcases nfa.pruneFrom_cases seed with idle | removing
  · rw [idle.1]
    exact .refl operation nfa
  · rw [removing.1]
    exact .removeStates operation nfa _

theorem Adds.newState (nfa : Nfa α) : Adds .newState nfa nfa.newState.1 := by
  rw [nfa.newState_eq]
  refine ⟨by simp [Nfa.newStates], fun q live => ?_, fun t member => .inl ?_,
    fun q marked => .inl marked, fun q marked => .inl marked⟩
  · rcases (nfa.contains_newStates 1 q).mp live with old | new
    · exact .inl old
    · exact .inr (.inr new.1)
  · exact (Nfa.mem_transitions_of_edges_eq (nfa.edges_newStates 1) t).mp member

theorem Adds.setInitial (nfa : Nfa α) (p : State) :
    Adds (.setInitial p) nfa (nfa.setInitial p) := by
  refine ⟨nfa.size_slots_ensure_le p, fun q live => ?_, fun t member => .inl ?_,
    fun q marked => .inr ?_, fun q marked => .inl ?_⟩
  · rcases (nfa.contains_setInitial p q).mp live with old | rfl
    · exact .inl old
    · exact .inr (.inl rfl)
  · exact (nfa.mem_transitions_setInitial p t).mp member
  · exact congrArg Operation.setInitial (Option.some.inj marked)
  · rwa [← nfa.accepting_ensure p]

theorem Adds.addAccepting (nfa : Nfa α) (p : State) :
    Adds (.addAccepting p) nfa (nfa.addAccepting p).1 := by
  refine ⟨nfa.size_slots_ensure_le p, fun q live => ?_, fun t member => .inl ?_,
    fun q marked => .inl ?_, fun q marked => ?_⟩
  · rcases (nfa.contains_addAccepting p q).mp live with old | rfl
    · exact .inl old
    · exact .inr (.inl rfl)
  · exact (nfa.mem_transitions_addAccepting p t).mp member
  · rwa [← nfa.initial_addAccepting p]
  · rcases (nfa.mem_accepting_addAccepting p q).mp marked with rfl | old
    · exact .inr rfl
    · exact .inl old

section

variable [Ord α] [DecidableEq α] [TransOrd α] {nfa : Nfa α} (wellFormed : nfa.WellFormed)
include wellFormed

theorem Adds.addTransition (t : Transition α) :
    Adds (.addTransition t) nfa (nfa.addTransition t).1 := by
  obtain ⟨initial, accepting⟩ := Nfa.WellFormed.marks_addTransition nfa t
  refine ⟨nfa.size_slots_addTransition_le t, fun q live => ?_, fun s member => ?_,
    fun q marked => .inl (initial.symm.trans marked), fun q marked => .inl (accepting ▸ marked)⟩
  · rcases (nfa.contains_addTransition t q).mp live with old | rfl | rfl
    · exact .inl old
    · exact .inr (.inl (.inl rfl))
    · exact .inr (.inl (.inr rfl))
  · rcases (wellFormed.mem_transitions_addTransition t s).mp member with old | rfl
    · exact .inl old
    · exact .inr (.inl rfl)

theorem Adds.removeTransition (operation : Operation α) (t : Transition α) :
    operation.Adds nfa (nfa.removeTransition t).1 := by
  obtain ⟨initial, accepting⟩ := Nfa.WellFormed.marks_removeTransition nfa t
  refine .of_fewer operation (nfa.size_slots_removeTransition t) ?_ ?_ ?_ ?_
  · exact fun q live => (wellFormed.contains_removeTransition t q).symm.trans live
  · exact fun s member => ((wellFormed.mem_transitions_removeTransition t s).mp member).1
  · exact fun q marked => initial.symm.trans marked
  · exact fun q marked => accepting ▸ marked

theorem Adds.addFragment (operation : Operation α) (f : Fragment α)
    (within : f.Within nfa.slots.size) : operation.Adds nfa (nfa.addFragment f) := by
  obtain ⟨initial, accepting⟩ := Nfa.WellFormed.marks_addFragment nfa f
  refine ⟨?_, fun q live => ?_, fun t member => ?_,
    fun q marked => .inl (initial.symm.trans marked), fun q marked => .inl (accepting ▸ marked)⟩
  · rw [nfa.size_slots_addFragment f within]
    exact Nat.le_add_right _ _
  · rcases (nfa.contains_addFragment f within q).mp live with old | new
    · exact .inl old
    · exact .inr (.inr new.1)
  · rcases (wellFormed.mem_transitions_addFragment f t).mp member with old | new
    · exact .inl old
    · obtain ⟨source, target⟩ := within.ends t new
      exact .inr (.inr ⟨source.1, target.1⟩)

end

variable [Ord α] [Alphabet α] [DecidableEq α]

theorem contains_of_revives (nfa : Nfa α) {operation : Operation α} {q : State}
    (named : operation.Revives q) : (operation.apply nfa).1.contains q = true := by
  cases operation with
  | setInitial p => exact (nfa.contains_setInitial p q).mpr (.inr named.symm)
  | addAccepting p => exact (nfa.contains_addAccepting p q).mpr (.inr named.symm)
  | addTransition t =>
    apply (nfa.contains_addTransition t q).mpr
    rcases named with rfl | rfl <;> simp
  | newState | removeAccepting | removeTransition | removeStates | pruneFrom | prune | construct =>
    exact named.elim

theorem applyAll_append (nfa : Nfa α) (front back : List (Operation α)) :
    applyAll nfa (front ++ back) = applyAll (applyAll nfa front) back :=
  List.foldl_append

theorem applyAll_concat (nfa : Nfa α) (front : List (Operation α)) (operation : Operation α) :
    applyAll nfa (front ++ [operation]) = (operation.apply (applyAll nfa front)).1 :=
  applyAll_append nfa front [operation]

/-- Whether an operation in a run brings something about that holds from then on. -/
def BringsAbout (nfa : Nfa α) (operations : List (Operation α)) (operation : Operation α)
    (holds : Nfa α → Prop) : Prop :=
  ∃ front back, operations = front ++ operation :: back ∧ ¬holds (applyAll nfa front) ∧
    ∀ early, early <+: back → holds (applyAll nfa (front ++ operation :: early))

theorem exists_bringsAbout {nfa : Nfa α} (holds : Nfa α → Prop) (operations : List (Operation α))
    (before : ¬holds nfa) (after : holds (applyAll nfa operations)) :
    ∃ operation, BringsAbout nfa operations operation holds := by
  induction operations using List.reverseRecOn with
  | nil => exact absurd after before
  | append_singleton rest last ih =>
    by_cases already : holds (applyAll nfa rest)
    · obtain ⟨operation, front, back, rfl, missing, since⟩ := ih already
      refine ⟨operation, front, back ++ [last], by simp, missing, fun early start => ?_⟩
      rcases List.prefix_concat_iff.mp start with rfl | within
      · simpa using after
      · exact since early within
    · refine ⟨last, rest, [], rfl, already, fun early start => ?_⟩
      rw [List.prefix_nil.mp start]
      exact after

structure CarriesOnly (nfa : Nfa α) (q : State) (since : List (Operation α)) : Prop where
  transitions : ∀ t ∈ (applyAll nfa since).transitions, t.source = q ∨ t.target = q →
    BringsAbout nfa since (addTransition t) fun next => t ∈ next.transitions
  initial : (applyAll nfa since).initial = some q →
    BringsAbout nfa since (setInitial q) fun next => next.initial = some q
  accepting : q ∈ (applyAll nfa since).accepting →
    BringsAbout nfa since (addAccepting q) fun next => q ∈ next.accepting

section

variable [TransOrd α] {nfa : Nfa α} (wellFormed : nfa.WellFormed)
include wellFormed

theorem adds_apply (operation : Operation α) : operation.Adds nfa (operation.apply nfa).1 := by
  cases operation with
  | newState => exact .newState nfa
  | setInitial p => exact .setInitial nfa p
  | addAccepting p => exact .addAccepting nfa p
  | removeAccepting p =>
    exact .of_fewer _ rfl (fun _ => id) (fun _ => id) (fun _ => id)
      fun q marked => ((StateSet.mem_erase _ p q).mp marked).1
  | addTransition t => exact .addTransition wellFormed t
  | removeTransition t => exact .removeTransition wellFormed _ t
  | removeStates doomed => exact .removeStates _ nfa _
  | pruneFrom seed => exact .pruneFrom _ nfa seed
  | prune =>
    show Adds _ nfa nfa.prune.1
    rcases nfa.prune_cases with idle | ⟨seed, _, same⟩
    · rw [idle]
      exact .refl _ nfa
    · rw [same]
      exact .pruneFrom _ nfa seed
  | construct compiler regex =>
    cases allowed : compiler.allowance regex with
    | ok count =>
      rw [apply_construct_of_ok nfa compiler regex count allowed]
      exact .addFragment wellFormed _ _ (Fragment.within_ofCore _ _)
    | error e =>
      rw [apply_construct_of_error nfa compiler regex e allowed]
      exact .refl _ nfa

theorem size_slots_applyAll_le (operations : List (Operation α)) :
    nfa.slots.size ≤ (applyAll nfa operations).slots.size := by
  induction operations generalizing nfa with
  | nil => exact Nat.le_refl _
  | cons operation rest ih =>
    exact Nat.le_trans (adds_apply wellFormed operation).slots
      (ih (wellFormed_apply wellFormed operation))

theorem exists_adding (holds : Nfa α → Prop) (operations : List (Operation α))
    (before : ¬holds nfa) (after : holds (applyAll nfa operations)) :
    ∃ operation ∈ operations, ∃ moment next : Nfa α, nfa.slots.size ≤ moment.slots.size ∧
      operation.Adds moment next ∧ ¬holds moment ∧ holds next ∧
      BringsAbout nfa operations operation holds := by
  obtain ⟨operation, brings⟩ := exists_bringsAbout holds operations before after
  obtain ⟨front, back, split, missing, since⟩ := id brings
  have gained := since [] List.nil_prefix
  rw [applyAll_concat] at gained
  exact ⟨operation, by simp [split], applyAll nfa front, _, size_slots_applyAll_le wellFormed front,
    adds_apply (wellFormed_applyAll wellFormed front) operation, missing, gained, brings⟩

theorem carriesOnly {q : State} (missing : nfa.contains q = false)
    (numbered : q.index < nfa.slots.size) (since : List (Operation α)) :
    CarriesOnly nfa q since := by
  obtain ⟨unlinked, unmarked, refusing⟩ := wellFormed.blank missing
  refine ⟨fun t member mentions => ?_, fun marked => ?_, fun marked => ?_⟩
  · have foreign : t ∉ nfa.transitions := by
      intro old
      obtain ⟨source, target⟩ := unlinked t old
      exact mentions.elim source target
    obtain ⟨operation, _, moment, next, grown, adds, before, after, brings⟩ :=
      exists_adding wellFormed (t ∈ ·.transitions) since foreign member
    rcases adds.transitions t after with old | rfl | beyond
    · exact absurd old before
    · exact brings
    · -- a construction links only states on numbers that no state has had
      rcases mentions with rfl | rfl <;> omega
  · obtain ⟨operation, _, moment, next, _, adds, before, after, brings⟩ :=
      exists_adding wellFormed (·.initial = some q) since unmarked marked
    rcases adds.initial q after with old | rfl
    · exact absurd old before
    · exact brings
  · obtain ⟨operation, _, moment, next, _, adds, before, after, brings⟩ :=
      exists_adding wellFormed (q ∈ ·.accepting) since refusing marked
    rcases adds.accepting q after with old | rfl
    · exact absurd old before
    · exact brings

theorem not_contains_applyAll {q : State} (missing : nfa.contains q = false)
    (numbered : q.index < nfa.slots.size) (since : List (Operation α))
    (unnamed : ∀ operation ∈ since, ¬operation.Revives q) :
    (applyAll nfa since).contains q = false := by
  apply Bool.eq_false_iff.mpr
  intro live
  obtain ⟨operation, member, moment, next, grown, adds, before, after, _⟩ :=
    exists_adding wellFormed (·.contains q = true) since (Bool.eq_false_iff.mp missing) live
  rcases adds.states q after with old | named | beyond
  · exact before old
  · exact unnamed operation member named
  · omega

end

def Held (operations : List (Operation α)) (q : State) : Prop :=
  ∃ earlier, earlier <+: operations ∧ (applyAll ∅ earlier).contains q = true

def Removed (operations : List (Operation α)) (q : State) : Prop :=
  Held operations q ∧ (applyAll ∅ operations).contains q = false

theorem Held.append {operations : List (Operation α)} {q : State} (held : Held operations q)
    (later : List (Operation α)) : Held (operations ++ later) q := by
  obtain ⟨earlier, start, live⟩ := held
  exact ⟨earlier, start.trans (List.prefix_append operations later), live⟩

theorem Held.removeStates {operations : List (Operation α)} {q : State}
    (held : Held operations q) {doomed : List State} (member : q ∈ doomed) :
    Removed (operations ++ [removeStates doomed]) q := by
  refine ⟨held.append _, Bool.eq_false_iff.mpr fun live => ?_⟩
  rw [applyAll_concat] at live
  have spared := (((applyAll ∅ operations).contains_removeStates _ q).mp live).2
  exact spared ((StateSet.mem_ofList doomed q).mpr member)

variable [TransOrd α]

theorem Held.index_lt {operations : List (Operation α)} {q : State} (held : Held operations q) :
    q.index < (applyAll ∅ operations).slots.size := by
  obtain ⟨earlier, ⟨later, rfl⟩, live⟩ := held
  have wellFormed := wellFormed_applyAll Nfa.wellFormed_empty earlier
  rw [applyAll_append]
  exact Nat.lt_of_lt_of_le (Nfa.index_lt_of_contains _ q live)
    (size_slots_applyAll_le wellFormed later)

theorem size_slots_le_of_construct (operations : List (Operation α)) (compiler : Compiler)
    (regex : Regex α) {q : State} (missing : (applyAll ∅ operations).contains q = false)
    (live : (applyAll ∅ (operations ++ [construct compiler regex])).contains q = true) :
    (applyAll ∅ operations).slots.size ≤ q.index := by
  have wellFormed := wellFormed_applyAll Nfa.wellFormed_empty operations
  rw [applyAll_concat] at live
  rcases (adds_apply wellFormed (construct compiler regex)).states q live with
    old | named | beyond
  · exact absurd old (Bool.eq_false_iff.mp missing)
  · exact named.elim
  · exact beyond

namespace Removed

variable {operations : List (Operation α)} {q : State} (removed : Removed operations q)
include removed

theorem blank : (applyAll ∅ operations).Blank q :=
  (wellFormed_applyAll Nfa.wellFormed_empty operations).blank removed.2

theorem contains_iff_revives (operation : Operation α) :
    (applyAll ∅ (operations ++ [operation])).contains q = true ↔ operation.Revives q := by
  have wellFormed := wellFormed_applyAll Nfa.wellFormed_empty operations
  have numbered := removed.1.index_lt
  rw [applyAll_concat]
  refine ⟨fun live => ?_, contains_of_revives _⟩
  rcases (adds_apply wellFormed operation).states q live with old | named | beyond
  · exact absurd old (Bool.eq_false_iff.mp removed.2)
  · exact named
  · omega

theorem append (since : List (Operation α)) (unnamed : ∀ operation ∈ since, ¬operation.Revives q) :
    Removed (operations ++ since) q := by
  have wellFormed := wellFormed_applyAll Nfa.wellFormed_empty operations
  refine ⟨removed.1.append since, ?_⟩
  rw [applyAll_append]
  exact not_contains_applyAll wellFormed removed.2 removed.1.index_lt since unnamed

end Removed

/-- A new state, also one of a construction, is numbered above all that were there before, and
    nothing mentions it. What is removed stays so until an operation names it, nothing mentions it
    until then, and all that it carries from then on was added since. -/
theorem numbers_never_reused (operations : List (Operation α)) :
    (∃ next q, newState.apply (applyAll ∅ operations) = (next, .state q) ∧
      next.contains q = true ∧ next.Blank q ∧ ∀ p, Held operations p → p.index < q.index) ∧
    (∀ compiler regex q, (applyAll ∅ operations).contains q = false →
      (applyAll ∅ (operations ++ [construct compiler regex])).contains q = true →
      ∀ p, Held operations p → p.index < q.index) ∧
    (∀ doomed, ∀ q ∈ doomed, Held operations q →
      Removed (operations ++ [removeStates doomed]) q) ∧
    ∀ q, Removed operations q →
      (∀ operation, (applyAll ∅ (operations ++ [operation])).contains q = true ↔
        operation.Revives q) ∧
      ∀ since,
        ((∀ operation ∈ since, ¬operation.Revives q) →
          Removed (operations ++ since) q ∧ (applyAll ∅ (operations ++ since)).Blank q) ∧
        CarriesOnly (applyAll ∅ operations) q since := by
  have wellFormed := wellFormed_applyAll Nfa.wellFormed_empty operations
  refine ⟨?_, fun compiler regex q missing live p held => ?_, fun doomed q member held => ?_,
    fun q removed => ⟨removed.contains_iff_revives, fun since => ⟨fun unnamed => ?_, ?_⟩⟩⟩
  · exact ⟨_, _, rfl, Nfa.contains_newState _, Nfa.blank_newState wellFormed,
      fun p held => held.index_lt⟩
  · have beyond := size_slots_le_of_construct operations compiler regex missing live
    exact Nat.lt_of_lt_of_le held.index_lt beyond
  · exact held.removeStates member
  · have still := removed.append since unnamed
    exact ⟨still, still.blank⟩
  · exact carriesOnly wellFormed removed.2 removed.1.index_lt since

def gappedEdits : List (Operation Letter) :=
  [setInitial ⟨5⟩, addTransition ⟨⟨5⟩, .symbol (.closed .A .A), ⟨2⟩⟩,
    addTransition ⟨⟨2⟩, .epsilon, ⟨5⟩⟩, addAccepting ⟨2⟩, addAccepting ⟨9⟩]

def clearedEdits : List (Operation Letter) :=
  gappedEdits ++ [removeStates [⟨2⟩, ⟨9⟩]]

theorem numbers_of_clearedEdits :
    (applyAll ∅ clearedEdits).states = [⟨5⟩] ∧
      (∃ next, newState.apply (applyAll ∅ clearedEdits) = (next, .state ⟨10⟩) ∧
        next.Blank ⟨10⟩ ∧ ∀ p, Held clearedEdits p → p.index < 10) ∧
      Removed clearedEdits ⟨2⟩ ∧
      (applyAll ∅ (clearedEdits ++ [newState, removeAccepting ⟨2⟩])).Blank ⟨2⟩ ∧
      (applyAll ∅ (clearedEdits ++ [addAccepting ⟨2⟩])).contains ⟨2⟩ = true ∧
      (applyAll (applyAll ∅ clearedEdits) [addTransition ⟨⟨2⟩, .epsilon, ⟨2⟩⟩]).transitions =
        [⟨⟨2⟩, .epsilon, ⟨2⟩⟩] ∧
      CarriesOnly (applyAll ∅ clearedEdits) ⟨2⟩ [addTransition ⟨⟨2⟩, .epsilon, ⟨2⟩⟩] := by
  obtain ⟨new, _, _, later⟩ := numbers_never_reused clearedEdits
  have removed : Removed clearedEdits ⟨2⟩ :=
    (numbers_never_reused gappedEdits).2.2.1 [⟨2⟩, ⟨9⟩] ⟨2⟩ (by simp)
      ⟨gappedEdits, List.prefix_refl _, by cbv⟩
  obtain ⟨revived, since⟩ := later ⟨2⟩ removed
  refine ⟨by cbv, ?_, removed, ((since _).1 (by simp [Revives])).2,
    (revived (addAccepting ⟨2⟩)).mpr rfl, by cbv, (since _).2⟩
  obtain ⟨next, q, applied, _, blank, above⟩ := new
  have tenth : (newState.apply (applyAll ∅ clearedEdits)).2 = .state ⟨10⟩ := by cbv
  rw [applied] at tenth
  obtain rfl : q = ⟨10⟩ := Reply.state.inj tenth
  exact ⟨next, applied, blank, above⟩

end Operation

end IntervalAutomata
