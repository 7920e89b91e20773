import IntervalAutomata.Proofs.Regex.Desugar
import IntervalAutomata.Proofs.Thompson.Allocation

/-!
Building an expression state by state and transition by transition, where a convenience is rewritten
only once it is met. The automaton is the same as that of the core form, state numbers and order of
transitions included.
-/

namespace IntervalAutomata

universe u

variable {α : Type u}

namespace Nfa

theorem newStates_newStates (nfa : Nfa α) (m n : Nat) :
    (nfa.newStates m).newStates n = nfa.newStates (m + n) := by
  simp only [newStates, Array.append_assoc, Array.replicate_append_replicate, Nat.add_assoc]

theorem setEdges_newStates (nfa : Nfa α) (q : State) (edges : Edges α) (count : Nat)
    (old : q.index < nfa.slots.size) :
    (nfa.setEdges q edges).newStates count = (nfa.newStates count).setEdges q edges := by
  simp only [newStates, setEdges, Array.setIfInBounds_append_left old]

variable [Ord α] [DecidableEq α]

theorem addTransition_newStates (nfa : Nfa α) (t : Transition α) (count : Nat)
    (source : nfa.contains t.source = true) (target : nfa.contains t.target = true) :
    (nfa.addTransition t).1.newStates count = ((nfa.newStates count).addTransition t).1 := by
  have later : ∀ q, nfa.contains q = true → (nfa.newStates count).contains q = true :=
    fun q held => (contains_newStates nfa count q).mpr (.inl held)
  rw [addTransition_eq, addTransition_eq, withEnds_of_live nfa t source target,
    withEnds_of_live _ t (later _ source) (later _ target), edges_newStates]
  split
  · exact setEdges_newStates nfa t.source _ count (index_lt_of_contains nfa t.source source)
  · rfl

theorem addTransitions_newStates {nfa : Nfa α} {ts : List (Transition α)}
    (live : ∀ t ∈ ts, nfa.contains t.source = true ∧ nfa.contains t.target = true) (count : Nat) :
    (nfa.addTransitions ts).newStates count = (nfa.newStates count).addTransitions ts := by
  induction ts generalizing nfa with
  | nil => rfl
  | cons t rest ih =>
    have ends := live t List.mem_cons_self
    change ((nfa.addTransition t).1.addTransitions rest).newStates count =
      ((nfa.newStates count).addTransition t).1.addTransitions rest
    rw [ih (live_addTransition live), addTransition_newStates nfa t count ends.1 ends.2]

def extend (nfa : Nfa α) (count : Nat) (ts : List (Transition α)) : Nfa α :=
  (nfa.newStates count).addTransitions ts

theorem addFragment_eq_extend (nfa : Nfa α) (f : Fragment α) :
    nfa.addFragment f = nfa.extend f.size f.transitions := rfl

theorem extend_addTransitions (nfa : Nfa α) (count : Nat) (ts us : List (Transition α)) :
    (nfa.extend count ts).addTransitions us = nfa.extend count (ts ++ us) :=
  (List.foldl_append ..).symm

theorem extend_extend (nfa : Nfa α) (m n : Nat) (ts us : List (Transition α))
    (inside : ∀ t ∈ ts, t.source.InBlock nfa.slots.size m ∧ t.target.InBlock nfa.slots.size m) :
    (nfa.extend m ts).extend n us = nfa.extend (m + n) (ts ++ us) := by
  rw [← extend_addTransitions, extend, extend, extend,
    addTransitions_newStates (live_newStates inside), newStates_newStates]

end Nfa

/-- Something to be added to an automaton, between a start and a stop of its own. -/
abbrev Builder (α : Type u) := Nfa α → Construction α

namespace Builder

def ends : Builder α := fun nfa =>
  let (first, start) := nfa.newState
  let (both, stop) := first.newState
  ⟨both, start, stop⟩

variable [Ord α] [DecidableEq α]

theorem ends_eq (nfa : Nfa α) :
    ends nfa = ⟨nfa.extend 2 [], ⟨nfa.slots.size⟩, ⟨nfa.slots.size + 1⟩⟩ := by
  have both : nfa.newState.1.newState.1 = nfa.newStates 2 := by
    rw [Nfa.newState_eq, Nfa.newState_eq, Nfa.newStates_newStates]
  have stop : nfa.newState.1.newState.2 = ⟨nfa.slots.size + 1⟩ := by
    simp [Nfa.newState]
  show Construction.mk nfa.newState.1.newState.1 _ nfa.newState.1.newState.2 = _
  rw [both, stop]
  rfl

theorem size_slots_ends (nfa : Nfa α) : (nfa.extend 2 []).slots.size = nfa.slots.size + 2 := by
  simp [Nfa.extend, Nfa.addTransitions, Nfa.newStates]

def ofLabels (labels : List (Label α)) : Builder α := fun nfa =>
  let new := ends nfa
  { new with nfa := new.nfa.addTransitions (labels.map fun label => ⟨new.start, label, new.stop⟩) }

def series (first second : Builder α) : Builder α := fun nfa =>
  let f := first nfa
  let g := second f.nfa
  ⟨g.nfa.addTransitions [Fragment.epsilon f.stop g.start], f.start, g.stop⟩

def branch (first second : Builder α) : Builder α := fun nfa =>
  let new := ends nfa
  let f := first new.nfa
  let g := second f.nfa
  let links := [Fragment.epsilon new.start f.start, Fragment.epsilon new.start g.start,
    Fragment.epsilon f.stop new.stop, Fragment.epsilon g.stop new.stop]
  { new with nfa := g.nfa.addTransitions links }

def loop (inner : Builder α) : Builder α := fun nfa =>
  let new := ends nfa
  let f := inner new.nfa
  let links := [Fragment.epsilon new.start f.start, Fragment.epsilon new.start new.stop,
    Fragment.epsilon f.stop f.start, Fragment.epsilon f.stop new.stop]
  { new with nfa := f.nfa.addTransitions links }

def Makes (builder : Builder α) (fragment : Nat → Fragment α) : Prop :=
  ∀ nfa, builder nfa = ⟨nfa.addFragment (fragment nfa.slots.size),
    (fragment nfa.slots.size).start, (fragment nfa.slots.size).stop⟩

theorem makes_ofLabels (labels : List (Label α)) :
    (ofLabels labels).Makes fun base => .ofLabels base labels := by
  intro nfa
  rw [ofLabels, ends_eq]
  rfl

variable {first second : Builder α} {f g : Nat → Fragment α}

theorem Makes.series (front : first.Makes f) (back : second.Makes g)
    (within : ∀ base, (f base).Within base) :
    (series first second).Makes fun base => (f base).series (g (base + (f base).size)) := by
  intro nfa
  have size := nfa.size_slots_addFragment _ (within nfa.slots.size)
  simp only [Builder.series, front nfa, back _, size]
  rw [Nfa.addFragment_eq_extend, Nfa.addFragment_eq_extend,
    Nfa.extend_extend nfa _ _ _ _ (within _).ends, Nfa.extend_addTransitions]
  rfl

theorem Makes.branch (front : first.Makes f) (back : second.Makes g)
    (within : ∀ base, (f base).Within base) :
    (branch first second).Makes fun base =>
      .branch base (f (base + 2)) (g (base + 2 + (f (base + 2)).size)) := by
  intro nfa
  have inner := within (nfa.slots.size + 2)
  have size := (nfa.extend 2 []).size_slots_addFragment (f (nfa.slots.size + 2))
  rw [size_slots_ends] at size
  simp only [Builder.branch, ends_eq, front _, back _, size_slots_ends, size inner]
  -- the two ends, the one part and the other are extensions in turn, and the links come behind all
  rw [Nfa.addFragment_eq_extend, Nfa.addFragment_eq_extend, Nfa.extend_extend nfa 2 _ [] _ (by simp),
    List.nil_append, Nfa.extend_extend, Nfa.extend_addTransitions]
  · rfl
  · exact inner.widen_ends (by omega) (by omega)

theorem Makes.loop (inner : first.Makes f) :
    (loop first).Makes fun base => .loop base (f (base + 2)) := by
  intro nfa
  simp only [Builder.loop, ends_eq, inner _, size_slots_ends]
  rw [Nfa.addFragment_eq_extend, Nfa.extend_extend nfa 2 _ [] _ (by simp), List.nil_append,
    Nfa.extend_addTransitions]
  rfl

end Builder

variable [Ord α] [DecidableEq α]

namespace Core

def builder : Core α → Builder α
  | empty => .ofLabels [.epsilon]
  | nothing => .ofLabels []
  | literal a => .ofLabels [.symbol (.singleton a)]
  | range a b => .ofLabels [.symbol (.closed a b)]
  | seq first second => .series first.builder second.builder
  | alt first second => .branch first.builder second.builder
  | star inner => .loop inner.builder

theorem makes_builder (core : Core α) : core.builder.Makes fun base => .ofCore base core := by
  induction core with
  | empty => exact Builder.makes_ofLabels _
  | nothing => exact Builder.makes_ofLabels _
  | literal a => exact Builder.makes_ofLabels _
  | range a b => exact Builder.makes_ofLabels _
  | seq first second ihFirst ihSecond =>
    exact ihFirst.series ihSecond fun base => Fragment.within_ofCore base first
  | alt first second ihFirst ihSecond =>
    exact ihFirst.branch ihSecond fun base => Fragment.within_ofCore base first
  | star inner ih => exact ih.loop

end Core

variable [Alphabet α]

namespace Regex

/-- Builds an expression as it is written, down to the conveniences; of each of these it builds the
    core form. -/
def builder : Regex α → Builder α
  | empty => .ofLabels [.epsilon]
  | nothing => .ofLabels []
  | literal a => .ofLabels [.symbol (.singleton a)]
  | range a b => .ofLabels [.symbol (.closed a b)]
  | seq first second => .series first.builder second.builder
  | alt first second => .branch first.builder second.builder
  | star inner => .loop inner.builder
  | sugared@(optional _) | sugared@(plus _) | sugared@(repeated _ _ _) | sugared@(string _)
  | sugared@(oneOf _ _) => sugared.desugar.builder

theorem builder_eq (regex : Regex α) : regex.builder = regex.desugar.builder := by
  induction regex with
  | empty => rfl
  | nothing => rfl
  | literal a => rfl
  | range a b => rfl
  | seq first second ihFirst ihSecond =>
    simp only [builder, desugar, Core.builder, ihFirst, ihSecond]
  | alt first second ihFirst ihSecond =>
    simp only [builder, desugar, Core.builder, ihFirst, ihSecond]
  | star inner ih => simp only [builder, desugar, Core.builder, ih]
  | optional inner => rfl
  | plus inner => rfl
  | repeated inner min max => rfl
  | string symbols => rfl
  | oneOf negated spans => rfl

end Regex

namespace Compiler

theorem builder_of_construct {compiler : Compiler} {regex : Regex α} {nfa : Nfa α}
    {built : Construction α} (constructed : compiler.construct regex nfa = .ok built) :
    regex.builder nfa = built := by
  rw [construct_eq_ok constructed, regex.builder_eq, regex.desugar.makes_builder nfa]

theorem allowance_desugar {compiler : Compiler} {regex : Regex α} {count : Nat}
    (allowed : compiler.allowance regex = .ok count) :
    compiler.allowance regex.desugar.toRegex = .ok count := by
  obtain ⟨counted, fits⟩ := counted_of_allowance allowed
  apply compiler.allowance_eq_ok _ fits
  rw [Regex.stateCount?_toRegex, Regex.fit?_of_counted counted]

/-- An expression and its core form make the same automaton from the same one, under the same limit;
    and it is what comes of building either step by step, with conveniences rewritten on the way. -/
theorem construct_desugar (compiler : Compiler) (regex : Regex α) (nfa : Nfa α)
    (built : Construction α) (constructed : compiler.construct regex nfa = .ok built) :
    compiler.construct regex.desugar.toRegex nfa = .ok built ∧
      regex.builder nfa = built ∧ regex.desugar.toRegex.builder nfa = built := by
  obtain ⟨count, allowed⟩ := allowance_of_construct constructed
  have again : compiler.construct regex.desugar.toRegex nfa = .ok built := by
    rw [construct_of_allowance (allowance_desugar allowed), Core.desugar_toRegex,
      construct_eq_ok constructed]
  exact ⟨again, builder_of_construct constructed, builder_of_construct again⟩

def nestedSugar : Regex Letter :=
  .seq (.literal .A) (.star (.optional (.string [.B, .C])))

theorem construct_nestedSugar :
    nestedSugar.desugar.toRegex ≠ nestedSugar ∧
      ∃ built, (Compiler.mk (some 12)).construct nestedSugar
          (Operation.applyAll ∅ Operation.gapEdits) = .ok built ∧
        (Compiler.mk (some 12)).construct nestedSugar.desugar.toRegex
          (Operation.applyAll ∅ Operation.gapEdits) = .ok built ∧
        nestedSugar.builder (Operation.applyAll ∅ Operation.gapEdits) = built ∧
        built.start = ⟨6⟩ ∧ built.stop = ⟨9⟩ ∧ built.nfa.epsilonTargets ⟨7⟩ = [⟨8⟩] := by
  have constructed : (Compiler.mk (some 12)).construct nestedSugar
      (Operation.applyAll ∅ Operation.gapEdits) = .ok
        ⟨(Operation.applyAll ∅ Operation.gapEdits).addFragment (.ofCore 6 nestedSugar.desugar),
          ⟨6⟩, ⟨9⟩⟩ := by cbv
  obtain ⟨again, built, _⟩ := construct_desugar ⟨some 12⟩ nestedSugar _ _ constructed
  exact ⟨by decide, _, constructed, again, built, rfl, rfl, by cbv⟩

end Compiler

end IntervalAutomata
