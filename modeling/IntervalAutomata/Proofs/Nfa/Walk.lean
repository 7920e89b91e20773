import IntervalAutomata.Alphabet.Letter
import IntervalAutomata.Proofs.Nfa.Run
import Mathlib

namespace IntervalAutomata

open Std

universe u

variable {α : Type u}

inductive Walk (ts : List (Transition α)) : State → List (Label α) → State → Prop where
  | refl (q : State) : Walk ts q [] q
  | cons {p q r : State} {label : Label α} {labels : List (Label α)}
    (edge : ⟨p, label, q⟩ ∈ ts) (rest : Walk ts q labels r) : Walk ts p (label :: labels) r

namespace Label

def interval? : Label α → Option (Interval α)
  | epsilon => none
  | symbol i => some i

variable [Ord α]

/-- Whether the labels, epsilons dropped, are intervals that hold the symbols of a word one after
    another. -/
def Spell (labels : List (Label α)) (word : List α) : Prop :=
  List.Forall₂ (fun i a => i.contains a = true) (labels.filterMap interval?) word

theorem spell_nil_iff (word : List α) : Spell [] word ↔ word = [] :=
  List.forall₂_nil_left_iff

theorem spell_symbol_cons (i : Interval α) (labels : List (Label α)) (word : List α) :
    Spell (symbol i :: labels) word ↔
      ∃ a rest, word = a :: rest ∧ i.contains a = true ∧ Spell labels rest := by
  show List.Forall₂ _ (i :: labels.filterMap interval?) word ↔ _
  rw [List.forall₂_cons_left_iff]
  constructor
  · intro h
    obtain ⟨a, rest, admits, spelt, rfl⟩ := h
    exact ⟨a, rest, rfl, admits, spelt⟩
  · intro h
    obtain ⟨a, rest, rfl, admits, spelt⟩ := h
    exact ⟨a, rest, admits, spelt, rfl⟩

end Label

variable [Ord α] {ts : List (Transition α)} {p q : State}

theorem Walk.path {labels : List (Label α)} {word : List α} (walk : Walk ts p labels q)
    (spelt : Label.Spell labels word) : Path ts p word q := by
  induction walk generalizing word with
  | refl q =>
    rw [(Label.spell_nil_iff word).mp spelt]
    exact .refl q
  | @cons p q r label labels edge _ ih =>
    cases label with
    | epsilon => exact .epsilon edge (ih spelt)
    | symbol i =>
      obtain ⟨a, rest, rfl, admits, spelt⟩ := (Label.spell_symbol_cons i labels word).mp spelt
      exact .symbol edge admits (ih spelt)

theorem Path.exists_walk {word : List α} (path : Path ts p word q) :
    ∃ labels, Walk ts p labels q ∧ Label.Spell labels word := by
  induction path with
  | refl q => exact ⟨[], .refl q, (Label.spell_nil_iff []).mpr rfl⟩
  | epsilon edge _ ih =>
    obtain ⟨labels, walk, spelt⟩ := ih
    exact ⟨.epsilon :: labels, .cons edge walk, spelt⟩
  | @symbol p q r i a word edge admits _ ih =>
    obtain ⟨labels, walk, spelt⟩ := ih
    exact ⟨.symbol i :: labels, .cons edge walk,
      (Label.spell_symbol_cons i labels _).mpr ⟨a, word, rfl, admits, spelt⟩⟩

theorem Path.iff_exists_walk {word : List α} :
    Path ts p word q ↔ ∃ labels, Walk ts p labels q ∧ Label.Spell labels word := by
  constructor
  · exact Path.exists_walk
  · intro h
    obtain ⟨labels, walk, spelt⟩ := h
    exact walk.path spelt

namespace Operation

variable [Alphabet α] [DecidableEq α] [TransOrd α]

/-- Whatever operations an automaton comes from, it accepts the words that its walks spell. No law of
    the alphabet is needed, only an order. -/
theorem accepts_iff_walk (operations : List (Operation α)) (word : List α) :
    (applyAll (∅ : Nfa α) operations).accepts word = true ↔
      ∃ p ∈ (applyAll ∅ operations).initial, ∃ q ∈ (applyAll ∅ operations).accepting,
        ∃ labels, Walk (applyAll ∅ operations).transitions p labels q ∧
          Label.Spell labels word := by
  have wellFormed := wellFormed_applyAll Nfa.wellFormed_empty operations
  rw [wellFormed.accepts_iff_path]
  simp only [Path.iff_exists_walk]

def circleEdits : List (Operation Letter) :=
  [setInitial ⟨0⟩, addAccepting ⟨2⟩,
    addTransition ⟨⟨0⟩, .epsilon, ⟨1⟩⟩, addTransition ⟨⟨1⟩, .epsilon, ⟨0⟩⟩,
    addTransition ⟨⟨0⟩, .symbol ⟨.inclusive .A, .exclusive .A⟩, ⟨2⟩⟩,
    addTransition ⟨⟨0⟩, .symbol ⟨.unbounded, .inclusive .C⟩, ⟨0⟩⟩,
    addTransition ⟨⟨1⟩, .symbol ⟨.exclusive .B, .unbounded⟩, ⟨2⟩⟩]

theorem accepts_circleEdits :
    (applyAll ∅ circleEdits).accepts [.A, .C, .E] = true ∧
      (∃ p ∈ (applyAll ∅ circleEdits).initial, ∃ q ∈ (applyAll ∅ circleEdits).accepting,
        ∃ labels, Walk (applyAll ∅ circleEdits).transitions p labels q ∧
          Label.Spell labels [.A, .C, .E]) ∧
      (applyAll ∅ circleEdits).accepts [.E, .A] = false ∧
      ¬∃ p ∈ (applyAll ∅ circleEdits).initial, ∃ q ∈ (applyAll ∅ circleEdits).accepting,
        ∃ labels, Walk (applyAll ∅ circleEdits).transitions p labels q ∧
          Label.Spell labels [.E, .A] := by
  have accepted : (applyAll ∅ circleEdits).accepts [.A, .C, .E] = true := by cbv
  have refused : (applyAll ∅ circleEdits).accepts [.E, .A] = false := by cbv
  refine ⟨accepted, (accepts_iff_walk circleEdits _).mp accepted, refused, ?_⟩
  rw [← accepts_iff_walk circleEdits, refused]
  exact Bool.false_ne_true

end Operation

end IntervalAutomata
