import IntervalAutomata.Proofs.Nfa.Prune
import IntervalAutomata.Proofs.Thompson.Compile
import Mathlib

namespace IntervalAutomata

open Relation Std

universe u

variable {α : Type u}

def Core.hasNothing : Core α → Bool
  | empty | literal _ | range _ _ => false
  | nothing => true
  | seq first second | alt first second => first.hasNothing || second.hasNothing
  | star inner => inner.hasNothing

def Leads (ts : List (Transition α)) : State → State → Prop :=
  ReflTransGen fun p q => ∃ label, ⟨p, label, q⟩ ∈ ts

namespace Leads

theorem mono {ts us : List (Transition α)} {p q : State} (path : Leads ts p q) (more : ts ⊆ us) :
    Leads us p q := by
  apply ReflTransGen.mono _ _ _ path
  rintro r s ⟨label, edge⟩
  exact ⟨label, more edge⟩

theorem of_mem {ts : List (Transition α)} {p q : State} {label : Label α}
    (edge : ⟨p, label, q⟩ ∈ ts) : Leads ts p q :=
  .single ⟨label, edge⟩

theorem of_epsilon {ts : List (Transition α)} {p q : State}
    (edge : Fragment.epsilon p q ∈ ts) : Leads ts p q :=
  of_mem edge

/-- A block of states that is entered at one state alone is passed from there. -/
theorem from_entry {part ts : List (Transition α)} (inside : State → Prop) {entry p q : State}
    (stays : ∀ t ∈ part, inside t.source)
    (enters : ∀ t ∈ ts, inside t.target → t ∈ part ∨ t.target = entry)
    (starts : inside p → p = entry) (path : Leads ts p q) (ends : inside q) :
    Leads part entry q := by
  induction path with
  | refl =>
    rw [starts ends]
    exact .refl
  | tail _ edge ih =>
    obtain ⟨label, edge⟩ := edge
    rcases enters _ edge ends with within | rfl
    · exact (ih (stays _ within)).tail ⟨label, within⟩
    · exact .refl

end Leads

namespace Fragment

def Useful (f : Fragment α) (q : State) : Prop :=
  Leads f.transitions f.start q ∧ Leads f.transitions q f.stop

structure Trim (f : Fragment α) (base : Nat) : Prop where
  within : f.Within base
  useful : ∀ q : State, q.InBlock base f.size → f.Useful q

theorem Trim.through {f : Fragment α} {base : Nat} (trim : f.Trim base) :
    Leads f.transitions f.start f.stop :=
  (trim.useful f.stop trim.within.stop).1

theorem Trim.useful_of_part {part whole : Fragment α} {base : Nat} (trim : part.Trim base)
    (more : part.transitions ⊆ whole.transitions)
    (entering : Leads whole.transitions whole.start part.start)
    (leaving : Leads whole.transitions part.stop whole.stop) {q : State}
    (inside : q.InBlock base part.size) : whole.Useful q := by
  obtain ⟨reached, reaching⟩ := trim.useful q inside
  exact ⟨entering.trans (reached.mono more), (reaching.mono more).trans leaving⟩

theorem useful_ends {f : Fragment α} (through : Leads f.transitions f.start f.stop) {q : State}
    (isEnd : q = f.start ∨ q = f.stop) : f.Useful q := by
  rcases isEnd with rfl | rfl
  · exact ⟨.refl, through⟩
  · exact ⟨through, .refl⟩

theorem trim_ofLabel (base : Nat) (label : Label α) : (ofLabels base [label]).Trim base where
  within := within_ofLabels base [label]
  useful := by
    intro q inside
    apply useful_ends _ ((q.inBlock_two_iff base).mp inside)
    exact .of_mem (List.mem_singleton.mpr rfl)

theorem Trim.series {f g : Fragment α} {base : Nat} (front : f.Trim base)
    (back : g.Trim (base + f.size)) : (f.series g).Trim base where
  within := front.within.series back.within
  useful := by
    have inFront := subset_series_front f g
    have inBack := subset_series_back f g
    have link : Leads (f.series g).transitions f.stop g.start :=
      .of_epsilon (mem_series.mpr (.inr (.inr rfl)))
    intro q inside
    rcases inside.split with inside | inside
    · exact front.useful_of_part inFront .refl (link.trans (back.through.mono inBack)) inside
    · exact back.useful_of_part inBack ((front.through.mono inFront).trans link) .refl inside

theorem Trim.branch {f g : Fragment α} {base : Nat} (front : f.Trim (base + 2))
    (back : g.Trim (base + 2 + f.size)) : (branch base f g).Trim base where
  within := front.within.branch back.within
  useful := by
    have inFront := subset_branch_front base f g
    have inBack := subset_branch_back base f g
    have toFront : Leads (Fragment.branch base f g).transitions ⟨base⟩ f.start :=
      .of_epsilon (mem_branch.mpr (by simp))
    have toBack : Leads (Fragment.branch base f g).transitions ⟨base⟩ g.start :=
      .of_epsilon (mem_branch.mpr (by simp))
    have fromFront : Leads (Fragment.branch base f g).transitions f.stop ⟨base + 1⟩ :=
      .of_epsilon (mem_branch.mpr (by simp))
    have fromBack : Leads (Fragment.branch base f g).transitions g.stop ⟨base + 1⟩ :=
      .of_epsilon (mem_branch.mpr (by simp))
    intro q inside
    rcases State.InBlock.split inside with inside | inside
    · rcases inside.split with inside | inside
      · have through := (toFront.trans (front.through.mono inFront)).trans fromFront
        exact useful_ends through ((q.inBlock_two_iff base).mp inside)
      · exact front.useful_of_part inFront toFront fromFront inside
    · rw [← Nat.add_assoc] at inside
      exact back.useful_of_part inBack toBack fromBack inside

theorem Trim.loop {f : Fragment α} {base : Nat} (part : f.Trim (base + 2)) :
    (loop base f).Trim base where
  within := part.within.loop
  useful := by
    have inPart := subset_loop base f
    have entering : Leads (Fragment.loop base f).transitions ⟨base⟩ f.start :=
      .of_epsilon (mem_loop.mpr (by simp))
    have skipping : Leads (Fragment.loop base f).transitions ⟨base⟩ ⟨base + 1⟩ :=
      .of_epsilon (mem_loop.mpr (by simp))
    have leaving : Leads (Fragment.loop base f).transitions f.stop ⟨base + 1⟩ :=
      .of_epsilon (mem_loop.mpr (by simp))
    intro q inside
    rcases State.InBlock.split inside with inside | inside
    · exact useful_ends skipping ((q.inBlock_two_iff base).mp inside)
    · exact part.useful_of_part inPart entering leaving inside

theorem trim_ofCore [Ord α] (base : Nat) (core : Core α) (none : core.hasNothing = false) :
    (ofCore base core).Trim base := by
  induction core generalizing base with
  | empty => exact trim_ofLabel base _
  | nothing => contradiction
  | literal a => exact trim_ofLabel base _
  | range a b => exact trim_ofLabel base _
  | seq first second ihFirst ihSecond =>
    obtain ⟨noneFirst, noneSecond⟩ := Bool.or_eq_false_iff.mp none
    rw [ofCore_seq]
    exact (ihFirst base noneFirst).series (ihSecond _ noneSecond)
  | alt first second ihFirst ihSecond =>
    obtain ⟨noneFirst, noneSecond⟩ := Bool.or_eq_false_iff.mp none
    rw [ofCore_alt]
    exact (ihFirst (base + 2) noneFirst).branch (ihSecond _ noneSecond)
  | star inner ih =>
    rw [ofCore_star]
    exact (ih (base + 2) none).loop

def Stranded (f : Fragment α) (base : Nat) : Prop :=
  ∃ q : State, q.InBlock base f.size ∧ ¬Leads f.transitions f.start q

theorem stranded_nothing (base : Nat) : (ofLabels base ([] : List (Label α))).Stranded base := by
  refine ⟨⟨base + 1⟩, ⟨Nat.le_succ base, by simp [ofLabels]⟩, ?_⟩
  intro path
  rcases ReflTransGen.cases_tail path with same | ⟨_, _, _, edge⟩
  · simp [ofLabels] at same
  · simp [ofLabels] at edge

theorem Stranded.of_part {part whole : Fragment α} {inner base : Nat} (stranded : part.Stranded inner)
    (within : part.Within inner) (low : base ≤ inner)
    (high : inner + part.size ≤ base + whole.size)
    (enters : ∀ t ∈ whole.transitions, t.target.InBlock inner part.size →
      t ∈ part.transitions ∨ t.target = part.start)
    (starts : whole.start.InBlock inner part.size → whole.start = part.start) :
    whole.Stranded base := by
  obtain ⟨q, inside, unreached⟩ := stranded
  refine ⟨q, inside.widen low high, fun path => unreached ?_⟩
  exact path.from_entry (·.InBlock inner part.size) (fun t member => (within.ends t member).1)
    enters starts inside

section Parts

variable {f g : Fragment α} {base : Nat}

theorem Stranded.series (front : f.Within base) (back : g.Within (base + f.size))
    (stranded : f.Stranded base ∨ g.Stranded (base + f.size)) : (f.series g).Stranded base := by
  have size : (f.series g).size = f.size + g.size := rfl
  rcases stranded with inFirst | inSecond
  · apply inFirst.of_part front (Nat.le_refl base) (by omega)
    · intro t member entered
      rcases mem_series.mp member with inFront | inBack | rfl
      · exact .inl inFront
      · exact absurd entered (back.ends t inBack).2.not_front
      · exact absurd entered back.start.not_front
    · exact fun _ => rfl
  · apply inSecond.of_part back (Nat.le_add_right base _) (by omega)
    · intro t member entered
      rcases mem_series.mp member with inFront | inBack | rfl
      · exact absurd (front.ends t inFront).2 entered.not_front
      · exact .inl inBack
      · exact .inr rfl
    · intro started
      exact absurd front.start started.not_front

theorem Stranded.branch (front : f.Within (base + 2)) (back : g.Within (base + 2 + f.size))
    (stranded : f.Stranded (base + 2) ∨ g.Stranded (base + 2 + f.size)) :
    (branch base f g).Stranded base := by
  have size : (Fragment.branch base f g).size = 2 + f.size + g.size := rfl
  have notEntry : ∀ inner size, base + 2 ≤ inner → ¬State.InBlock ⟨base⟩ inner size :=
    fun inner size low => State.not_inBlock_of_lt (show base < inner by omega)
  have notExit : ∀ inner size, base + 2 ≤ inner → ¬State.InBlock ⟨base + 1⟩ inner size :=
    fun inner size low => State.not_inBlock_of_lt (show base + 1 < inner by omega)
  rcases stranded with inFirst | inSecond
  · apply inFirst.of_part front (by omega) (by omega)
    · intro t member entered
      rcases mem_branch.mp member with inFront | inBack | rfl | rfl | rfl | rfl
      · exact .inl inFront
      · exact absurd entered (back.ends t inBack).2.not_front
      · exact .inr rfl
      · exact absurd entered back.start.not_front
      · exact absurd entered (notExit _ _ (Nat.le_refl _))
      · exact absurd entered (notExit _ _ (Nat.le_refl _))
    · intro started
      exact absurd started (notEntry _ _ (Nat.le_refl _))
  · apply inSecond.of_part back (by omega) (by omega)
    · intro t member entered
      rcases mem_branch.mp member with inFront | inBack | rfl | rfl | rfl | rfl
      · exact absurd (front.ends t inFront).2 entered.not_front
      · exact .inl inBack
      · exact absurd front.start entered.not_front
      · exact .inr rfl
      · exact absurd entered (notExit _ _ (by omega))
      · exact absurd entered (notExit _ _ (by omega))
    · intro started
      exact absurd started (notEntry _ _ (by omega))

/-- The way back of a loop enters the part at its start, where the loop enters it anyway. -/
theorem Stranded.loop (part : f.Within (base + 2)) (stranded : f.Stranded (base + 2)) :
    (loop base f).Stranded base := by
  have size : (Fragment.loop base f).size = 2 + f.size := rfl
  have notExit : ¬State.InBlock ⟨base + 1⟩ (base + 2) f.size :=
    State.not_inBlock_of_lt (show base + 1 < base + 2 by omega)
  apply stranded.of_part part (by omega) (by omega)
  · intro t member entered
    rcases mem_loop.mp member with inPart | rfl | rfl | rfl | rfl
    · exact .inl inPart
    · exact .inr rfl
    · exact absurd entered notExit
    · exact .inr rfl
    · exact absurd entered notExit
  · intro started
    exact absurd started (State.not_inBlock_of_lt (show base < base + 2 by omega))

end Parts

theorem stranded_ofCore [Ord α] (base : Nat) (core : Core α) (some : core.hasNothing = true) :
    (ofCore base core).Stranded base := by
  induction core generalizing base with
  | empty => contradiction
  | nothing => exact stranded_nothing base
  | literal a => contradiction
  | range a b => contradiction
  | seq first second ihFirst ihSecond =>
    rw [ofCore_seq]
    apply Stranded.series (within_ofCore _ _) (within_ofCore _ _)
    exact (Bool.or_eq_true_iff.mp some).imp (ihFirst _) (ihSecond _)
  | alt first second ihFirst ihSecond =>
    rw [ofCore_alt]
    apply Stranded.branch (within_ofCore _ _) (within_ofCore _ _)
    exact (Bool.or_eq_true_iff.mp some).imp (ihFirst _) (ihSecond _)
  | star inner ih =>
    rw [ofCore_star]
    exact (ih _ some).loop (within_ofCore _ _)

section Compiled

variable [Ord α] [DecidableEq α] [TransOrd α]

theorem reaches_toNfa_iff {f : Fragment α} (within : f.Within 0) {p : State}
    (inside : p.InBlock 0 f.size) (q : State) : f.toNfa.Reaches p q ↔ Leads f.transitions p q := by
  have same : (fun r s => ∃ label, ⟨r, label, s⟩ ∈ f.toNfa.transitions) =
      fun r s => ∃ label, ⟨r, label, s⟩ ∈ f.transitions := by
    funext r s
    simp only [mem_transitions_toNfa]
  rw [Nfa.Reaches, same]
  exact and_iff_right ((contains_toNfa within p).mpr inside)

theorem prune_toNfa_reports_iff {f : Fragment α} (within : f.Within 0) :
    f.toNfa.prune.2 = true ↔ f.Stranded 0 := by
  rw [Nfa.prune_of_initial f.initial_toNfa, f.wellFormed_toNfa.pruneFrom_reports]
  simp only [(f.wellFormed_toNfa.keepsOnly_pruneFrom f.start).states, Nfa.mem_states,
    contains_toNfa within, reaches_toNfa_iff within within.start, Stranded]

end Compiled

end Fragment

namespace Compiler

variable [Ord α] [Alphabet α] [DecidableEq α] [TransOrd α]

/-- Pruning a compiled automaton finds something to remove just if the core form has a part that
    matches nothing. Without one, every state lies between the initial and the accepting one. -/
theorem prune_compile (compiler : Compiler) (regex : Regex α) (nfa : Nfa α)
    (compiled : compiler.compile regex = .ok nfa) :
    (nfa.prune.2 = true ↔ regex.desugar.hasNothing = true) ∧
      (regex.desugar.hasNothing = false → ∃ start stop, nfa.initial = some start ∧
        nfa.acceptingStates = [stop] ∧
          ∀ q ∈ nfa.states, nfa.Reaches start q ∧ nfa.Reaches q stop) := by
  have within := Fragment.within_ofCore 0 regex.desugar
  have trim := Fragment.trim_ofCore 0 regex.desugar
  rw [compile_eq_ok compiled]
  constructor
  · rw [Fragment.prune_toNfa_reports_iff within]
    constructor
    · rintro ⟨q, inside, unreached⟩
      by_contra none
      exact unreached ((trim (Bool.eq_false_iff.mpr none)).useful q inside).1
    · exact Fragment.stranded_ofCore 0 regex.desugar
  · intro none
    refine ⟨_, _, Fragment.initial_toNfa _, Fragment.acceptingStates_toNfa _, ?_⟩
    intro q live
    rw [Nfa.mem_states, Fragment.contains_toNfa within] at live
    rw [Fragment.reaches_toNfa_iff within within.start, Fragment.reaches_toNfa_iff within live]
    exact (trim none).useful q live

def hopelessOption : Regex Letter :=
  .seq (.literal .A) (.optional (.oneOf true [⟨.C, .E⟩, ⟨.A, .B⟩]))

def noCopies : Regex Letter :=
  .seq (.literal .A) (.star (.repeated .nothing 0 (some 0)))

theorem prune_hopelessOption :
    (∃ nfa, ({} : Compiler).compile hopelessOption = .ok nfa ∧
      hopelessOption.desugar = .seq (.literal .A) (.alt .nothing .empty) ∧ nfa.prune.2 = true) ∧
    ∃ nfa, ({} : Compiler).compile noCopies = .ok nfa ∧
      noCopies.desugar = .seq (.literal .A) (.star .empty) ∧ nfa.prune.2 = false ∧
      ∃ start stop, nfa.initial = some start ∧ nfa.acceptingStates = [stop] ∧
        ∀ q ∈ nfa.states, nfa.Reaches start q ∧ nfa.Reaches q stop := by
  have hopeless : ({} : Compiler).compile hopelessOption =
      .ok (Fragment.ofCore 0 hopelessOption.desugar).toNfa := by cbv
  have plain : ({} : Compiler).compile noCopies =
      .ok (Fragment.ofCore 0 noCopies.desugar).toNfa := by cbv
  have form : hopelessOption.desugar = .seq (.literal .A) (.alt .nothing .empty) := by cbv
  have form' : noCopies.desugar = .seq (.literal .A) (.star .empty) := by cbv
  obtain ⟨reports, _⟩ := prune_compile {} hopelessOption _ hopeless
  obtain ⟨reports', between⟩ := prune_compile {} noCopies _ plain
  refine ⟨⟨_, hopeless, form, reports.mpr ?_⟩, _, plain, form', ?_, between ?_⟩
  · rw [form]
    rfl
  · rw [← Bool.not_eq_true, reports', form']
    decide
  · rw [form']
    rfl

end Compiler

end IntervalAutomata
