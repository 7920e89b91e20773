import IntervalAutomata.Proofs.Nfa.Path
import IntervalAutomata.Proofs.Regex.Language
import IntervalAutomata.Proofs.Thompson.Block

/-!
From the start of the fragment of an expression to its stop, paths read exactly the words of the
expression. That all words are read is shown by building paths; that no others are, by giving every
state the language of what may still be read from it.
-/

namespace IntervalAutomata

open Computability Std

universe u

variable {α : Type u} [Ord α]

def Label.language : Label α → Language α
  | epsilon => 1
  | symbol i => symbols fun a => i.contains a = true

theorem Path.of_label {ts : List (Transition α)} {p q : State} {label : Label α} {word : List α}
    (edge : ⟨p, label, q⟩ ∈ ts) (read : word ∈ label.language) : Path ts p word q := by
  cases label with
  | epsilon =>
    rw [(Language.mem_one word).mp read]
    exact .of_epsilon edge
  | symbol i =>
    obtain ⟨a, rfl, admits⟩ := read
    exact .symbol edge admits (.refl q)

/-- Whether what may be read after a transition may be read before it, behind its label. -/
def Transition.Extends (futures : State → Language α) (t : Transition α) : Prop :=
  t.label.language * futures t.target ≤ futures t.source

theorem Path.append_mem {ts : List (Transition α)} {p q : State} {word rest : List α}
    (futures : State → Language α) (extending : ∀ t ∈ ts, t.Extends futures)
    (path : Path ts p word q) (member : rest ∈ futures q) : word ++ rest ∈ futures p := by
  induction path with
  | refl q => exact member
  | @epsilon p q _ word edge _ ih =>
    show [] ++ (word ++ rest) ∈ futures p
    exact extending _ edge (Language.append_mem_mul Language.nil_mem_one (ih member))
  | @symbol p q _ i a word edge admits _ ih =>
    show [a] ++ (word ++ rest) ∈ futures p
    exact extending _ edge (Language.append_mem_mul ⟨a, rfl, admits⟩ (ih member))

instance (q : State) (base size : Nat) : Decidable (q.InBlock base size) :=
  inferInstanceAs (Decidable (_ ∧ _))

def patch (base size : Nat) (inside outside : State → Language α) (q : State) : Language α :=
  if q.InBlock base size then inside q else outside q

section Patch

omit [Ord α]

variable {base size : Nat} {inside outside : State → Language α}

theorem patch_inside {q : State} (h : q.InBlock base size) :
    patch base size inside outside q = inside q :=
  if_pos h

theorem patch_outside {q : State} (h : ¬q.InBlock base size) :
    patch base size inside outside q = outside q :=
  if_neg h

def ports (base : Nat) (entry exit : Language α) (q : State) : Language α :=
  if q = ⟨base⟩ then entry else exit

theorem ports_entry (base : Nat) (entry exit : Language α) :
    ports base entry exit ⟨base⟩ = entry :=
  if_pos rfl

theorem ports_exit (base : Nat) (entry exit : Language α) :
    ports base entry exit ⟨base + 1⟩ = exit :=
  if_neg (by simp)

end Patch

namespace Transition.Extends

variable {base size : Nat} {inside outside : State → Language α} {t : Transition α}

theorem patch_inside (extending : t.Extends inside) (source : t.source.InBlock base size)
    (target : t.target.InBlock base size) : t.Extends (patch base size inside outside) := by
  rw [Extends, IntervalAutomata.patch_inside source, IntervalAutomata.patch_inside target]
  exact extending

theorem patch_outside (extending : t.Extends outside) (source : ¬t.source.InBlock base size)
    (target : ¬t.target.InBlock base size) : t.Extends (patch base size inside outside) := by
  rw [Extends, IntervalAutomata.patch_outside source, IntervalAutomata.patch_outside target]
  exact extending

theorem of_epsilon {p q : State} {futures : State → Language α} (less : futures q ≤ futures p) :
    (Fragment.epsilon p q).Extends futures := by
  show 1 * futures q ≤ futures p
  rw [one_mul]
  exact less

end Transition.Extends

namespace Fragment

/-- Whether a fragment reads the words of a language and no others, in two halves. -/
structure Reads (f : Fragment α) (base : Nat) (l : Language α) : Prop where
  within : f.Within base
  path : ∀ word ∈ l, Path f.transitions f.start word f.stop
  futures : ∀ after : Language α, ∃ futures : State → Language α,
    futures f.start = l * after ∧ futures f.stop = after ∧ ∀ t ∈ f.transitions, t.Extends futures

theorem reads_ofLabels (base : Nat) (labels : List (Label α)) :
    (ofLabels base labels).Reads base (labels.map Label.language).sum where
  within := within_ofLabels base labels
  path := by
    intro word member
    obtain ⟨l, inSum, read⟩ := (Core.mem_sum _ word).mp member
    obtain ⟨label, inLabels, rfl⟩ := List.mem_map.mp inSum
    exact .of_label (List.mem_map_of_mem inLabels) read
  futures := by
    intro after
    refine ⟨ports base ((labels.map Label.language).sum * after) after, ports_entry ..,
      ports_exit .., ?_⟩
    intro t member
    obtain ⟨label, inLabels, rfl⟩ := List.mem_map.mp member
    have summand : label.language ≤ (labels.map Label.language).sum := fun word read =>
      (Core.mem_sum _ word).mpr ⟨_, List.mem_map_of_mem inLabels, read⟩
    simp only [Transition.Extends, ports_entry, ports_exit]
    grw [summand]

theorem reads_ofLabel (base : Nat) (label : Label α) :
    (ofLabels base [label]).Reads base label.language := by
  simpa using reads_ofLabels base [label]

theorem Reads.series {f g : Fragment α} {base : Nat} {l m : Language α} (front : f.Reads base l)
    (back : g.Reads (base + f.size) m) : (f.series g).Reads base (l * m) where
  within := front.within.series back.within
  path := by
    intro word member
    obtain ⟨first, inFirst, second, inSecond, rfl⟩ := Language.mem_mul.mp member
    have link : epsilon f.stop g.start ∈ (f.series g).transitions := mem_series.mpr (by simp)
    have entering : Path (f.series g).transitions f.start first f.stop :=
      (front.path first inFirst).mono (subset_series_front f g)
    have leaving : Path (f.series g).transitions g.start second g.stop :=
      (back.path second inSecond).mono (subset_series_back f g)
    exact entering.append (.epsilon link leaving)
  futures := by
    intro after
    obtain ⟨futuresBack, startBack, stopBack, extendsBack⟩ := back.futures after
    obtain ⟨futuresFront, startFront, stopFront, extendsFront⟩ := front.futures (m * after)
    refine ⟨patch base f.size futuresFront futuresBack, ?_, ?_, ?_⟩
    · show patch base f.size futuresFront futuresBack f.start = _
      rw [patch_inside front.within.start, startFront, mul_assoc]
    · show patch base f.size futuresFront futuresBack g.stop = _
      rw [patch_outside back.within.stop.not_front, stopBack]
    · intro t member
      rcases mem_series.mp member with inFront | inBack | rfl
      · have ends := front.within.ends t inFront
        exact (extendsFront t inFront).patch_inside ends.1 ends.2
      · have ends := back.within.ends t inBack
        exact (extendsBack t inBack).patch_outside ends.1.not_front ends.2.not_front
      · apply Transition.Extends.of_epsilon
        rw [patch_inside front.within.stop, patch_outside back.within.start.not_front, stopFront,
          startBack]

theorem Reads.branch {f g : Fragment α} {base : Nat} {l m : Language α}
    (front : f.Reads (base + 2) l) (back : g.Reads (base + 2 + f.size) m) :
    (branch base f g).Reads base (l + m) where
  within := front.within.branch back.within
  path := by
    intro word member
    rcases (Language.mem_add l m word).mp member with inFirst | inSecond
    · have entering : epsilon ⟨base⟩ f.start ∈ (Fragment.branch base f g).transitions :=
        mem_branch.mpr (by simp)
      have leaving : epsilon f.stop ⟨base + 1⟩ ∈ (Fragment.branch base f g).transitions :=
        mem_branch.mpr (by simp)
      exact .through entering
        ((front.path word inFirst).mono (subset_branch_front base f g)) leaving
    · have entering : epsilon ⟨base⟩ g.start ∈ (Fragment.branch base f g).transitions :=
        mem_branch.mpr (by simp)
      have leaving : epsilon g.stop ⟨base + 1⟩ ∈ (Fragment.branch base f g).transitions :=
        mem_branch.mpr (by simp)
      exact .through entering
        ((back.path word inSecond).mono (subset_branch_back base f g)) leaving
  futures := by
    intro after
    obtain ⟨futuresFront, startFront, stopFront, extendsFront⟩ := front.futures after
    obtain ⟨futuresBack, startBack, stopBack, extendsBack⟩ := back.futures after
    let futures := patch (base + 2) f.size futuresFront
      (patch (base + 2 + f.size) g.size futuresBack (ports base ((l + m) * after) after))
    have atEntry : futures ⟨base⟩ = (l + m) * after :=
      ((patch_outside (State.not_inBlock_of_lt (by simp))).trans
        (patch_outside (State.not_inBlock_of_lt (by simp; omega)))).trans (ports_entry ..)
    have atExit : futures ⟨base + 1⟩ = after :=
      ((patch_outside (State.not_inBlock_of_lt (by simp))).trans
        (patch_outside (State.not_inBlock_of_lt (by simp; omega)))).trans (ports_exit ..)
    have inFront : ∀ q : State, q.InBlock (base + 2) f.size → futures q = futuresFront q :=
      fun q h => patch_inside h
    have inBack : ∀ q : State, q.InBlock (base + 2 + f.size) g.size →
        futures q = futuresBack q :=
      fun q h => (patch_outside h.not_front).trans (patch_inside h)
    refine ⟨futures, atEntry, atExit, ?_⟩
    intro t member
    rcases mem_branch.mp member with first | second | rfl | rfl | rfl | rfl
    · have ends := front.within.ends t first
      exact (extendsFront t first).patch_inside ends.1 ends.2
    · have ends := back.within.ends t second
      exact ((extendsBack t second).patch_inside ends.1 ends.2).patch_outside
        ends.1.not_front ends.2.not_front
    · apply Transition.Extends.of_epsilon
      rw [atEntry, inFront _ front.within.start, startFront, add_mul]
      exact le_sup_left
    · apply Transition.Extends.of_epsilon
      rw [atEntry, inBack _ back.within.start, startBack, add_mul]
      exact le_sup_right
    · apply Transition.Extends.of_epsilon
      rw [atExit, inFront _ front.within.stop, stopFront]
    · apply Transition.Extends.of_epsilon
      rw [atExit, inBack _ back.within.stop, stopBack]

theorem Reads.rounds {f : Fragment α} {base : Nat} {l : Language α} (part : f.Reads (base + 2) l)
    (n : Nat) (word : List α) (member : word ∈ l ^ (n + 1)) :
    Path (Fragment.loop base f).transitions f.start word f.stop := by
  have again : epsilon f.stop f.start ∈ (Fragment.loop base f).transitions :=
    mem_loop.mpr (by simp)
  induction n generalizing word with
  | zero =>
    rw [zero_add, pow_one] at member
    exact (part.path word member).mono (subset_loop base f)
  | succ n ih =>
    rw [pow_succ'] at member
    obtain ⟨first, inPart, rest, inRest, rfl⟩ := Language.mem_mul.mp member
    have once : Path (Fragment.loop base f).transitions f.start first f.stop :=
      (part.path first inPart).mono (subset_loop base f)
    exact once.append (.epsilon again (ih rest inRest))

theorem Reads.loop {f : Fragment α} {base : Nat} {l : Language α} (part : f.Reads (base + 2) l) :
    (loop base f).Reads base l∗ where
  within := part.within.loop
  path := by
    have entering : epsilon ⟨base⟩ f.start ∈ (Fragment.loop base f).transitions :=
      mem_loop.mpr (by simp)
    have skipping : epsilon ⟨base⟩ ⟨base + 1⟩ ∈ (Fragment.loop base f).transitions :=
      mem_loop.mpr (by simp)
    have leaving : epsilon f.stop ⟨base + 1⟩ ∈ (Fragment.loop base f).transitions :=
      mem_loop.mpr (by simp)
    intro word member
    obtain ⟨n, member⟩ := (Core.mem_kstar_iff_pow l word).mp member
    cases n with
    | zero =>
      rw [pow_zero, Language.mem_one] at member
      rw [member]
      exact .of_epsilon skipping
    | succ n => exact .through entering (part.rounds n word member) leaving
  futures := by
    intro after
    obtain ⟨futuresPart, startPart, stopPart, extendsPart⟩ := part.futures (l∗ * after)
    have none : after ≤ l∗ * after := by
      calc after = 1 * after := (one_mul after).symm
        _ ≤ l∗ * after := by grw [one_le_kstar]
    have more : l * (l∗ * after) ≤ l∗ * after := by
      calc l * (l∗ * after) = l * l∗ * after := (mul_assoc _ _ _).symm
        _ ≤ l∗ * after := by grw [mul_kstar_le_kstar]
    let futures := patch (base + 2) f.size futuresPart (ports base (l∗ * after) after)
    have atEntry : futures ⟨base⟩ = l∗ * after :=
      (patch_outside (State.not_inBlock_of_lt (by simp))).trans (ports_entry ..)
    have atExit : futures ⟨base + 1⟩ = after :=
      (patch_outside (State.not_inBlock_of_lt (by simp))).trans (ports_exit ..)
    have atStart : futures f.start = l * (l∗ * after) :=
      (patch_inside part.within.start).trans startPart
    have atStop : futures f.stop = l∗ * after := (patch_inside part.within.stop).trans stopPart
    refine ⟨futures, atEntry, atExit, ?_⟩
    intro t member
    rcases mem_loop.mp member with inPart | rfl | rfl | rfl | rfl
    · have ends := part.within.ends t inPart
      exact (extendsPart t inPart).patch_inside ends.1 ends.2
    · apply Transition.Extends.of_epsilon
      rw [atEntry, atStart]
      exact more
    · apply Transition.Extends.of_epsilon
      rw [atEntry, atExit]
      exact none
    · apply Transition.Extends.of_epsilon
      rw [atStart, atStop]
      exact more
    · apply Transition.Extends.of_epsilon
      rw [atExit, atStop]
      exact none

theorem Reads.path_iff {f : Fragment α} {base : Nat} {l : Language α} (reads : f.Reads base l)
    (word : List α) : Path f.transitions f.start word f.stop ↔ word ∈ l := by
  constructor
  · intro path
    obtain ⟨futures, start, stop, extending⟩ := reads.futures 1
    have member : [] ∈ futures f.stop := by
      rw [stop]
      exact Language.nil_mem_one
    have read := path.append_mem futures extending member
    rw [start, mul_one, List.append_nil] at read
    exact read
  · exact reads.path word

theorem reads_ofCore [TransOrd α] [LawfulEqOrd α] (base : Nat) (core : Core α) :
    (ofCore base core).Reads base core.language := by
  induction core generalizing base with
  | empty => exact reads_ofLabel base .epsilon
  | nothing => exact reads_ofLabels base []
  | literal a =>
    have same : (Label.symbol (.singleton a)).language = (Core.literal a).language := by
      simp only [Label.language, Core.language, Interval.contains_singleton]
    rw [← same]
    exact reads_ofLabel base _
  | range a b =>
    have same : (Label.symbol (.closed a b)).language = (Core.range a b).language := by
      simp only [Label.language, Core.language, Interval.contains_closed]
    rw [← same]
    exact reads_ofLabel base _
  | seq first second ihFirst ihSecond =>
    rw [ofCore_seq, Core.language]
    exact (ihFirst base).series (ihSecond _)
  | alt first second ihFirst ihSecond =>
    rw [ofCore_alt, Core.language]
    exact (ihFirst (base + 2)).branch (ihSecond _)
  | star inner ih =>
    rw [ofCore_star, Core.language]
    exact (ih (base + 2)).loop

end Fragment

end IntervalAutomata
