import IntervalAutomata.Proofs.Thompson.Isolation
import Mathlib

namespace IntervalAutomata

open Std

universe u

variable {α : Type u}

/-- Whether transitions are a single one on a symbol, or at most two and all on epsilon. -/
def FewExits (ts : List (Transition α)) : Prop :=
  (∃ t, ts = [t] ∧ t.label.isEpsilon = false) ∨
    ((∀ t ∈ ts, t.label.isEpsilon = true) ∧ ts.length ≤ 2)

theorem FewExits.of_nodup {ts us : List (Transition α)} (exits : FewExits ts) (nodup : us.Nodup)
    (same : ∀ t, t ∈ us ↔ t ∈ ts) : FewExits us := by
  have fewer : us.length ≤ ts.length := by
    apply List.Subperm.length_le
    exact List.subperm_of_subset nodup fun t member => (same t).mp member
  rcases exits with ⟨t, rfl, symbol⟩ | ⟨epsilons, few⟩
  · left
    have member : t ∈ us := (same t).mpr List.mem_cons_self
    have one : us.length = 1 :=
      Nat.le_antisymm fewer (List.length_pos_of_mem member)
    obtain ⟨u, rfl⟩ := List.length_eq_one_iff.mp one
    rw [List.mem_singleton] at member
    exact ⟨u, rfl, member ▸ symbol⟩
  · right
    exact ⟨fun t member => epsilons t ((same t).mp member), fewer.trans few⟩

def leaving (ts : List (Transition α)) (q : State) : List (Transition α) :=
  ts.filter fun t => t.source = q

def Spares (ts : List (Transition α)) (q : State) : Prop :=
  ∀ t ∈ ts, t.source ≠ q

theorem Spares.append {ts us : List (Transition α)} {q : State} (front : Spares ts q)
    (back : Spares us q) : Spares (ts ++ us) q := by
  intro t member
  rcases List.mem_append.mp member with member | member
  · exact front t member
  · exact back t member

theorem mem_leaving {ts : List (Transition α)} {q : State} {t : Transition α} :
    t ∈ leaving ts q ↔ t ∈ ts ∧ t.source = q := by
  rw [leaving, List.mem_filter, decide_eq_true_eq]

theorem Spares.leaving_eq_nil {ts : List (Transition α)} {q : State} (spares : Spares ts q) :
    leaving ts q = [] := by
  rw [leaving, List.filter_eq_nil_iff]
  intro t member
  simpa using spares t member

theorem fewExits_append {ts us : List (Transition α)} {q : State}
    (apart : Spares ts q ∨ Spares us q) (front : FewExits (leaving ts q))
    (back : FewExits (leaving us q)) : FewExits (leaving (ts ++ us) q) := by
  have split : leaving (ts ++ us) q = leaving ts q ++ leaving us q := List.filter_append ts us
  rw [split]
  rcases apart with spares | spares
  · rwa [spares.leaving_eq_nil, List.nil_append]
  · rwa [spares.leaving_eq_nil, List.append_nil]

theorem fewExits_epsilons {links : List (Transition α)}
    (epsilons : ∀ t ∈ links, t.label.isEpsilon = true) (few : links.length ≤ 2) (q : State) :
    FewExits (leaving links q) := by
  right
  constructor
  · intro t member
    exact epsilons t (mem_leaving.mp member).1
  · exact Nat.le_trans (List.length_filter_le _ links) few

theorem fewExits_wired {ts : List (Transition α)} (links : List (Transition α))
    (exits : ∀ q, FewExits (leaving ts q)) (epsilons : ∀ t ∈ links, t.label.isEpsilon = true)
    (few : links.length ≤ 2) (unused : ∀ t ∈ links, Spares ts t.source) (q : State) :
    FewExits (leaving (ts ++ links) q) := by
  apply fewExits_append _ (exits q) (fewExits_epsilons epsilons few q)
  by_cases linked : ∃ t ∈ links, t.source = q
  · obtain ⟨t, member, rfl⟩ := linked
    exact .inl (unused t member)
  · right
    intro t member same
    exact linked ⟨t, member, same⟩

theorem fewExits_single (t : Transition α) (q : State) : FewExits (leaving [t] q) := by
  cases label : t.label.isEpsilon with
  | true => exact fewExits_epsilons (by simpa using label) (by simp) q
  | false =>
    by_cases own : t.source = q
    · exact .inl ⟨t, by simp [leaving, own], label⟩
    · exact .inr (by simp [leaving, own])

namespace Fragment

structure Shaped (f : Fragment α) (base : Nat) : Prop where
  within : f.Within base
  unentered : ∀ t ∈ f.transitions, t.target ≠ f.start
  unleft : Spares f.transitions f.stop
  exits : ∀ q, FewExits (leaving f.transitions q)

theorem Within.spares {f : Fragment α} {base : Nat} (within : f.Within base) {q : State}
    (outside : ¬q.InBlock base f.size) : Spares f.transitions q := by
  rintro t member rfl
  exact outside (within.ends t member).1

theorem fewExits_pair {ts : List (Transition α)} {p p' : State} (r r' : State)
    (exits : ∀ q, FewExits (leaving ts q)) (one : Spares ts p) (other : Spares ts p') (q : State) :
    FewExits (leaving (ts ++ [epsilon p r, epsilon p' r']) q) := by
  apply fewExits_wired _ exits (by simp [epsilon, Label.isEpsilon]) (by simp)
  exact List.forall_mem_cons.mpr ⟨one, List.forall_mem_singleton.mpr other⟩

theorem shaped_ofLabels (base : Nat) (labels : List (Label α)) (single : labels.length ≤ 1) :
    (ofLabels base labels).Shaped base where
  within := within_ofLabels base labels
  unentered := by
    intro t member
    obtain ⟨label, _, rfl⟩ := List.mem_map.mp member
    simp [ofLabels]
  unleft := by
    intro t member
    obtain ⟨label, _, rfl⟩ := List.mem_map.mp member
    simp [ofLabels]
  exits := by
    intro q
    cases labels with
    | nil => exact fewExits_epsilons (by simp [ofLabels]) (by simp [ofLabels]) q
    | cons label rest =>
      obtain rfl : rest = [] := List.eq_nil_of_length_eq_zero (by simpa using single)
      exact fewExits_single ⟨⟨base⟩, label, ⟨base + 1⟩⟩ q

theorem Shaped.exits_append {f g : Fragment α} {base : Nat} (front : f.Shaped base)
    (back : g.Shaped (base + f.size)) (q : State) :
    FewExits (leaving (f.transitions ++ g.transitions) q) := by
  apply fewExits_append _ (front.exits q) (back.exits q)
  by_cases inFront : q.InBlock base f.size
  · exact .inr (back.within.spares fun inBack => inBack.not_front inFront)
  · exact .inl (front.within.spares inFront)

theorem Shaped.series {f g : Fragment α} {base : Nat} (front : f.Shaped base)
    (back : g.Shaped (base + f.size)) : (f.series g).Shaped base where
  within := front.within.series back.within
  unentered := by
    intro t member
    show t.target ≠ f.start
    rcases mem_series.mp member with inFront | inBack | rfl
    · exact front.unentered t inFront
    · exact (front.within.start.ne (back.within.ends t inBack).2).symm
    · exact (front.within.start.ne back.within.start).symm
  unleft := by
    apply ((front.within.spares back.within.stop.not_front).append back.unleft).append
    intro t member
    rw [List.mem_singleton.mp member]
    exact front.within.stop.ne back.within.stop
  exits := by
    have unused : Spares (f.transitions ++ g.transitions) f.stop := by
      apply front.unleft.append
      exact back.within.spares fun inBack => inBack.not_front front.within.stop
    exact fewExits_wired _ (front.exits_append back) (by simp [epsilon, Label.isEpsilon]) (by simp)
      (by simpa [epsilon] using unused)

theorem Shaped.branch {f g : Fragment α} {base : Nat} (front : f.Shaped (base + 2))
    (back : g.Shaped (base + 2 + f.size)) : (branch base f g).Shaped base where
  within := front.within.branch back.within
  unentered := by
    intro t member
    show t.target ≠ ⟨base⟩
    rcases mem_branch.mp member with inFront | inBack | rfl | rfl | rfl | rfl
    · exact (front.within.ends t inFront).2.ne_of_lt (by omega)
    · exact (back.within.ends t inBack).2.ne_of_lt (by omega)
    · exact front.within.start.ne_of_lt (by omega)
    · exact back.within.start.ne_of_lt (by omega)
    · simp [epsilon]
    · simp [epsilon]
  unleft := by
    intro t member
    show t.source ≠ ⟨base + 1⟩
    rcases mem_branch.mp member with inFront | inBack | rfl | rfl | rfl | rfl
    · exact (front.within.ends t inFront).1.ne_of_lt (by omega)
    · exact (back.within.ends t inBack).1.ne_of_lt (by omega)
    · simp [epsilon]
    · simp [epsilon]
    · exact front.within.stop.ne_of_lt (by omega)
    · exact back.within.stop.ne_of_lt (by omega)
  exits := by
    have outside : ¬State.InBlock ⟨base⟩ (base + 2) f.size ∧
        ¬State.InBlock ⟨base⟩ (base + 2 + f.size) g.size :=
      ⟨State.not_inBlock_of_lt (by simp), State.not_inBlock_of_lt (by simp; omega)⟩
    have atEntry : Spares (f.transitions ++ g.transitions) ⟨base⟩ :=
      (front.within.spares outside.1).append (back.within.spares outside.2)
    have entered := fewExits_pair f.start g.start (front.exits_append back) atEntry atEntry
    have elsewhere : ∀ q : State, q ≠ ⟨base⟩ →
        Spares [epsilon (α := α) ⟨base⟩ f.start, epsilon ⟨base⟩ g.start] q := by
      intro q apart
      simpa [Spares, epsilon] using apart.symm
    have inFront := front.within.stop
    have inBack := back.within.stop
    have split : (Fragment.branch base f g).transitions = f.transitions ++ g.transitions ++
        [epsilon ⟨base⟩ f.start, epsilon ⟨base⟩ g.start] ++
        [epsilon f.stop ⟨base + 1⟩, epsilon g.stop ⟨base + 1⟩] := by
      simp [Fragment.branch]
    -- the links from the entry come first, and then those from the stops, which nothing leaves yet
    rw [split]
    apply fewExits_pair _ _ entered
    · apply (front.unleft.append (back.within.spares _)).append
      · exact elsewhere _ (inFront.ne_of_lt (by omega))
      · exact fun inBack => inBack.not_front inFront
    · apply ((front.within.spares _).append back.unleft).append
      · exact elsewhere _ (inBack.ne_of_lt (by omega))
      · exact inBack.not_front

theorem Shaped.loop {f : Fragment α} {base : Nat} (part : f.Shaped (base + 2)) :
    (loop base f).Shaped base where
  within := part.within.loop
  unentered := by
    intro t member
    show t.target ≠ ⟨base⟩
    rcases mem_loop.mp member with inPart | rfl | rfl | rfl | rfl
    · exact (part.within.ends t inPart).2.ne_of_lt (by omega)
    · exact part.within.start.ne_of_lt (by omega)
    · simp [epsilon]
    · exact part.within.start.ne_of_lt (by omega)
    · simp [epsilon]
  unleft := by
    intro t member
    show t.source ≠ ⟨base + 1⟩
    rcases mem_loop.mp member with inPart | rfl | rfl | rfl | rfl
    · exact (part.within.ends t inPart).1.ne_of_lt (by omega)
    · simp [epsilon]
    · simp [epsilon]
    · exact part.within.stop.ne_of_lt (by omega)
    · exact part.within.stop.ne_of_lt (by omega)
  exits := by
    have atEntry : Spares f.transitions ⟨base⟩ :=
      part.within.spares (State.not_inBlock_of_lt (by simp))
    have entered := fewExits_pair f.start ⟨base + 1⟩ part.exits atEntry atEntry
    have atStop : Spares (f.transitions ++
        [epsilon ⟨base⟩ f.start, epsilon ⟨base⟩ ⟨base + 1⟩]) f.stop := by
      apply part.unleft.append
      simpa [Spares, epsilon] using (part.within.stop.ne_of_lt (by omega)).symm
    have split : (Fragment.loop base f).transitions = f.transitions ++
        [epsilon ⟨base⟩ f.start, epsilon ⟨base⟩ ⟨base + 1⟩] ++
        [epsilon f.stop f.start, epsilon f.stop ⟨base + 1⟩] := by
      simp [Fragment.loop]
    rw [split]
    exact fewExits_pair _ _ entered atStop atStop

theorem shaped_ofCore [Ord α] (base : Nat) (core : Core α) : (ofCore base core).Shaped base := by
  induction core generalizing base with
  | empty => exact shaped_ofLabels base _ (by simp)
  | nothing => exact shaped_ofLabels base _ (by simp)
  | literal a => exact shaped_ofLabels base _ (by simp)
  | range a b => exact shaped_ofLabels base _ (by simp)
  | seq first second ihFirst ihSecond =>
    rw [ofCore_seq]
    exact (ihFirst base).series (ihSecond _)
  | alt first second ihFirst ihSecond =>
    rw [ofCore_alt]
    exact (ihFirst (base + 2)).branch (ihSecond _)
  | star inner ih =>
    rw [ofCore_star]
    exact (ih (base + 2)).loop

end Fragment

namespace Nfa.WellFormed

variable [Ord α] [DecidableEq α] [TransOrd α] {nfa : Nfa α} (wellFormed : nfa.WellFormed)
include wellFormed

omit [TransOrd α] in
theorem not_gains_of_old {f : Fragment α} {t : Transition α} (old : t ∈ nfa.transitions) :
    ¬nfa.Gains (nfa.addFragment f) t.source ∧ ¬nfa.Gains (nfa.addFragment f) t.target := by
  have ends := wellFormed.ends_live _ _ _ ((mem_transitions nfa t).mp old)
  simp [Gains, ends]

theorem fewExits_addFragment {f : Fragment α} (shaped : f.Shaped nfa.slots.size) {q : State}
    (gained : nfa.Gains (nfa.addFragment f) q) :
    FewExits ((nfa.addFragment f).transitionsFrom q) := by
  apply (shaped.exits q).of_nodup ((wellFormed.addFragment f).nodup_transitionsFrom q)
  intro t
  rw [mem_leaving, mem_transitionsFrom, and_comm]
  apply and_congr_left
  rintro rfl
  rw [← mem_transitions, wellFormed.mem_transitions_addFragment]
  exact or_iff_right fun old => (wellFormed.not_gains_of_old old).1 gained

theorem unentered_addFragment {f : Fragment α} (shaped : f.Shaped nfa.slots.size)
    {t : Transition α} (member : t ∈ (nfa.addFragment f).transitions) : t.target ≠ f.start := by
  rcases (wellFormed.mem_transitions_addFragment f t).mp member with old | new
  · intro same
    have started := gains_addFragment shaped.within shaped.within.start
    exact (wellFormed.not_gains_of_old old).2 (same ▸ started)
  · exact shaped.unentered t new

theorem unleft_addFragment {f : Fragment α} (shaped : f.Shaped nfa.slots.size)
    {t : Transition α} (member : t ∈ (nfa.addFragment f).transitions) : t.source ≠ f.stop := by
  rcases (wellFormed.mem_transitions_addFragment f t).mp member with old | new
  · intro same
    have stopped := gains_addFragment shaped.within shaped.within.stop
    exact (wellFormed.not_gains_of_old old).1 (same ▸ stopped)
  · exact shaped.unleft t new

end Nfa.WellFormed

namespace Operation

variable [Ord α] [Alphabet α] [DecidableEq α] [TransOrd α]

/-- No transition enters the start of a construction, none leaves its stop, and each of its states is
    left by one symbol or by at most two epsilons. -/
theorem shaped_construct (operations : List (Operation α)) (compiler : Compiler)
    (regex : Regex α) (built : Construction α)
    (constructed : compiler.construct regex (applyAll ∅ operations) = .ok built) :
    (∀ t ∈ built.nfa.transitions, t.target ≠ built.start) ∧
      (∀ t ∈ built.nfa.transitions, t.source ≠ built.stop) ∧
      ∀ q, (applyAll ∅ operations).Gains built.nfa q → FewExits (built.nfa.transitionsFrom q) := by
  have wellFormed := wellFormed_applyAll Nfa.wellFormed_empty operations
  have shaped := Fragment.shaped_ofCore (applyAll ∅ operations).slots.size regex.desugar
  rw [Compiler.construct_eq_ok constructed]
  exact ⟨fun _ => wellFormed.unentered_addFragment shaped,
    fun _ => wellFormed.unleft_addFragment shaped, fun _ => wellFormed.fewExits_addFragment shaped⟩

def loopOrLetter : Regex Letter :=
  .alt (.star (.string [.B, .C])) (.oneOf true [⟨.C, .D⟩])

theorem shaped_strayStates :
    ∃ built, ({} : Compiler).construct loopOrLetter (applyAll ∅ strayEdits) = .ok built ∧
      built.nfa.transitionsFrom ⟨5⟩ =
        [⟨⟨5⟩, .epsilon, ⟨7⟩⟩, ⟨⟨5⟩, .epsilon, ⟨13⟩⟩] ∧
      (∀ t ∈ built.nfa.transitions, t.target ≠ ⟨5⟩ ∧ t.source ≠ ⟨6⟩) ∧
      ∀ q, (applyAll ∅ strayEdits).Gains built.nfa q → FewExits (built.nfa.transitionsFrom q) := by
  have constructed : ({} : Compiler).construct loopOrLetter (applyAll ∅ strayEdits) =
      .ok ⟨(applyAll ∅ strayEdits).addFragment (.ofCore 5 loopOrLetter.desugar),
        ⟨5⟩, ⟨6⟩⟩ := by cbv
  obtain ⟨unentered, unleft, exits⟩ := shaped_construct strayEdits {} loopOrLetter _ constructed
  exact ⟨_, constructed, by cbv, fun t member => ⟨unentered t member, unleft t member⟩, exits⟩

end Operation

end IntervalAutomata
