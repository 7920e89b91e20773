import IntervalAutomata.Proofs.Thompson.Compile
import Mathlib.Data.List.Pairwise

namespace IntervalAutomata

open Std

universe u

variable {α : Type u} [Ord α]

structure Piece (α : Type u) [Ord α] where
  base : Nat
  fragment : Fragment α
  language : Language α
  reads : fragment.Reads base language

namespace Piece

def Holds (piece : Piece α) (q : State) : Prop :=
  q.InBlock piece.base piece.fragment.size

def Apart (piece other : Piece α) : Prop :=
  ∀ q, piece.Holds q → ¬other.Holds q

def transitions (hub : State) (piece : Piece α) : List (Transition α) :=
  piece.fragment.transitions ++ [Fragment.epsilon hub piece.fragment.start]

def wiring (hub : State) (pieces : List (Piece α)) : List (Transition α) :=
  pieces.flatMap (transitions hub)

theorem mem_wiring {hub : State} {pieces : List (Piece α)} {t : Transition α} :
    t ∈ wiring hub pieces ↔ ∃ piece ∈ pieces,
      t ∈ piece.fragment.transitions ∨ t = Fragment.epsilon hub piece.fragment.start := by
  simp [wiring, transitions]

instance : Symm (Apart (α := α)) where
  symm _ _ apart q inOther inPiece := apart q inPiece inOther

theorem path_wiring_iff (hub : State) (pieces : List (Piece α)) (apart : pieces.Pairwise Apart)
    (outside : ∀ piece ∈ pieces, ¬piece.Holds hub) (piece : Piece α) (member : piece ∈ pieces)
    (word : List α) :
    Path (wiring hub pieces) hub word piece.fragment.stop ↔ word ∈ piece.language := by
  constructor
  · intro path
    obtain ⟨inner, start, stop, extending⟩ := piece.reads.futures 1
    let futures := patch piece.base piece.fragment.size inner
      fun q => if q = hub then piece.language else 0
    have within := piece.reads.within
    have atHub : futures hub = piece.language :=
      (patch_outside (outside piece member)).trans (if_pos rfl)
    have elsewhere : ∀ other ∈ pieces, other ≠ piece → ∀ q, other.Holds q → futures q = 0 := by
      intro other inPieces differ q holds
      have separate := apart.forall inPieces member differ
      have foreign : q ≠ hub := fun same => outside other inPieces (same ▸ holds)
      exact (patch_outside (separate q holds)).trans (if_neg foreign)
    have extended : ∀ t ∈ wiring hub pieces, t.Extends futures := by
      intro t wired
      obtain ⟨other, inPieces, own⟩ := mem_wiring.mp wired
      by_cases same : other = piece
      · rw [same] at own
        rcases own with inside | rfl
        · have ends := within.ends t inside
          exact (extending t inside).patch_inside ends.1 ends.2
        · apply Transition.Extends.of_epsilon
          have atStart : futures piece.fragment.start = inner piece.fragment.start :=
            patch_inside within.start
          rw [atHub, atStart, start, mul_one]
      · have dead : futures t.target = 0 := by
          apply elsewhere other inPieces same
          rcases own with inside | rfl
          · exact (other.reads.within.ends t inside).2
          · exact other.reads.within.start
        rw [Transition.Extends, dead, mul_zero]
        exact bot_le
    have done : [] ∈ futures piece.fragment.stop := by
      have atStop : futures piece.fragment.stop = inner piece.fragment.stop :=
        patch_inside within.stop
      rw [atStop, stop]
      exact Language.nil_mem_one
    have read := path.append_mem futures extended done
    rw [atHub, List.append_nil] at read
    exact read
  · intro read
    have link : Fragment.epsilon hub piece.fragment.start ∈ wiring hub pieces :=
      mem_wiring.mpr ⟨piece, member, .inr rfl⟩
    have path : Path (wiring hub pieces) piece.fragment.start word piece.fragment.stop :=
      (piece.reads.path word read).mono fun t inside =>
        mem_wiring.mpr ⟨piece, member, .inl inside⟩
    exact .epsilon link path

end Piece

structure Nfa.Wired (nfa : Nfa α) (hub : State) (pieces : List (Piece α)) : Prop where
  wellFormed : nfa.WellFormed
  initial : nfa.initial = some hub
  live : nfa.contains hub = true
  held : ∀ piece ∈ pieces, ∀ q, piece.Holds q → nfa.contains q = true
  apart : pieces.Pairwise Piece.Apart
  outside : ∀ piece ∈ pieces, ¬piece.Holds hub
  accepting : ∀ q, q ∈ nfa.accepting ↔ ∃ piece ∈ pieces, piece.fragment.stop = q
  transitions : ∀ t, t ∈ nfa.transitions ↔ t ∈ Piece.wiring hub pieces

def Nfa.addPiece [DecidableEq α] (nfa : Nfa α) (hub : State) (f : Fragment α) : Nfa α :=
  (((nfa.addFragment f).addTransition (Fragment.epsilon hub f.start)).1.addAccepting f.stop).1

namespace Nfa.Wired

variable [TransOrd α] {nfa : Nfa α} {hub : State} {pieces : List (Piece α)}
  (wired : nfa.Wired hub pieces)
include wired

theorem mem_run_iff (piece : Piece α) (member : piece ∈ pieces) (word : List α) :
    piece.fragment.stop ∈ nfa.run (nfa.epsilonClosure [hub]) word ↔ word ∈ piece.language := by
  rw [wired.wellFormed.mem_run]
  simp only [List.mem_singleton, exists_eq_left]
  rw [Path.congr wired.transitions,
    Piece.path_wiring_iff hub pieces wired.apart wired.outside piece member]

theorem accepts_iff (word : List α) :
    nfa.accepts word = true ↔ ∃ piece ∈ pieces, word ∈ piece.language := by
  rw [wired.wellFormed.accepts_iff_path, wired.initial]
  simp only [Option.mem_some_iff, exists_eq_left', Path.congr wired.transitions, wired.accepting]
  constructor
  · intro h
    obtain ⟨_, ⟨piece, member, rfl⟩, path⟩ := h
    exact ⟨piece, member, (Piece.path_wiring_iff hub pieces wired.apart wired.outside piece member
      word).mp path⟩
  · intro h
    obtain ⟨piece, member, read⟩ := h
    exact ⟨_, ⟨piece, member, rfl⟩, (Piece.path_wiring_iff hub pieces wired.apart wired.outside
      piece member word).mpr read⟩

variable [DecidableEq α]

omit [TransOrd α] in
theorem contains_addPiece (f : Fragment α) (within : f.Within nfa.slots.size) (q : State) :
    (nfa.addPiece hub f).contains q = true ↔
      nfa.contains q = true ∨ q.InBlock nfa.slots.size f.size := by
  rw [Nfa.addPiece, contains_addAccepting, contains_addTransition,
    nfa.contains_addFragment f within]
  constructor
  · intro h
    rcases h with (old | rfl | rfl) | rfl
    · exact old
    · exact .inl wired.live
    · exact .inr within.start
    · exact .inr within.stop
  · intro h
    exact .inl (.inl h)

theorem addPiece (piece : Piece α) (next : piece.base = nfa.slots.size) :
    (nfa.addPiece hub piece.fragment).Wired hub (pieces ++ [piece]) := by
  obtain ⟨base, f, l, reads⟩ := piece
  subst next
  have added := wired.wellFormed.addFragment f
  have linked := added.addTransition (Fragment.epsilon hub f.start)
  have contains := wired.contains_addPiece f reads.within
  have fresh : ∀ q, nfa.contains q = true → ¬q.InBlock nfa.slots.size f.size := fun q known =>
    State.not_inBlock_of_lt (index_lt_of_contains nfa q known)
  have members : ∀ other : Piece α, other ∈ pieces ++ [⟨nfa.slots.size, f, l, reads⟩] ↔
      other ∈ pieces ∨ other = ⟨nfa.slots.size, f, l, reads⟩ := by simp
  refine ⟨linked.addAccepting f.stop, ?_, ?_, ?_, ?_, ?_, ?_, ?_⟩
  · rw [Nfa.addPiece, initial_addAccepting, (WellFormed.marks_addTransition _ _).1,
      (WellFormed.marks_addFragment nfa f).1, wired.initial]
  · exact (contains hub).mpr (.inl wired.live)
  · intro other member q holds
    rcases (members other).mp member with old | rfl
    · exact (contains q).mpr (.inl (wired.held other old q holds))
    · exact (contains q).mpr (.inr holds)
  · refine List.pairwise_append.mpr ⟨wired.apart, List.pairwise_singleton _ _, ?_⟩
    intro other old new single q holds
    rw [List.mem_singleton.mp single]
    exact fresh q (wired.held other old q holds)
  · intro other member
    rcases (members other).mp member with old | rfl
    · exact wired.outside other old
    · exact fresh hub wired.live
  · intro q
    rw [Nfa.addPiece, mem_accepting_addAccepting, (WellFormed.marks_addTransition _ _).2,
      (WellFormed.marks_addFragment nfa f).2, wired.accepting]
    simp only [members, or_and_right, exists_or, exists_eq_left]
    rw [or_comm, eq_comm (a := q)]
  · intro t
    rw [Nfa.addPiece, mem_transitions_addAccepting, added.mem_transitions_addTransition,
      wired.wellFormed.mem_transitions_addFragment, wired.transitions]
    simp only [Piece.mem_wiring, members, or_and_right, exists_or, exists_eq_left, or_assoc]

end Nfa.Wired

namespace Compiler

variable [Alphabet α] [DecidableEq α]

/-- Adds expressions one after another, each led to from the hub by an epsilon transition and
    accepting at its stop, and gives the stops. -/
def addTokens (compiler : Compiler) (hub : State) (nfa : Nfa α) :
    List (Regex α) → Except (Error α) (Nfa α × List State)
  | [] => .ok (nfa, [])
  | regex :: rest =>
    match compiler.construct regex nfa with
    | .error e => .error e
    | .ok built =>
      let linked := (built.nfa.addTransition ⟨hub, .epsilon, built.start⟩).1
      match addTokens compiler hub (linked.addAccepting built.stop).1 rest with
      | .error e => .error e
      | .ok (nfa, stops) => .ok (nfa, built.stop :: stops)

def hubOnly : Nfa α :=
  (∅ : Nfa α).newState.1.setInitial (∅ : Nfa α).newState.2

theorem addTokens_cons_eq_ok {compiler : Compiler} {hub : State} {nfa final : Nfa α}
    {regex : Regex α} {rest : List (Regex α)} {stops : List State}
    (added : compiler.addTokens hub nfa (regex :: rest) = .ok (final, stops)) :
    ∃ others, stops = (Fragment.ofCore nfa.slots.size regex.desugar).stop :: others ∧
      compiler.addTokens hub (nfa.addPiece hub (.ofCore nfa.slots.size regex.desugar)) rest =
        .ok (final, others) := by
  rw [addTokens] at added
  cases constructed : compiler.construct regex nfa with
  | error e =>
    rw [constructed] at added
    contradiction
  | ok built =>
    rw [constructed, construct_eq_ok constructed] at added
    change (match compiler.addTokens hub
      (nfa.addPiece hub (.ofCore nfa.slots.size regex.desugar)) rest with
      | .error e => _
      | .ok (nfa, stops) => _) = _ at added
    cases later : compiler.addTokens hub
      (nfa.addPiece hub (.ofCore nfa.slots.size regex.desugar)) rest with
    | error e =>
      rw [later] at added
      contradiction
    | ok result =>
      rw [later] at added
      obtain ⟨rfl, rfl⟩ := Prod.mk.inj (Except.ok.inj added)
      exact ⟨_, rfl, rfl⟩

omit [Alphabet α] [DecidableEq α] in
theorem wired_hubOnly [TransOrd α] : (hubOnly : Nfa α).Wired (∅ : Nfa α).newState.2 [] := by
  have fresh : (∅ : Nfa α).newState.1.WellFormed := by
    rw [Nfa.newState_eq]
    exact Nfa.wellFormed_empty.newStates 1
  refine ⟨fresh.setInitial _, rfl, ?_, by simp, List.Pairwise.nil, by simp, ?_, ?_⟩
  · exact (Nfa.contains_setInitial _ _ _).mpr (.inr rfl)
  · intro q
    rw [hubOnly, Nfa.setInitial, Nfa.accepting_ensure]
    simp [Nfa.newState]
  · intro t
    rw [hubOnly, Nfa.mem_transitions_setInitial, Nfa.newState_eq,
      Nfa.mem_transitions_of_edges_eq (Nfa.edges_newStates ∅ 1)]
    simp [Piece.wiring]

variable [LawfulAlphabet α]

theorem exists_pieces (compiler : Compiler) (hub : State) (regexes : List (Regex α))
    (ordered : ∀ regex ∈ regexes, regex.Ordered) (nfa final : Nfa α) (stops : List State)
    (added : compiler.addTokens hub nfa regexes = .ok (final, stops)) (before : List (Piece α))
    (wired : nfa.Wired hub before) :
    ∃ pieces, final.Wired hub (before ++ pieces) ∧
      List.Forall₂ (fun regex piece => piece.language = regex.language) regexes pieces ∧
      stops = pieces.map (·.fragment.stop) := by
  induction regexes generalizing nfa stops before with
  | nil =>
    obtain ⟨rfl, rfl⟩ := Prod.mk.inj (Except.ok.inj added)
    exact ⟨[], by rwa [List.append_nil], .nil, rfl⟩
  | cons regex rest ih =>
    obtain ⟨others, rfl, later⟩ := addTokens_cons_eq_ok added
    let piece : Piece α := ⟨nfa.slots.size, .ofCore nfa.slots.size regex.desugar,
      regex.desugar.language, Fragment.reads_ofCore _ _⟩
    obtain ⟨pieces, whole, languages, rfl⟩ := ih
      (fun other member => ordered other (List.mem_cons_of_mem regex member)) _ _ later _
      (wired.addPiece piece rfl)
    refine ⟨piece :: pieces, ?_, .cons ?_ languages, rfl⟩
    · rwa [List.append_assoc] at whole
    · exact regex.language_desugar (ordered regex List.mem_cons_self)

omit [LawfulAlphabet α] [DecidableEq α] [Alphabet α] in
theorem exists_match_iff {regexes : List (Regex α)} {pieces : List (Piece α)}
    (languages : List.Forall₂ (fun regex piece => piece.language = regex.language) regexes pieces)
    (word : List α) :
    (∃ piece ∈ pieces, word ∈ piece.language) ↔ ∃ regex ∈ regexes, word ∈ regex.language := by
  induction languages with
  | nil => simp
  | cons same _ ih => simp [same, ih]

/-- Tokens that share an automaton stay distinguishable: after a word, the automaton may be at the
    stop of just the expressions that match it. -/
theorem run_addTokens_iff (compiler : Compiler) (regexes : List (Regex α))
    (ordered : ∀ regex ∈ regexes, regex.Ordered) (nfa : Nfa α) (stops : List State)
    (added : compiler.addTokens (∅ : Nfa α).newState.2 hubOnly regexes = .ok (nfa, stops))
    (word : List α) :
    List.Forall₂ (fun regex stop =>
      stop ∈ nfa.run (nfa.epsilonClosure [(∅ : Nfa α).newState.2]) word ↔ word ∈ regex.language)
        regexes stops ∧
      (nfa.accepts word = true ↔ ∃ regex ∈ regexes, word ∈ regex.language) := by
  obtain ⟨pieces, wired, languages, rfl⟩ :=
    exists_pieces compiler _ regexes ordered _ _ _ added [] wired_hubOnly
  rw [List.nil_append] at wired
  obtain ⟨lengths, same⟩ := List.forall₂_iff_zip.mp languages
  constructor
  · rw [List.forall₂_map_right_iff]
    refine List.forall₂_iff_zip.mpr ⟨lengths, ?_⟩
    intro regex piece pair
    rw [wired.mem_run_iff piece (List.of_mem_zip pair).2, same pair]
  · rw [wired.accepts_iff, exists_match_iff languages]

def overlappingTokens : List (Regex Letter) :=
  [.plus (.range .A .C), .literal .A, .empty]

def overlappingNfa : Nfa Letter :=
  ((hubOnly.addPiece ⟨0⟩ (.ofCore 1 (Regex.plus (.range .A .C)).desugar)).addPiece ⟨0⟩
    (.ofCore 7 (.literal .A))).addPiece ⟨0⟩ (.ofCore 9 .empty)

theorem run_overlappingTokens :
    ({} : Compiler).addTokens (∅ : Nfa Letter).newState.2 hubOnly overlappingTokens =
        .ok (overlappingNfa, [⟨4⟩, ⟨8⟩, ⟨10⟩]) ∧
      (overlappingNfa.run (overlappingNfa.epsilonClosure [⟨0⟩]) [.A]).toList =
        [⟨2⟩, ⟨3⟩, ⟨4⟩, ⟨5⟩, ⟨8⟩] ∧
      [.A] ∈ (Regex.plus (.range Letter.A .C)).language ∧
      [.A] ∈ (Regex.literal Letter.A).language ∧ [.A] ∉ (Regex.empty : Regex Letter).language := by
  have ordered : ∀ regex ∈ overlappingTokens, regex.Ordered := by
    simp [overlappingTokens, Regex.Ordered, Regex.EveryClass]
  have added : ({} : Compiler).addTokens (∅ : Nfa Letter).newState.2 hubOnly overlappingTokens =
      .ok (overlappingNfa, [⟨4⟩, ⟨8⟩, ⟨10⟩]) := by cbv
  have reached : (overlappingNfa.run (overlappingNfa.epsilonClosure [⟨0⟩]) [.A]).toList =
      [⟨2⟩, ⟨3⟩, ⟨4⟩, ⟨5⟩, ⟨8⟩] := by cbv
  have member : ∀ q, q ∈ overlappingNfa.run (overlappingNfa.epsilonClosure [⟨0⟩]) [.A] ↔
      q ∈ [⟨2⟩, ⟨3⟩, ⟨4⟩, ⟨5⟩, ⟨8⟩] := by
    intro q
    rw [← TreeSet.mem_toList, reached]
  obtain ⟨told, _⟩ := run_addTokens_iff {} overlappingTokens ordered overlappingNfa _ added [.A]
  simp only [overlappingTokens, List.forall₂_cons] at told
  obtain ⟨first, second, third, _⟩ := told
  refine ⟨added, reached, first.mp ?_, second.mp ?_, mt third.mpr ?_⟩
  · exact (member ⟨4⟩).mpr (by decide)
  · exact (member ⟨8⟩).mpr (by decide)
  · exact mt (member ⟨10⟩).mp (by decide)

end Compiler

end IntervalAutomata
