import IntervalAutomata.Proofs.Nfa.Place
import Mathlib.Logic.Basic

namespace IntervalAutomata.Edges

open Std

universe u

variable {α : Type u}

theorem symbol_mem_toList (edges : Edges α) (i : Interval α) (q : State) :
    (.symbol i, q) ∈ edges.toList ↔ ⟨i, q⟩ ∈ edges.symbols.toList := by
  simp only [toList, List.mem_append, List.mem_map, Prod.mk.injEq, Label.symbol.injEq, reduceCtorEq,
    false_and, and_false, exists_false, or_false]
  constructor
  · intro h
    obtain ⟨e, member, rfl, rfl⟩ := h
    exact member
  · intro member
    exact ⟨_, member, rfl, rfl⟩

theorem epsilon_mem_toList (edges : Edges α) (q : State) :
    (.epsilon, q) ∈ edges.toList ↔ q ∈ edges.epsilons := by
  simp [toList]

def keeping (edges : Edges α) (keep : Label α → State → Bool) : Edges α where
  symbols := edges.symbols.filter fun e => keep (.symbol e.interval) e.target
  epsilons := edges.epsilons.filter (keep .epsilon)

theorem toList_keeping (edges : Edges α) (keep : Label α → State → Bool) :
    (edges.keeping keep).toList = edges.toList.filter fun edge => keep edge.1 edge.2 := by
  simp only [toList, keeping, Array.toList_filter, List.filter_append, List.filter_map]
  rfl

theorem mem_toList_keeping (edges : Edges α) (keep : Label α → State → Bool) (label : Label α)
    (q : State) :
    (label, q) ∈ (edges.keeping keep).toList ↔ (label, q) ∈ edges.toList ∧ keep label q = true := by
  rw [toList_keeping, List.mem_filter]

theorem keeping_eq_self {edges : Edges α} {keep : Label α → State → Bool}
    (all : ∀ label q, (label, q) ∈ edges.toList → keep label q = true) :
    edges.keeping keep = edges := by
  refine congrArg₂ Edges.mk (Array.toList_inj.mp ?_) ?_
  · rw [Array.toList_filter, List.filter_eq_self]
    exact fun e member => all _ _ ((symbol_mem_toList edges _ _).mpr member)
  · rw [List.filter_eq_self]
    exact fun q member => all _ _ ((epsilon_mem_toList edges q).mpr member)

theorem keeping_none (edges : Edges α) : edges.keeping (fun _ _ => false) = {} := by
  simp [keeping]

theorem dropTargets_eq_keeping (edges : Edges α) (doomed : StateSet) :
    edges.dropTargets doomed = edges.keeping fun _ q => q ∉ doomed := rfl

theorem mem_toList_dropTargets (edges : Edges α) (doomed : StateSet) (label : Label α)
    (q : State) :
    (label, q) ∈ (edges.dropTargets doomed).toList ↔ (label, q) ∈ edges.toList ∧ q ∉ doomed := by
  rw [dropTargets_eq_keeping, mem_toList_keeping, decide_eq_true_eq]

variable [Ord α]

structure WellFormed (edges : Edges α) : Prop where
  ascending : Ascending edges.symbols.toList
  nodup : edges.symbols.toList.Nodup
  nodupEpsilons : edges.epsilons.Nodup

theorem wellFormed_empty : WellFormed ({} : Edges α) :=
  ⟨List.Pairwise.nil, List.nodup_nil, List.nodup_nil⟩

theorem WellFormed.nodup_toList {edges : Edges α} (wellFormed : edges.WellFormed) :
    edges.toList.Nodup := by
  apply List.nodup_append.mpr
  refine ⟨?_, ?_, ?_⟩
  · apply List.Pairwise.map _ _ wellFormed.nodup
    intro e f differ same
    cases e
    cases f
    simp_all
  · apply List.Pairwise.map _ _ wellFormed.nodupEpsilons
    intro p q differ same
    simp_all
  · intro x symbol y epsilon same
    obtain ⟨e, _, rfl⟩ := List.mem_map.mp symbol
    obtain ⟨q, _, rfl⟩ := List.mem_map.mp epsilon
    simp at same

theorem WellFormed.keeping {edges : Edges α} (wellFormed : edges.WellFormed)
    (keep : Label α → State → Bool) : (edges.keeping keep).WellFormed where
  ascending := by
    simp only [Edges.keeping, Array.toList_filter]
    exact wellFormed.ascending.filter _
  nodup := by
    simp only [Edges.keeping, Array.toList_filter]
    exact wellFormed.nodup.filter _
  nodupEpsilons := wellFormed.nodupEpsilons.filter _

variable [TransOrd α]

theorem Parted.not_mem_front {edge : SymbolEdge α} {front run back : List (SymbolEdge α)}
    (parted : Parted edge front run back) : edge ∉ front := by
  intro member
  have less := parted.below edge member
  have level : compareStart edge edge = .eq := ReflCmp.compare_self
  simp [level] at less

theorem Parted.not_mem_back {edge : SymbolEdge α} {front run back : List (SymbolEdge α)}
    (parted : Parted edge front run back) : edge ∉ back := by
  intro member
  have greater := parted.above edge member
  have level : compareStart edge edge = .eq := ReflCmp.compare_self
  simp [level] at greater

theorem Parted.ascending_insert {edge : SymbolEdge α} {front run back : List (SymbolEdge α)}
    (parted : Parted edge front run back) (ascending : Ascending (front ++ run ++ back)) :
    Ascending (front ++ run ++ edge :: back) := by
  obtain ⟨low, high, across⟩ := List.pairwise_append.mp ascending
  refine List.pairwise_append.mpr ⟨low, List.pairwise_cons.mpr ⟨?_, high⟩, ?_⟩
  · intro e member
    exact Ordering.isLE_of_eq_lt (OrientedCmp.lt_of_gt (parted.above e member))
  · intro e member f inRest
    rcases List.mem_cons.mp inRest with same | inBack
    · rw [same]
      rcases List.mem_append.mp member with inFront | inRun
      · exact Ordering.isLE_of_eq_lt (parted.below e inFront)
      · exact Ordering.isLE_of_eq_eq (parted.level e inRun)
    · exact across e member f inBack

theorem insertIdx_length_append {β : Type u} (xs ys : List β) (x : β) :
    (xs ++ ys).insertIdx xs.length x = xs ++ x :: ys := by
  induction xs with
  | nil => rfl
  | cons first rest ih => simpa using ih

theorem toList_insertIdxIfInBounds {β : Type u} (xs : Array β) (i : Nat) (x : β) :
    (xs.insertIdxIfInBounds i x).toList = xs.toList.insertIdx i x := by
  unfold Array.insertIdxIfInBounds
  split
  · exact Array.toList_insertIdx _
  · rename_i beyond
    rw [List.insertIdx_of_length_lt]
    simpa using beyond

variable [DecidableEq α]

theorem place_exact_iff (symbols : Array (SymbolEdge α)) (edge : SymbolEdge α)
    (ascending : Ascending symbols.toList) :
    (place symbols edge).exact = true ↔ edge ∈ symbols.toList := by
  obtain ⟨front, run, back, split, parted, position⟩ := exists_parted_place symbols edge ascending
  rw [position, split]
  simp only [List.mem_append, parted.not_mem_front, parted.not_mem_back, false_or, or_false]
  unfold positionIn
  cases found : run.idxOf? edge with
  | none => simpa using found
  | some offset =>
    have member := List.isSome_idxOf? (l := run) (a := edge)
    simpa [found] using member

theorem toList_insert_place (symbols : Array (SymbolEdge α)) (edge : SymbolEdge α)
    (ascending : Ascending symbols.toList) (missing : edge ∉ symbols.toList) :
    ∃ front run back, symbols.toList = front ++ run ++ back ∧ Parted edge front run back ∧
      (symbols.insertIdxIfInBounds (place symbols edge).index edge).toList =
        front ++ run ++ edge :: back := by
  obtain ⟨front, run, back, split, parted, position⟩ := exists_parted_place symbols edge ascending
  refine ⟨front, run, back, split, parted, ?_⟩
  have absent : run.idxOf? edge = none := by
    rw [List.idxOf?_eq_none_iff]
    intro inRun
    exact missing (by simp [split, inRun])
  rw [toList_insertIdxIfInBounds, position, split]
  simp only [positionIn, absent, ← List.length_append]
  exact insertIdx_length_append (front ++ run) back edge

theorem toList_erase_place (symbols : Array (SymbolEdge α)) (edge : SymbolEdge α)
    (ascending : Ascending symbols.toList) (member : edge ∈ symbols.toList) :
    (symbols.eraseIdxIfInBounds (place symbols edge).index).toList =
      symbols.toList.erase edge := by
  obtain ⟨front, run, back, split, parted, position⟩ := exists_parted_place symbols edge ascending
  have inRun : edge ∈ run := by
    rw [split] at member
    simpa [parted.not_mem_front, parted.not_mem_back] using member
  rw [Array.toList_eraseIdxIfInBounds, position, split]
  symm
  apply List.erase_eq_eraseIdx_of_idxOf
  have offset : run.idxOf? edge = some (run.idxOf edge) :=
    List.findIdx?_eq_some_iff_findIdx_eq.mpr ⟨List.idxOf_lt_length_of_mem inRun, rfl⟩
  simp only [List.append_assoc, List.idxOf_append, parted.not_mem_front, inRun, if_false, if_true,
    positionIn, offset, Nat.add_comm]

theorem insert?_cases (edges : Edges α) (wellFormed : edges.WellFormed) (label : Label α)
    (target : State) :
    (edges.insert? label target = none ∧ (label, target) ∈ edges.toList) ∨
      ∃ larger, edges.insert? label target = some larger ∧ (label, target) ∉ edges.toList ∧
        larger.WellFormed ∧
        ∀ l q, (l, q) ∈ larger.toList ↔ (l, q) ∈ edges.toList ∨ (l = label ∧ q = target) := by
  obtain ⟨ascending, nodup, nodupEpsilons⟩ := wellFormed
  cases label with
  | epsilon =>
    rw [epsilon_mem_toList]
    by_cases known : target ∈ edges.epsilons
    · exact .inl ⟨if_pos known, known⟩
    · refine .inr ⟨_, if_neg known, known, ⟨ascending, nodup, ?_⟩, ?_⟩
      · refine List.nodup_append.mpr ⟨nodupEpsilons, by simp, ?_⟩
        intro q member p single same
        rw [List.mem_singleton.mp single] at same
        exact known (same ▸ member)
      · intro l q
        cases l <;> simp [epsilon_mem_toList, symbol_mem_toList]
  | symbol i =>
    rw [symbol_mem_toList, ← place_exact_iff edges.symbols ⟨i, target⟩ ascending]
    by_cases known : (place edges.symbols ⟨i, target⟩).exact = true
    · exact .inl ⟨if_pos known, known⟩
    · have missing := mt (place_exact_iff edges.symbols ⟨i, target⟩ ascending).mpr known
      obtain ⟨front, run, back, split, parted, inserted⟩ :=
        toList_insert_place edges.symbols ⟨i, target⟩ ascending missing
      rw [split] at ascending nodup missing
      have shuffled : (front ++ run ++ ⟨i, target⟩ :: back).Perm
          (⟨i, target⟩ :: (front ++ run ++ back)) := List.perm_middle
      refine .inr ⟨_, if_neg known, known, ⟨?_, ?_, nodupEpsilons⟩, ?_⟩
      · rw [inserted]
        exact parted.ascending_insert ascending
      · rw [inserted, shuffled.nodup_iff]
        exact List.nodup_cons.mpr ⟨missing, nodup⟩
      · intro l q
        cases l with
        | epsilon => simp [epsilon_mem_toList]
        | symbol j =>
          rw [symbol_mem_toList, symbol_mem_toList, inserted, shuffled.mem_iff, split,
            List.mem_cons, SymbolEdge.mk.injEq, Label.symbol.injEq, or_comm]

theorem erase?_of_mem {edges : Edges α} (wellFormed : edges.WellFormed) {label : Label α}
    {target : State} (member : (label, target) ∈ edges.toList) :
    edges.erase? label target = some (edges.keeping fun l q => ¬(l = label ∧ q = target)) := by
  cases label with
  | epsilon =>
    rw [epsilon_mem_toList] at member
    simp only [erase?, member, if_true, Option.some.injEq]
    refine congrArg₂ Edges.mk (Array.toList_inj.mp ?_) ?_
    · rw [Array.toList_filter, eq_comm, List.filter_eq_self]
      simp
    · rw [wellFormed.nodupEpsilons.erase_eq_filter]
      apply List.filter_congr
      intro q _
      rw [Bool.eq_iff_iff]
      simp
  | symbol i =>
    rw [symbol_mem_toList] at member
    have found := (place_exact_iff edges.symbols _ wellFormed.ascending).mpr member
    simp only [erase?, found, if_true, Option.some.injEq]
    refine congrArg₂ Edges.mk (Array.toList_inj.mp ?_) ?_
    · rw [toList_erase_place _ _ wellFormed.ascending member, wellFormed.nodup.erase_eq_filter,
        Array.toList_filter]
      apply List.filter_congr
      rintro ⟨j, r⟩ _
      rw [Bool.eq_iff_iff]
      simp [imp_iff_not_or]
    · rw [eq_comm, List.filter_eq_self]
      simp

theorem erase?_of_not_mem {edges : Edges α} (wellFormed : edges.WellFormed) {label : Label α}
    {target : State} (missing : (label, target) ∉ edges.toList) :
    edges.erase? label target = none := by
  cases label with
  | epsilon => exact if_neg (mt (epsilon_mem_toList edges target).mpr missing)
  | symbol i =>
    rw [symbol_mem_toList, ← place_exact_iff _ _ wellFormed.ascending] at missing
    exact if_neg missing

theorem erase?_cases (edges : Edges α) (wellFormed : edges.WellFormed) (label : Label α)
    (target : State) :
    (edges.erase? label target = none ∧ (label, target) ∉ edges.toList) ∨
      ∃ smaller, edges.erase? label target = some smaller ∧ (label, target) ∈ edges.toList ∧
        smaller.WellFormed ∧
        ∀ l q, (l, q) ∈ smaller.toList ↔ (l, q) ∈ edges.toList ∧ ¬(l = label ∧ q = target) := by
  by_cases member : (label, target) ∈ edges.toList
  · refine .inr ⟨_, erase?_of_mem wellFormed member, member, wellFormed.keeping _, fun l q => ?_⟩
    rw [mem_toList_keeping, decide_eq_true_eq]
  · exact .inl ⟨erase?_of_not_mem wellFormed member, member⟩

end IntervalAutomata.Edges
