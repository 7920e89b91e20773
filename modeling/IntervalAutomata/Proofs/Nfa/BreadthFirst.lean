import IntervalAutomata.Proofs.Nfa.Prune
import Mathlib

/-!
The order of a breadth-first traversal. A queue, taken one state at a time, lists the same states in
the same order as whole layers do. The list is its own plan: behind the seed stand the successors of
the listed states in turn, each where it comes up first.
-/

namespace IntervalAutomata

open Std

universe u

namespace Traversal

theorem fresh_append (seen : StateSet) (xs ys : List State) :
    (fresh seen (xs ++ ys)).1 = (fresh seen xs).1 ++ (fresh (fresh seen xs).2 ys).1 ∧
      (fresh seen (xs ++ ys)).2 = (fresh (fresh seen xs).2 ys).2 := by
  induction xs generalizing seen with
  | nil => exact ⟨rfl, rfl⟩
  | cons x rest ih =>
    by_cases known : x ∈ seen
    · simpa only [List.cons_append, fresh, known, if_true] using ih seen
    · simpa only [List.cons_append, fresh, known, if_false, List.cons.injEq, true_and] using
        ih (seen.insert x)

theorem nodup_fresh (seen : StateSet) (xs : List State) : (fresh seen xs).1.Nodup := by
  induction xs generalizing seen with
  | nil => exact List.nodup_nil
  | cons x rest ih =>
    by_cases known : x ∈ seen
    · simpa only [fresh, known, if_true] using ih seen
    · have later : x ∉ (fresh (seen.insert x) rest).1 := by
        intro member
        exact (mem_fresh_fst.mp member).1 ((StateSet.mem_insert seen x x).mpr (.inl rfl))
      simpa only [fresh, known, if_false, List.nodup_cons] using ⟨later, ih (seen.insert x)⟩

theorem fresh_ordered (seen : StateSet) (xs : List State) :
    (fresh seen xs).1.Pairwise fun p q => xs.idxOf p < xs.idxOf q := by
  induction xs generalizing seen with
  | nil => exact List.Pairwise.nil
  | cons x rest ih =>
    have behind : ∀ seen : StateSet, x ∈ seen →
        (fresh seen rest).1.Pairwise fun p q => (x :: rest).idxOf p < (x :: rest).idxOf q := by
      intro seen known
      apply List.Pairwise.imp_of_mem _ (ih seen)
      intro p q newP newQ less
      have notP : x ≠ p := fun same => (mem_fresh_fst.mp newP).1 (same ▸ known)
      have notQ : x ≠ q := fun same => (mem_fresh_fst.mp newQ).1 (same ▸ known)
      rw [List.idxOf_cons_ne _ notP, List.idxOf_cons_ne _ notQ]
      exact Nat.succ_lt_succ less
    by_cases known : x ∈ seen
    · simpa only [fresh, known, if_true] using behind seen known
    · have inside : x ∈ seen.insert x := (StateSet.mem_insert seen x x).mpr (.inl rfl)
      simp only [fresh, known, if_false, List.pairwise_cons]
      refine ⟨fun q new => ?_, behind (seen.insert x) inside⟩
      have notX : x ≠ q := fun same => (mem_fresh_fst.mp new).1 (same ▸ inside)
      rw [List.idxOf_cons_self, List.idxOf_cons_ne _ notX]
      exact Nat.succ_pos _

variable {successors : State → List State} {bound : Nat}
  (bounded : ∀ q, bound ≤ q.index → successors q = [])

/-- The listed states are those of the first layer and then the successors of the listed states, each
    where it comes up first. -/
theorem layers_eq_fresh (seen : StateSet) (layer : List State) :
    layers successors bound bounded seen layer =
      (fresh seen (layer ++ (layers successors bound bounded seen layer).flatMap successors)).1 := by
  fun_induction layers successors bound bounded seen layer with
  | case1 seen layer new empty =>
    rw [List.flatMap_nil, List.append_nil]
    exact (List.isEmpty_iff.mp empty).symm
  | case2 seen layer new nonempty ih =>
    rw [List.flatMap_append, (fresh_append _ _ _).1, ← ih]

structure Sweep where
  seen : StateSet
  queue : List State
  listed : List State

def Sweep.turn (successors : State → List State) : Sweep → Sweep
  | ⟨seen, [], listed⟩ => ⟨seen, [], listed⟩
  | ⟨seen, q :: rest, listed⟩ =>
    ⟨(fresh seen (successors q)).2, rest ++ (fresh seen (successors q)).1, listed ++ [q]⟩

variable (successors) in
theorem Sweep.turns_layer (layer back : List State) (seen : StateSet) (listed : List State) :
    (turn successors)^[layer.length] ⟨seen, layer ++ back, listed⟩ =
      ⟨(fresh seen (layer.flatMap successors)).2,
        back ++ (fresh seen (layer.flatMap successors)).1, listed ++ layer⟩ := by
  -- What is left of the layer stands before the part of the next one that is found already.
  induction layer generalizing back seen listed with
  | nil => simp [fresh]
  | cons q rest ih =>
    obtain ⟨states, grown⟩ := fresh_append seen (successors q) (rest.flatMap successors)
    have taken : turn successors ⟨seen, q :: rest ++ back, listed⟩ =
        ⟨(fresh seen (successors q)).2, rest ++ (back ++ (fresh seen (successors q)).1),
          listed ++ [q]⟩ := by
      simp only [turn, List.cons_append, List.append_assoc]
    rw [List.length_cons, Function.iterate_succ_apply, taken, ih, List.flatMap_cons, states, grown]
    simp only [List.append_assoc, List.singleton_append]

theorem Sweep.turns_layers (seen : StateSet) (layer listed : List State) :
    ∃ all, (turn successors)^[(layers successors bound bounded seen layer).length]
        ⟨(fresh seen layer).2, (fresh seen layer).1, listed⟩ =
      ⟨all, [], listed ++ layers successors bound bounded seen layer⟩ := by
  fun_induction layers successors bound bounded seen layer generalizing listed with
  | case1 seen layer new empty =>
    have none : (fresh seen layer).1 = [] := List.isEmpty_iff.mp empty
    rw [none, List.append_nil]
    exact ⟨_, rfl⟩
  | case2 seen layer new nonempty ih =>
    obtain ⟨all, rest⟩ := ih (listed ++ new)
    have first := turns_layer successors new [] (fresh seen layer).2 listed
    rw [List.append_nil, List.nil_append] at first
    refine ⟨all, ?_⟩
    rw [List.length_append, Nat.add_comm, Function.iterate_add_apply, first, rest,
      List.append_assoc]

inductive LeadsIn (successors : State → List State) (seed : State) : Nat → State → Prop where
  | refl : LeadsIn successors seed 0 seed
  | step {n : Nat} {p q : State} (before : LeadsIn successors seed n p) (last : q ∈ successors p) :
    LeadsIn successors seed (n + 1) q

theorem exists_leadsIn_iff (seed q : State) :
    (∃ n, LeadsIn successors seed n q) ↔ Leads successors seed q := by
  constructor
  · rintro ⟨n, leads⟩
    induction leads with
    | refl => exact .refl
    | step _ last ih => exact ih.tail last
  · intro leads
    induction leads with
    | refl => exact ⟨0, .refl⟩
    | tail _ last ih =>
      obtain ⟨n, before⟩ := ih
      exact ⟨n + 1, before.step last⟩

noncomputable def distance (successors : State → List State) (seed q : State) : Nat :=
  sInf {n | LeadsIn successors seed n q}

theorem distance_le {seed q : State} {n : Nat} (leads : LeadsIn successors seed n q) :
    distance successors seed q ≤ n :=
  Nat.sInf_le leads

theorem leadsIn_distance {seed q : State} {n : Nat} (leads : LeadsIn successors seed n q) :
    LeadsIn successors seed (distance successors seed q) q :=
  Nat.sInf_mem (s := {n | LeadsIn successors seed n q}) ⟨n, leads⟩

/-- A set holds just the states nearer to a seed than a depth, and with a layer just those up to
    it. -/
structure Frontier (successors : State → List State) (seed : State) (depth : Nat)
    (seen : StateSet) (layer : List State) : Prop where
  nearer : ∀ q, q ∈ seen ↔ ∃ m < depth, LeadsIn successors seed m q
  within : ∀ q, q ∈ seen ∨ q ∈ layer ↔ ∃ m ≤ depth, LeadsIn successors seed m q

variable {seed : State} {depth : Nat} {seen : StateSet} {layer : List State}

theorem frontier_start : Frontier successors seed 0 ∅ [seed] where
  nearer q := by simp
  within q := by
    simp only [TreeSet.not_mem_emptyc, List.mem_singleton, false_or, Nat.le_zero, exists_eq_left]
    constructor
    · rintro rfl
      exact .refl
    · intro leads
      cases leads
      rfl

theorem Frontier.next (frontier : Frontier successors seed depth seen layer) :
    Frontier successors seed (depth + 1) (fresh seen layer).2
      ((fresh seen layer).1.flatMap successors) where
  nearer q := by
    rw [mem_fresh_snd, frontier.within]
    simp only [Nat.lt_succ_iff]
  within q := by
    rw [mem_fresh_snd, frontier.within, List.mem_flatMap]
    constructor
    · rintro (⟨m, near, leads⟩ | ⟨p, new, last⟩)
      · exact ⟨m, by omega, leads⟩
      · obtain ⟨m, near, before⟩ := (frontier.within p).mp (.inr (mem_fresh_fst.mp new).2)
        exact ⟨m + 1, by omega, before.step last⟩
    · rintro ⟨m, near, leads⟩
      by_cases close : m ≤ depth
      · exact .inl ⟨m, close, leads⟩
      · cases leads with
        | refl => omega
        | @step n p _ before last =>
          by_cases seenBefore : p ∈ seen
          · obtain ⟨k, nearer, shorter⟩ := (frontier.nearer p).mp seenBefore
            exact .inl ⟨k + 1, by omega, shorter.step last⟩
          · have member := ((frontier.within p).mpr ⟨n, by omega, before⟩).resolve_left seenBefore
            exact .inr ⟨p, mem_fresh_fst.mpr ⟨seenBefore, member⟩, last⟩

theorem Frontier.distance_eq (frontier : Frontier successors seed depth seen layer) {q : State}
    (new : q ∈ (fresh seen layer).1) : distance successors seed q = depth := by
  obtain ⟨unseen, member⟩ := mem_fresh_fst.mp new
  obtain ⟨m, near, leads⟩ := (frontier.within q).mp (.inr member)
  have least := leadsIn_distance leads
  have atMost := distance_le leads
  have atLeast : ¬distance successors seed q < depth := fun nearer =>
    unseen ((frontier.nearer q).mpr ⟨_, nearer, least⟩)
  omega

theorem layers_nearest_first (depth : Nat) (seen : StateSet) (layer : List State)
    (frontier : Frontier successors seed depth seen layer) :
    (∀ q ∈ layers successors bound bounded seen layer, depth ≤ distance successors seed q) ∧
      (layers successors bound bounded seen layer).Pairwise fun p q =>
        distance successors seed p ≤ distance successors seed q := by
  fun_induction layers successors bound bounded seen layer generalizing depth with
  | case1 seen layer new empty => simp
  | case2 seen layer new nonempty ih =>
    obtain ⟨farther, ascending⟩ := ih (depth + 1) frontier.next
    -- New states are all as far from the seed as the layer is deep, and later ones farther.
    have level : ∀ q ∈ new, distance successors seed q = depth := fun q => frontier.distance_eq
    refine ⟨fun q listed => ?_, List.pairwise_append.mpr ⟨?_, ascending, fun p isNew q later => ?_⟩⟩
    · rcases List.mem_append.mp listed with isNew | later
      · exact Nat.le_of_eq (level q isNew).symm
      · exact Nat.le_of_succ_le (farther q later)
    · apply List.pairwise_of_forall_mem_list
      intro p first q second
      rw [level p first, level q second]
    · rw [level p isNew]
      exact Nat.le_of_succ_le (farther q later)

theorem order_in_flatMap (f : State → List State) (xs : List State) (p q : State)
    (earlier : (xs.flatMap f).idxOf p < (xs.flatMap f).idxOf q) :
    xs.findIdx (p ∈ f ·) < xs.findIdx (q ∈ f ·) ∨
      xs.findIdx (p ∈ f ·) = xs.findIdx (q ∈ f ·) ∧
        ∃ r ∈ xs[xs.findIdx (p ∈ f ·)]?, (f r).idxOf p < (f r).idxOf q := by
  induction xs with
  | nil => simp at earlier
  | cons x rest ih =>
    rw [List.flatMap_cons, List.idxOf_append, List.idxOf_append] at earlier
    by_cases hereP : p ∈ f x
    · have firstP : (x :: rest).findIdx (p ∈ f ·) = 0 := by simp [List.findIdx_cons, hereP]
      rw [firstP]
      by_cases hereQ : q ∈ f x
      · have firstQ : (x :: rest).findIdx (q ∈ f ·) = 0 := by simp [List.findIdx_cons, hereQ]
        rw [if_pos hereP, if_pos hereQ] at earlier
        exact .inr ⟨firstQ.symm, x, rfl, earlier⟩
      · have laterQ : 0 < (x :: rest).findIdx (q ∈ f ·) := by simp [List.findIdx_cons, hereQ]
        exact .inl laterQ
    · have laterP : (x :: rest).findIdx (p ∈ f ·) = rest.findIdx (p ∈ f ·) + 1 := by
        simp [List.findIdx_cons, hereP]
      by_cases hereQ : q ∈ f x
      · have inside := List.idxOf_lt_length_of_mem hereQ
        rw [if_neg hereP, if_pos hereQ] at earlier
        omega
      · have laterQ : (x :: rest).findIdx (q ∈ f ·) = rest.findIdx (q ∈ f ·) + 1 := by
          simp [List.findIdx_cons, hereQ]
        rw [if_neg hereP, if_neg hereQ] at earlier
        rw [laterP, laterQ, List.getElem?_cons_succ, Nat.succ_lt_succ_iff, Nat.succ_inj]
        exact ih (by omega)

end Traversal

namespace Nfa

open Traversal

variable {α : Type u}

/-- The place in a list of the first state with a transition to a given one. -/
def finder (nfa : Nfa α) (listed : List State) (q : State) : Nat :=
  listed.findIdx (q ∈ nfa.successors ·)

/-- The place, among the transitions from one state, of the first that leads to another. -/
def firstEdge (nfa : Nfa α) (p q : State) : Nat :=
  (nfa.transitionsFrom p).findIdx (·.target = q)

def FoundBefore (nfa : Nfa α) (listed : List State) (p q : State) : Prop :=
  nfa.finder listed p < nfa.finder listed q ∨
    nfa.finder listed p = nfa.finder listed q ∧
      ∃ r ∈ listed[nfa.finder listed p]?, nfa.firstEdge r p < nfa.firstEdge r q

structure BreadthFirst (nfa : Nfa α) (seed : State) (listed : List State) : Prop where
  exact : ∀ q, q ∈ listed ↔ nfa.Reaches seed q
  nodup : listed.Nodup
  seed_first : listed.head? = some seed
  attained : ∀ q ∈ listed, LeadsIn nfa.successors seed (distance nfa.successors seed q) q
  nearest_first : listed.Pairwise fun p q =>
    distance nfa.successors seed p ≤ distance nfa.successors seed q
  found : ∀ q ∈ listed, q ≠ seed → ∃ p ∈ listed, q ∈ nfa.successors p
  found_in_order : listed.tail.Pairwise (nfa.FoundBefore listed)

theorem idxOf_successors (nfa : Nfa α) (p q : State) :
    (nfa.successors p).idxOf q = nfa.firstEdge p q := by
  rw [successors, List.idxOf, List.findIdx_map, firstEdge]
  rfl

theorem reachableFrom_of_contains {nfa : Nfa α} {seed : State} (live : nfa.contains seed = true) :
    nfa.reachableFrom seed =
      layers nfa.successors nfa.slots.size nfa.successors_eq_nil_of_size_le ∅ [seed] :=
  if_pos live

theorem reachableFrom_eq_cons {nfa : Nfa α} {seed : State} (live : nfa.contains seed = true) :
    nfa.reachableFrom seed = seed ::
      (fresh (TreeSet.insert ∅ seed) ((nfa.reachableFrom seed).flatMap nfa.successors)).1 := by
  conv => lhs; rw [reachableFrom_of_contains live, layers_eq_fresh]
  rw [← reachableFrom_of_contains live, List.singleton_append, fresh,
    if_neg TreeSet.not_mem_emptyc]

theorem breadthFirst_reachableFrom {nfa : Nfa α} {seed : State}
    (live : nfa.contains seed = true) : nfa.BreadthFirst seed (nfa.reachableFrom seed) where
  exact := nfa.mem_reachableFrom_iff seed
  nodup := by
    rw [reachableFrom_of_contains live, layers_eq_fresh]
    exact nodup_fresh _ _
  seed_first := by
    rw [reachableFrom_eq_cons live]
    rfl
  attained := by
    intro q listed
    have leads := ((nfa.mem_reachableFrom seed q).mp listed).2
    obtain ⟨n, steps⟩ := (exists_leadsIn_iff seed q).mpr leads
    exact leadsIn_distance steps
  nearest_first := by
    rw [reachableFrom_of_contains live]
    exact (layers_nearest_first _ 0 ∅ [seed] frontier_start).2
  found := by
    intro q listed other
    rw [reachableFrom_eq_cons live] at listed
    have later := (List.mem_cons.mp listed).resolve_left other
    exact List.mem_flatMap.mp (mem_fresh_fst.mp later).2
  found_in_order := by
    have ordered := fresh_ordered (TreeSet.insert ∅ seed)
      ((nfa.reachableFrom seed).flatMap nfa.successors)
    have tail := congrArg List.tail (reachableFrom_eq_cons live)
    rw [List.tail_cons] at tail
    rw [← tail] at ordered
    apply List.Pairwise.imp _ ordered
    intro p q earlier
    rcases order_in_flatMap nfa.successors _ p q earlier with sooner | level
    · exact .inl sooner
    · obtain ⟨same, r, finds, less⟩ := level
      rw [idxOf_successors, idxOf_successors] at less
      exact .inr ⟨same, r, finds, less⟩

theorem turns_reachableFrom {nfa : Nfa α} {seed : State} (live : nfa.contains seed = true) :
    ∃ all, (Sweep.turn nfa.successors)^[(nfa.reachableFrom seed).length]
      ⟨TreeSet.insert ∅ seed, [seed], []⟩ = ⟨all, [], nfa.reachableFrom seed⟩ := by
  obtain ⟨all, ended⟩ := Sweep.turns_layers nfa.successors_eq_nil_of_size_le ∅ [seed] []
  rw [← reachableFrom_of_contains live] at ended
  refine ⟨all, ?_⟩
  simpa only [fresh, TreeSet.not_mem_emptyc, if_false, List.nil_append] using ended

/-- From a state of an automaton, reachability lists just what transitions of any label lead to,
    nearer states first and those found earlier first, as a queue does that is empty after one turn
    for each listed state. From any other state it lists nothing. -/
theorem reachableFrom_exact (nfa : Nfa α) (seed : State) :
    (nfa.contains seed = true → nfa.BreadthFirst seed (nfa.reachableFrom seed) ∧
      ∃ all, (Sweep.turn nfa.successors)^[(nfa.reachableFrom seed).length]
        ⟨TreeSet.insert ∅ seed, [seed], []⟩ = ⟨all, [], nfa.reachableFrom seed⟩) ∧
    (nfa.contains seed = false → nfa.reachableFrom seed = []) := by
  refine ⟨fun live => ⟨breadthFirst_reachableFrom live, turns_reachableFrom live⟩, ?_⟩
  intro missing
  exact if_neg (Bool.eq_false_iff.mp missing)

end Nfa

namespace Operation

def detourEdits : List (Operation Letter) :=
  [addTransition ⟨⟨0⟩, .epsilon, ⟨3⟩⟩, addTransition ⟨⟨0⟩, .symbol (.closed .B .C), ⟨1⟩⟩,
    addTransition ⟨⟨0⟩, .symbol (.closed .A .A), ⟨2⟩⟩, addTransition ⟨⟨1⟩, .epsilon, ⟨5⟩⟩,
    addTransition ⟨⟨2⟩, .epsilon, ⟨0⟩⟩, addTransition ⟨⟨2⟩, .symbol (.closed .A .B), ⟨1⟩⟩,
    addTransition ⟨⟨3⟩, .epsilon, ⟨4⟩⟩, addTransition ⟨⟨3⟩, .symbol (.closed .D .D), ⟨5⟩⟩,
    addTransition ⟨⟨5⟩, .symbol (.closed .A .E), ⟨4⟩⟩, addTransition ⟨⟨6⟩, .epsilon, ⟨0⟩⟩]

theorem reachableFrom_detour :
    (applyAll ∅ detourEdits).contains ⟨0⟩ = true ∧
      (applyAll ∅ detourEdits).BreadthFirst ⟨0⟩ [⟨0⟩, ⟨2⟩, ⟨1⟩, ⟨3⟩, ⟨5⟩, ⟨4⟩] ∧
      (∃ all, (Traversal.Sweep.turn (applyAll ∅ detourEdits).successors)^[6]
        ⟨TreeSet.insert ∅ ⟨0⟩, [⟨0⟩], []⟩ = ⟨all, [], [⟨0⟩, ⟨2⟩, ⟨1⟩, ⟨3⟩, ⟨5⟩, ⟨4⟩]⟩) ∧
      (applyAll ∅ detourEdits).contains ⟨9⟩ = false ∧
      (applyAll ∅ detourEdits).reachableFrom ⟨9⟩ = [] := by
  obtain ⟨reaches, _⟩ := (applyAll ∅ detourEdits).reachableFrom_exact ⟨0⟩
  obtain ⟨_, nowhere⟩ := (applyAll ∅ detourEdits).reachableFrom_exact ⟨9⟩
  have live : (applyAll ∅ detourEdits).contains ⟨0⟩ = true := by cbv
  have missing : (applyAll ∅ detourEdits).contains ⟨9⟩ = false := by cbv
  have listed : (applyAll ∅ detourEdits).reachableFrom ⟨0⟩ =
      [⟨0⟩, ⟨2⟩, ⟨1⟩, ⟨3⟩, ⟨5⟩, ⟨4⟩] := by cbv
  obtain ⟨ordered, swept⟩ := reaches live
  rw [listed] at ordered swept
  exact ⟨live, ordered, swept, missing, nowhere missing⟩

end Operation

end IntervalAutomata
