import IntervalAutomata.Nfa.State

namespace IntervalAutomata.StateSet

open Std

theorem mem_insert (s : StateSet) (p q : State) : q ∈ s.insert p ↔ q = p ∨ q ∈ s := by
  rw [TreeSet.mem_insert, LawfulEqCmp.compare_eq_iff_eq]
  exact or_congr_left eq_comm

theorem mem_erase (s : StateSet) (p q : State) : q ∈ s.erase p ↔ q ∈ s ∧ q ≠ p := by
  rw [TreeSet.mem_erase, and_comm]
  apply and_congr_right
  intro _
  rw [ne_eq, LawfulEqCmp.compare_eq_iff_eq, ne_eq, eq_comm]

theorem mem_filter (s : StateSet) (f : State → Bool) (q : State) :
    q ∈ s.filter f ↔ q ∈ s ∧ f q = true := by
  rw [← TreeSet.mem_toList, TreeSet.toList_filter, List.mem_filter, TreeSet.mem_toList]

theorem mem_ofList (qs : List State) (q : State) : q ∈ TreeSet.ofList qs ↔ q ∈ qs := by
  rw [TreeSet.mem_ofList, List.contains_iff_mem]

theorem toList_ascending (s : StateSet) : s.toList.Pairwise fun p q => p.index < q.index := by
  apply List.Pairwise.imp _ TreeSet.ordered_toList
  intro p q less
  rw [State.compare_eq] at less
  exact Nat.compare_eq_lt.mp less

theorem nodup_of_ascending {qs : List State}
    (ascending : qs.Pairwise fun p q => p.index < q.index) : qs.Nodup := by
  apply List.Pairwise.imp _ ascending
  intro p q less same
  rw [same] at less
  exact Nat.lt_irrefl _ less

theorem nodup_toList (s : StateSet) : s.toList.Nodup :=
  nodup_of_ascending (toList_ascending s)

theorem eq_of_ascending {ps qs : List State}
    (one : ps.Pairwise fun p q => p.index < q.index)
    (other : qs.Pairwise fun p q => p.index < q.index) (same : ∀ q, q ∈ ps ↔ q ∈ qs) :
    ps = qs := by
  have shuffled : ps.Perm qs :=
    (List.perm_ext_iff_of_nodup (nodup_of_ascending one) (nodup_of_ascending other)).mpr same
  refine shuffled.eq_of_pairwise ?_ one other
  intro p q _ _ less greater
  exact absurd greater (Nat.lt_asymm less)

theorem toList_eq {s t : StateSet} (same : ∀ q, q ∈ s ↔ q ∈ t) : s.toList = t.toList := by
  apply eq_of_ascending (toList_ascending s) (toList_ascending t)
  intro q
  rw [TreeSet.mem_toList, TreeSet.mem_toList, same]

end IntervalAutomata.StateSet
