import IntervalAutomata.Proofs.Interval.Kind
import Mathlib.Data.List.Chain

namespace IntervalAutomata.Interval

open Std

universe u

variable {α : Type u} {cmp : α → α → Ordering}

def Adjoining (cmp : α → α → Ordering) (pieces : List (Interval α)) : Prop :=
  pieces.IsChain fun p q => p.stop.compare cmp q.start = .eq

variable [TransCmp cmp]

theorem relationBy_of_apart {p q : Interval α} (left : p.start.compare cmp p.stop = .lt)
    (apart : (p.stop.compare cmp q.start).isLE) :
    p.relationBy cmp q = relate cmp p q ∧ q.relationBy cmp p = relate cmp p q := by
  have ordered : p.order cmp q = .lt :=
    Ordering.then_eq_lt.mpr (.inl (TransCmp.lt_of_lt_of_isLE left apart))
  have back : q.order cmp p = .gt := by
    rw [order_swap, ordered]
    rfl
  rw [relationBy_eq, relationBy_eq, ordered, back]
  exact ⟨rfl, rfl⟩

theorem Relation.Seamless.adjoining {pieces : List (Interval α)} {c d : Cut α}
    (seamless : Seamless cmp c pieces d) : Adjoining cmp pieces := by
  induction pieces generalizing c with
  | nil => exact .nil
  | cons p rest ih =>
    obtain ⟨_, _, further⟩ := seamless
    cases rest with
    | nil => exact .singleton p
    | cons q rest =>
      have seam : p.stop.compare cmp q.start = .eq := by
        rw [further.1]
        exact ReflCmp.compare_self
      exact .cons_cons seam (ih further)

theorem Relation.Arises.adjoining {r : Relation α} {first second : Interval α}
    (arises : Arises cmp first second r) (firstInhabited : first.start.compare cmp first.stop = .lt)
    (secondInhabited : second.start.compare cmp second.stop = .lt) (met : r.kind ≠ .disjoint) :
    Adjoining cmp r.pieces := by
  cases arises with
  | disjoint apart => contradiction
  | touching level => exact .cons_cons level (.singleton second)
  | starting level shorter => exact (seamless_starting firstInhabited shorter).adjoining
  | finishing earlier level => exact (seamless_finishing secondInhabited earlier).adjoining
  | containing earlier later =>
    exact (seamless_containing secondInhabited earlier later).adjoining
  | overlapping earlier overlap later =>
    exact (seamless_overlapping earlier overlap later).adjoining

theorem adjoining_relationBy {i j : Interval α} (left : i.start.compare cmp i.stop = .lt)
    (right : j.start.compare cmp j.stop = .lt) (met : (i.relationBy cmp j).kind ≠ .disjoint) :
    Adjoining cmp (i.relationBy cmp j).pieces := by
  rw [relationBy_eq] at met ⊢
  cases placed : i.order cmp j with
  | lt =>
    rw [placed] at met
    exact (Relation.arises_relate placed).adjoining left right met
  | eq => exact .singleton i
  | gt =>
    rw [placed] at met
    rw [order_swap, Ordering.swap_eq_gt] at placed
    exact (Relation.arises_relate placed).adjoining right left met

section Adjoining

variable {pieces : List (Interval α)} (adjoining : Adjoining cmp pieces)
  (inhabited : ∀ p ∈ pieces, p.start.compare cmp p.stop = .lt)
include adjoining inhabited

theorem Adjoining.starts_ascend :
    pieces.Pairwise fun p q => p.start.compare cmp q.start = .lt := by
  let ahead (p q : Interval α) : Prop := p.start.compare cmp q.start = .lt
  have transitive : Trans ahead ahead ahead := ⟨TransCmp.lt_trans⟩
  apply List.isChain_iff_pairwise.mp
  apply adjoining.imp_of_mem_imp
  intro p q inPieces _ level
  exact TransCmp.lt_of_lt_of_eq (inhabited p inPieces) level

theorem Adjoining.stop_lt_start {m n : Nat} (held : n < pieces.length) (beyond : m + 1 < n) :
    pieces[m].stop.compare cmp pieces[n].start = .lt := by
  have level := List.isChain_iff_getElem.mp adjoining m (by omega)
  have later := List.pairwise_iff_getElem.mp (adjoining.starts_ascend inhabited) (m + 1) n
    (by omega) held beyond
  exact TransCmp.lt_of_eq_of_lt level later

theorem Adjoining.relate_getElem {m n : Nat} (held : n < pieces.length) (before : m < n) :
    (pieces[m].stop.compare cmp pieces[n].start).isLE ∧
      relate cmp pieces[m] pieces[n] =
        if n = m + 1 then .touching pieces[m] pieces[n] else .disjoint pieces[m] pieces[n] := by
  by_cases next : n = m + 1
  · subst next
    have level := List.isChain_iff_getElem.mp adjoining m held
    simp [relate, level]
  · have apart := adjoining.stop_lt_start inhabited held (show m + 1 < n by omega)
    simp [relate, apart, next]

end Adjoining

/-- Of the pieces of two intervals that share something or leave no gap, neighbours touch and all
    others are disjoint, and either of two pieces may ask. -/
theorem relationBy_pieces (i j : Interval α) (left : i.isEmptyBy cmp = false)
    (right : j.isEmptyBy cmp = false) (met : (i.relationBy cmp j).kind ≠ .disjoint) (m n : Nat)
    (before : m < n) (p q : Interval α) (one : (i.relationBy cmp j).pieces[m]? = some p)
    (other : (i.relationBy cmp j).pieces[n]? = some q) :
    p.relationBy cmp q = (if n = m + 1 then .touching p q else .disjoint p q) ∧
      q.relationBy cmp p = p.relationBy cmp q := by
  have inhabited := (partitions_relationBy i j left right).inhabited
  simp only [isEmptyBy_eq_false_iff] at left right inhabited
  have adjoining := adjoining_relationBy left right met
  obtain ⟨held', rfl⟩ := List.getElem?_eq_some_iff.mp one
  obtain ⟨held, rfl⟩ := List.getElem?_eq_some_iff.mp other
  obtain ⟨apart, related⟩ := adjoining.relate_getElem inhabited held before
  obtain ⟨forth, back⟩ := relationBy_of_apart (inhabited _ (List.getElem_mem held')) apart
  exact ⟨forth.trans related, back.trans forth.symm⟩

def upToSix : Interval Int := ⟨.inclusive 4, .inclusive 6⟩

def fromSix : Interval Int := ⟨.inclusive (-6), .exclusive 8⟩

theorem relationBy_aroundSix :
    (fromSix.relationBy byDistance upToSix).pieces =
        [⟨.inclusive 4, .exclusive (-6)⟩, ⟨.inclusive (-6), .inclusive 6⟩,
          ⟨.exclusive 6, .exclusive 8⟩] ∧
      (Interval.mk (.inclusive 4) (.exclusive (-6))).relationBy byDistance
          ⟨.inclusive (-6), .inclusive 6⟩ =
        .touching ⟨.inclusive 4, .exclusive (-6)⟩ ⟨.inclusive (-6), .inclusive 6⟩ ∧
      (Interval.mk (.exclusive 6) (.exclusive 8)).relationBy byDistance
          ⟨.inclusive 4, .exclusive (-6)⟩ =
        .disjoint ⟨.inclusive 4, .exclusive (-6)⟩ ⟨.exclusive 6, .exclusive 8⟩ := by
  have comparing : TransCmp byDistance := inferInstanceAs (TransCmp (compareOn Int.natAbs))
  have pieces : (fromSix.relationBy byDistance upToSix).pieces =
      [⟨.inclusive 4, .exclusive (-6)⟩, ⟨.inclusive (-6), .inclusive 6⟩,
        ⟨.exclusive 6, .exclusive 8⟩] := by decide
  have inhabited : fromSix.isEmptyBy byDistance = false := by decide
  have related := relationBy_pieces fromSix upToSix inhabited (by decide) (by decide)
  have neighbours := related 0 1 (by decide) _ _ (by rw [pieces]; rfl) (by rw [pieces]; rfl)
  have ends := related 0 2 (by decide) _ _ (by rw [pieces]; rfl) (by rw [pieces]; rfl)
  exact ⟨pieces, neighbours.1, ends.2.trans ends.1⟩

end IntervalAutomata.Interval
