import IntervalAutomata.Proofs.Balance
import IntervalAutomata.Regex.StateCount
import IntervalAutomata.Thompson.Fragment
import Mathlib.Algebra.Group.TypeTags.Basic
import Mathlib.Algebra.GroupWithZero.Nat

namespace IntervalAutomata

universe u

variable {α : Type u}

namespace Size

theorem fit?_bind {m n : Nat} {f : Nat → Option Nat} (fits : n ≤ greatest → m ≤ greatest)
    (next : f m = fit? n) : (fit? m >>= f) = fit? n := by
  by_cases within : m ≤ greatest
  · rw [fit?, if_pos within]
    exact next
  · rw [fit?, fit?, if_neg within, if_neg (mt fits within)]
    rfl

/-- Whether a count tells a number if it fits, or is refused because something went astray. -/
def Tells (astray : Prop) (count : Option Nat) (n : Nat) : Prop :=
  (¬astray ∧ count = fit? n) ∨ (astray ∧ count = none)

namespace Tells

variable {astray : Prop} {count : Option Nat} {m n : Nat} {f : Nat → Option Nat}

theorem of_eq (exact : count = fit? n) : Tells False count n :=
  .inl ⟨not_false, exact⟩

theorem bind_or {other : Prop} (tells : Tells astray count m) (grows : m ≤ n)
    (next : Tells other (f m) n) : Tells (astray ∨ other) (count >>= f) n := by
  rcases tells with ⟨sound, rfl⟩ | ⟨lost, rfl⟩
  · by_cases within : m ≤ greatest
    · rw [fit?, if_pos within]
      unfold Tells
      rwa [or_iff_right sound]
    · rw [fit?, if_neg within]
      have large : fit? n = none := if_neg fun fits => within (Nat.le_trans grows fits)
      by_cases lost : other
      · exact .inr ⟨.inr lost, rfl⟩
      · exact .inl ⟨not_or.mpr ⟨sound, lost⟩, large.symm⟩
  · exact .inr ⟨.inl lost, rfl⟩

theorem bind (tells : Tells astray count m) (grows : m ≤ n) (next : f m = fit? n) :
    Tells astray (count >>= f) n := by
  have both := tells.bind_or grows (of_eq next)
  rwa [or_false] at both

end Tells

end Size

namespace Core

def stateCount : Core α → Nat
  | empty | nothing | literal _ | range _ _ => 2
  | seq first second => first.stateCount + second.stateCount
  | alt first second => first.stateCount + second.stateCount + 2
  | star inner => inner.stateCount + 2

theorem stateCount_joinAll_seq (cores : List (Core α)) (some : cores ≠ []) :
    (Balance.joinAll .seq .empty cores).stateCount = (cores.map stateCount).sum := by
  rw [List.sum_eq_foldr]
  exact Balance.joinAll_eq_foldr_of_ne_nil _ _ (· + ·) 0 stateCount (fun _ _ => rfl) cores some

/-- Each alternation has two states of its own, and there is one less of them than of parts. -/
theorem stateCount_joinAll_alt (cores : List (Core α)) (some : cores ≠ []) :
    (Balance.joinAll .alt .nothing cores).stateCount + 2 =
      (cores.map fun core => core.stateCount + 2).sum := by
  rw [List.sum_eq_foldr]
  apply Balance.joinAll_eq_foldr_of_ne_nil _ _ (fun m n : Nat => m + n) 0
    (fun core : Core α => core.stateCount + 2) _ cores some
  intro x y
  rw [stateCount]
  omega

theorem stateCount_literals (symbols : List α) (some : symbols ≠ []) :
    (Balance.joinAll .seq .empty (symbols.map literal)).stateCount = symbols.length * 2 := by
  rw [stateCount_joinAll_seq _ (by simpa using some), List.map_map]
  have two : stateCount ∘ literal = fun _ : α => 2 := rfl
  rw [two, List.map_const', List.sum_replicate, Nat.nsmul_eq_mul]

theorem stateCount_spans [DecidableEq α] (spans : List (Span α)) (some : spans ≠ []) :
    (Balance.joinAll .alt .nothing (spans.map ofSpan)).stateCount + 2 = spans.length * 4 := by
  rw [stateCount_joinAll_alt _ (by simpa using some), List.map_map]
  have four : (fun core => stateCount core + 2) ∘ ofSpan = fun _ : Span α => 4 := by
    funext span
    simp only [Function.comp_apply, ofSpan]
    split <;> rfl
  rw [four, List.map_const', List.sum_replicate, Nat.nsmul_eq_mul]

theorem stateCount_copies? (part : Core α) (count : Nat) :
    (Balance.copies? .seq part count).elim 0 stateCount = part.stateCount * count := by
  -- copies multiply in any monoid; here it is that of numbers under addition
  have power := Balance.copies?_eq_pow .seq (fun core => Multiplicative.ofAdd core.stateCount)
    (fun _ _ => rfl) part count
  rw [← ofAdd_nsmul, Nat.nsmul_eq_mul, Nat.mul_comm] at power
  cases copied : Balance.copies? .seq part count with
  | none =>
    rw [copied] at power
    exact Multiplicative.ofAdd.injective power
  | some core =>
    rw [copied] at power
    exact Multiplicative.ofAdd.injective power

theorem stateCount_inSequence (first second : Option (Core α)) :
    (inSequence first second).stateCount =
      if first = none ∧ second = none then 2
      else first.elim 0 stateCount + second.elim 0 stateCount := by
  cases first <;> cases second <;> simp [inSequence, stateCount]

theorem stateCount_repeated (part : Core α) (min : Nat) (max : Option Nat) :
    (repeated part min max).stateCount =
      if min = 0 ∧ max = some 0 then 2
      else part.stateCount * min + match max with
        | some max => (part.stateCount + 4) * (max - min)
        | none => part.stateCount + 2 := by
  unfold repeated
  cases max with
  | none =>
    rw [stateCount_inSequence, stateCount_copies?]
    simp [stateCount]
  | some max =>
    have item : (alt part empty).stateCount = part.stateCount + 4 := rfl
    have none : (min = 0 ∧ max - min = 0) ↔ (min = 0 ∧ max = 0) := by omega
    simp only [stateCount_inSequence, stateCount_copies?, item, Balance.copies?_eq_none_iff, none,
      Option.some.injEq]

theorem stateCount_le_repeated (part : Core α) (min : Nat) (max : Option Nat)
    (some : ¬(min = 0 ∧ max = some 0)) : part.stateCount ≤ (repeated part min max).stateCount := by
  rw [stateCount_repeated, if_neg some]
  cases max with
  | none => dsimp only; omega
  | some max =>
    dsimp only
    rcases Nat.eq_zero_or_pos min with none | required
    · have optional : 0 < max - min := by
        simp only [none, Option.some.injEq, true_and] at some
        omega
      have grows := Nat.le_mul_of_pos_right (part.stateCount + 4) optional
      omega
    · have grows := Nat.le_mul_of_pos_right part.stateCount required
      omega

end Core

variable [Ord α]

theorem Fragment.size_ofCore (base : Nat) (core : Core α) :
    (ofCore base core).size = core.stateCount := by
  induction core generalizing base with
  | empty => rfl
  | nothing => rfl
  | literal a => rfl
  | range a b => rfl
  | seq first second ihFirst ihSecond =>
    simp only [ofCore, Core.stateCount, ihFirst, ihSecond]
  | alt first second ihFirst ihSecond =>
    simp only [ofCore, Core.stateCount, ihFirst, ihSecond]
    omega
  | star inner ih =>
    simp only [ofCore, Core.stateCount, ih]
    omega

namespace Regex

variable [Alphabet α] [DecidableEq α]

/-- Whether a number is formed on the way to the count that may not fit where the states do. Four is
    added to the count of every part with a most number of repetitions, also of one that is just
    repeated once. The spans of a class are multiplied by four before two is taken off. -/
def Overshoots : Regex α → Prop
  | empty | nothing | literal _ | range _ _ | string _ => False
  | seq first second | alt first second => first.Overshoots ∨ second.Overshoots
  | star inner | optional inner | plus inner => inner.Overshoots
  | repeated inner min max =>
    ¬(min = 0 ∧ max = some 0) ∧ (inner.Overshoots ∨
      ((max = some 0 ∨ max = some 1) ∧ min = 1 ∧ Size.greatest < inner.desugar.stateCount + 4))
  | oneOf negated spans => (Span.cover negated spans).length * 4 = Size.greatest + 1

def Counted (regex : Regex α) : Prop :=
  Size.Tells regex.Overshoots regex.stateCount? regex.desugar.stateCount

/-- Where the states of a repetition fit, so does the number that is formed for its optional copies,
    but for one copy that is not optional. -/
theorem add_four_le_of_fits {n min max : Nat} (repeats : ¬(min = 0 ∧ max = 0))
    (others : ¬((max = 0 ∨ max = 1) ∧ min = 1 ∧ Size.greatest < n + 4))
    (fits : n * min + (n + 4) * (max - min) ≤ Size.greatest) : n + 4 ≤ Size.greatest := by
  rcases Nat.eq_zero_or_pos (max - min) with noOptional | optional
  · by_cases single : min = 1
    · omega
    · have twice : n * 2 ≤ n * min := Nat.mul_le_mul_left n (by omega)
      have room : 8 ≤ Size.greatest := by decide
      omega
  · have grows := Nat.le_mul_of_pos_right (n + 4) optional
    omega

theorem tells_repeated (n min : Nat) (max : Option Nat) : ¬(min = 0 ∧ max = some 0) →
    Size.Tells ((max = some 0 ∨ max = some 1) ∧ min = 1 ∧ Size.greatest < n + 4)
      (do
        let required ← Size.mul? n min
        let optional ← match max with
          | some max => do Size.mul? (← Size.add? n 4) (max - min)
          | none => Size.add? n 2
        Size.add? required optional)
      (n * min + match max with
        | some max => (n + 4) * (max - min)
        | none => n + 2) := by
  intro repeats
  cases max with
  | none =>
    refine .inl ⟨by simp, ?_⟩
    show _ = Size.fit? (n * min + (n + 2))
    exact Size.fit?_bind (by omega) (Size.fit?_bind (by omega) rfl)
  | some max =>
    simp only [Option.some.injEq] at repeats ⊢
    by_cases astray : (max = 0 ∨ max = 1) ∧ min = 1 ∧ Size.greatest < n + 4
    · refine .inr ⟨astray, ?_⟩
      have lost : Size.add? n 4 = none := if_neg (by omega)
      rw [lost]
      cases Size.mul? n min <;> rfl
    · refine .inl ⟨astray, ?_⟩
      apply Size.fit?_bind (by omega)
      apply Size.fit?_bind (add_four_le_of_fits repeats astray)
      apply Size.fit?_bind (by omega)
      rfl

theorem counted_repeated {inner : Regex α} (counted : inner.Counted) (min : Nat)
    (max : Option Nat) : (repeated inner min max).Counted := by
  unfold Counted at *
  rw [desugar]
  by_cases none : min = 0 ∧ max = some 0
  · refine .inl ⟨fun lost => lost.1 none, ?_⟩
    rw [stateCount?, if_pos none, Core.stateCount_repeated, if_pos none]
    rfl
  · have part := Core.stateCount_le_repeated inner.desugar min max none
    rw [Core.stateCount_repeated, if_neg none] at part ⊢
    rw [stateCount?, if_neg none, Overshoots]
    unfold Size.Tells
    rw [and_iff_right none]
    exact counted.bind_or part (tells_repeated _ min max none)

theorem counted_string (symbols : List α) : (string symbols).Counted := by
  refine .inl ⟨not_false, ?_⟩
  unfold stateCount?
  split
  · rename_i none
    rw [List.isEmpty_iff.mp none, desugar, List.map_nil, Balance.joinAll]
    rfl
  · rename_i some
    rw [desugar, Core.stateCount_literals symbols (by simpa using some)]
    rfl

theorem counted_oneOf (negated : Bool) (spans : List (Span α)) : (oneOf negated spans).Counted := by
  simp only [Counted, Overshoots, stateCount?, desugar]
  generalize Span.cover negated spans = cover
  split
  · rename_i none
    rw [List.length_eq_zero_iff.mp none, List.map_nil, Balance.joinAll]
    exact .inl ⟨by simp, rfl⟩
  · rename_i some
    -- four for each span, less the two of the alternation that is not there
    have total := Core.stateCount_spans cover fun none => some (by rw [none, List.length_nil])
    have fourfold : (Size.greatest + 1) % 4 = 0 := by decide
    unfold Size.Tells Size.mul? Size.fit?
    split
    · refine .inl ⟨by omega, ?_⟩
      rw [if_pos (by omega), Option.map_some, Option.some.injEq]
      omega
    · by_cases astray : cover.length * 4 = Size.greatest + 1
      · exact .inr ⟨astray, rfl⟩
      · refine .inl ⟨astray, ?_⟩
        rw [if_neg (by omega), Option.map_none]

theorem counted (regex : Regex α) : regex.Counted := by
  induction regex with
  | empty => exact .of_eq rfl
  | nothing => exact .of_eq rfl
  | literal a => exact .of_eq rfl
  | range a b => exact .of_eq rfl
  | seq first second ihFirst ihSecond =>
    simp only [Counted, Overshoots, stateCount?, desugar, Core.stateCount]
    exact ihFirst.bind_or (by omega) (ihSecond.bind (by omega) rfl)
  | alt first second ihFirst ihSecond =>
    simp only [Counted, Overshoots, stateCount?, desugar, Core.stateCount]
    apply ihFirst.bind_or (by omega)
    apply ihSecond.bind (by omega)
    exact Size.fit?_bind (by omega) rfl
  | star inner ih => exact ih.bind (Nat.le_add_right _ 2) rfl
  | optional inner ih => exact ih.bind (Nat.le_add_right _ 4) rfl
  | plus inner ih =>
    have twice : inner.plus.desugar.stateCount = inner.desugar.stateCount * 2 + 2 := by
      simp only [desugar, Core.stateCount]
      omega
    rw [Counted, twice]
    exact ih.bind (by omega) (Size.fit?_bind (by omega) rfl)
  | repeated inner min max ih => exact counted_repeated ih min max
  | string symbols => exact counted_string symbols
  | oneOf negated spans => exact counted_oneOf negated spans

theorem near_greatest_of_overshoots (regex : Regex α) (overshoots : regex.Overshoots) :
    Size.greatest < regex.desugar.stateCount + 4 := by
  induction regex with
  | empty => contradiction
  | nothing => contradiction
  | literal a => contradiction
  | range a b => contradiction
  | seq first second ihFirst ihSecond =>
    have near := Or.imp ihFirst ihSecond overshoots
    simp only [desugar, Core.stateCount]
    omega
  | alt first second ihFirst ihSecond =>
    have near := Or.imp ihFirst ihSecond overshoots
    simp only [desugar, Core.stateCount]
    omega
  | star inner ih =>
    have near := ih overshoots
    simp only [desugar, Core.stateCount]
    omega
  | optional inner ih =>
    have near := ih overshoots
    simp only [desugar, Core.stateCount]
    omega
  | plus inner ih =>
    have near := ih overshoots
    simp only [desugar, Core.stateCount]
    omega
  | repeated inner min max ih =>
    obtain ⟨some, astray⟩ := overshoots
    have part := Core.stateCount_le_repeated inner.desugar min max some
    have near := astray.elim ih fun single => single.2.2
    rw [desugar]
    omega
  | string symbols => contradiction
  | oneOf negated spans =>
    rw [Overshoots] at overshoots
    have some : Span.cover negated spans ≠ [] := by
      intro none
      rw [none] at overshoots
      contradiction
    have total := Core.stateCount_spans (Span.cover negated spans) some
    rw [desugar]
    omega

omit [DecidableEq α] in
theorem stateCount?_toRegex (core : Core α) :
    core.toRegex.stateCount? = Size.fit? core.stateCount := by
  induction core with
  | empty => rfl
  | nothing => rfl
  | literal a => rfl
  | range a b => rfl
  | seq first second ihFirst ihSecond =>
    simp only [Core.toRegex, stateCount?, Core.stateCount, ihFirst, ihSecond]
    apply Size.fit?_bind (by omega)
    exact Size.fit?_bind (by omega) rfl
  | alt first second ihFirst ihSecond =>
    simp only [Core.toRegex, stateCount?, Core.stateCount, ihFirst, ihSecond]
    apply Size.fit?_bind (by omega)
    apply Size.fit?_bind (by omega)
    exact Size.fit?_bind (by omega) rfl
  | star inner ih =>
    simp only [Core.toRegex, stateCount?, Core.stateCount, ih]
    exact Size.fit?_bind (by omega) rfl

theorem fit?_of_counted {regex : Regex α} {count : Nat}
    (given : regex.stateCount? = some count) :
    Size.fit? regex.desugar.stateCount = some count := by
  rcases regex.counted with ⟨_, told⟩ | ⟨_, refused⟩
  · rw [← told, given]
  · rw [refused] at given
    contradiction

theorem stateCount_of_counted {regex : Regex α} {count : Nat}
    (given : regex.stateCount? = some count) : regex.desugar.stateCount = count :=
  (Size.fit?_eq_some_iff.mp (fit?_of_counted given)).2

end Regex

end IntervalAutomata
