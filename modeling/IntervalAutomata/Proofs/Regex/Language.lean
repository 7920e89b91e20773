import IntervalAutomata.Proofs.Balance
import IntervalAutomata.Proofs.Interval.Contains
import IntervalAutomata.Proofs.Span.Cover
import IntervalAutomata.Regex.Core
import Mathlib.Computability.Language
import Mathlib.Order.CompletePartialOrder

namespace IntervalAutomata

open Computability Std

universe u

variable {α : Type u} [Ord α]

def symbols {α : Type u} (p : α → Prop) : Language α :=
  {word | ∃ a, word = [a] ∧ p a}

theorem symbols_congr {α : Type u} {p q : α → Prop} (same : ∀ a, p a ↔ q a) :
    symbols p = symbols q :=
  congrArg symbols (funext fun a => propext (same a))

theorem Span.Ordered.between_iff [TransOrd α] {s : Span α} (ordered : s.Ordered) (a : α) :
    Between s.first s.last a ↔ s.Holds a := by
  constructor
  · intro between
    rcases between with holds | reversed
    · exact holds
    · -- the reversed range holds a symbol, so its ends are level
      exact ⟨TransCmp.isLE_trans ordered reversed.1, TransCmp.isLE_trans reversed.2 ordered⟩
  · exact .inl

def Regex.language : Regex α → Language α
  | empty => 1
  | nothing => 0
  | literal a => symbols (· = a)
  | range a b => symbols (Between a b)
  | seq first second => first.language * second.language
  | alt first second => first.language + second.language
  | star inner => inner.language∗
  | optional inner => inner.language + 1
  | plus inner => {word | ∃ n, 1 ≤ n ∧ word ∈ inner.language ^ n}
  | repeated inner least greatest =>
    {word | ∃ n, least ≤ n ∧ (∀ m ∈ greatest, n ≤ max least m) ∧ word ∈ inner.language ^ n}
  | string word => {word}
  | oneOf negated spans => symbols fun a => (∃ s ∈ spans, s.Holds a) ↔ negated = false

def Regex.EveryClass {α : Type u} (p : Bool → List (Span α) → Prop) : Regex α → Prop
  | empty | nothing | literal _ | range _ _ | string _ => True
  | seq first second | alt first second => first.EveryClass p ∧ second.EveryClass p
  | star inner | optional inner | plus inner | repeated inner _ _ => inner.EveryClass p
  | oneOf negated spans => p negated spans

omit [Ord α] in
theorem Regex.EveryClass.mono {p q : Bool → List (Span α) → Prop}
    (implies : ∀ negated spans, p negated spans → q negated spans) {regex : Regex α}
    (every : regex.EveryClass p) : regex.EveryClass q := by
  induction regex with
  | empty => trivial
  | nothing => trivial
  | literal a => trivial
  | range a b => trivial
  | seq first second ihFirst ihSecond => exact ⟨ihFirst every.1, ihSecond every.2⟩
  | alt first second ihFirst ihSecond => exact ⟨ihFirst every.1, ihSecond every.2⟩
  | star inner ih => exact ih every
  | optional inner ih => exact ih every
  | plus inner ih => exact ih every
  | repeated inner min max ih => exact ih every
  | string symbols => trivial
  | oneOf negated spans => exact implies negated spans every

def Regex.Ordered (regex : Regex α) : Prop :=
  regex.EveryClass fun _ spans => ∀ s ∈ spans, s.Ordered

namespace Core

def language : Core α → Language α
  | empty => 1
  | nothing => 0
  | literal a => symbols (· = a)
  | range a b => symbols (Between a b)
  | seq first second => first.language * second.language
  | alt first second => first.language + second.language
  | star inner => inner.language∗

theorem language_joinAll_seq (cores : List (Core α)) :
    (Balance.joinAll .seq .empty cores).language = (cores.map language).prod := by
  rw [List.prod_eq_foldr]
  exact Balance.joinAll_eq_foldr _ _ (· * ·) 1 language (fun _ _ => rfl) cores rfl

theorem language_joinAll_alt (cores : List (Core α)) :
    (Balance.joinAll .alt .nothing cores).language = (cores.map language).sum := by
  rw [List.sum_eq_foldr]
  exact Balance.joinAll_eq_foldr _ _ (· + ·) 0 language (fun _ _ => rfl) cores rfl

theorem prod_literals (word : List α) :
    ((word.map literal).map language).prod = ({word} : Language α) := by
  induction word with
  | nil => rfl
  | cons a rest ih =>
    rw [List.map_cons, List.map_cons, List.prod_cons, ih]
    ext w
    rw [Language.mem_mul]
    constructor
    · intro h
      obtain ⟨front, ⟨b, rfl, rfl⟩, back, rfl, rfl⟩ := h
      rfl
    · intro h
      exact ⟨[a], ⟨a, rfl, rfl⟩, rest, rfl, h.symm⟩

omit [Ord α] in
theorem mem_sum (languages : List (Language α)) (word : List α) :
    word ∈ languages.sum ↔ ∃ l ∈ languages, word ∈ l := by
  induction languages with
  | nil => simp [Language.notMem_zero]
  | cons first rest ih =>
    rw [List.sum_cons, Language.mem_add, ih]
    simp

theorem language_inSequence (first second : Option (Core α)) :
    (inSequence first second).language = first.elim 1 language * second.elim 1 language := by
  cases first <;> cases second <;> simp [inSequence, language]

theorem language_copies? (part : Core α) (count : Nat) :
    (Balance.copies? .seq part count).elim 1 language = part.language ^ count :=
  Balance.copies?_eq_pow .seq language (fun _ _ => rfl) part count

omit [Ord α] in
theorem mem_kstar_iff_pow (l : Language α) (word : List α) :
    word ∈ l∗ ↔ ∃ n, word ∈ l ^ n := by
  rw [Language.kstar_eq_iSup_pow, Language.mem_iSup]

omit [Ord α] in
theorem mem_optional_pow (l : Language α) (count : Nat) (word : List α) :
    word ∈ (l + 1) ^ count ↔ ∃ n, n ≤ count ∧ word ∈ l ^ n := by
  induction count generalizing word with
  | zero => simp
  | succ count ih =>
    rw [pow_succ', add_mul, one_mul, Language.mem_add, Language.mem_mul, ih]
    constructor
    · intro h
      rcases h with ⟨front, first, back, rest, rfl⟩ | ⟨n, few, member⟩
      · obtain ⟨n, few, member⟩ := (ih back).mp rest
        refine ⟨n + 1, by omega, ?_⟩
        rw [pow_succ']
        exact Language.append_mem_mul first member
      · exact ⟨n, by omega, member⟩
    · intro h
      obtain ⟨n, few, member⟩ := h
      by_cases full : n = count + 1
      · rw [full, pow_succ', Language.mem_mul] at member
        obtain ⟨front, first, back, rest, rfl⟩ := member
        exact .inl ⟨front, first, back, (ih back).mpr ⟨count, Nat.le_refl _, rest⟩, rfl⟩
      · exact .inr ⟨n, by omega, member⟩

omit [Ord α] in
theorem mem_pow_mul_iff (l rest : Language α) (least : Nat) (enough : Nat → Prop) (word : List α)
    (counted : ∀ w, w ∈ rest ↔ ∃ n, enough n ∧ w ∈ l ^ n) :
    word ∈ l ^ least * rest ↔ ∃ n, least ≤ n ∧ enough (n - least) ∧ word ∈ l ^ n := by
  rw [Language.mem_mul]
  constructor
  · intro h
    obtain ⟨front, required, back, further, rfl⟩ := h
    obtain ⟨n, allowed, member⟩ := (counted back).mp further
    refine ⟨least + n, Nat.le_add_right least n, by rwa [Nat.add_sub_cancel_left], ?_⟩
    rw [pow_add]
    exact Language.append_mem_mul required member
  · intro h
    obtain ⟨n, more, allowed, member⟩ := h
    rw [← Nat.add_sub_cancel' more, pow_add, Language.mem_mul] at member
    obtain ⟨front, required, back, further, same⟩ := member
    exact ⟨front, required, back, (counted back).mpr ⟨n - least, allowed, further⟩, same⟩

theorem mem_repeated (part : Core α) (least : Nat) (greatest : Option Nat) (word : List α) :
    word ∈ (repeated part least greatest).language ↔
      ∃ n, least ≤ n ∧ (∀ m ∈ greatest, n ≤ max least m) ∧ word ∈ part.language ^ n := by
  unfold repeated
  rw [language_inSequence, language_copies?]
  cases greatest with
  | none =>
    have counted : ∀ w, w ∈ part.language∗ ↔ ∃ n, True ∧ w ∈ part.language ^ n := by
      simp [mem_kstar_iff_pow]
    show word ∈ part.language ^ least * part.language∗ ↔ _
    rw [mem_pow_mul_iff part.language _ least _ word counted]
    simp
  | some greatest =>
    have optional : (alt part empty).language = part.language + 1 := rfl
    show word ∈ part.language ^ least *
      (Balance.copies? .seq (alt part empty) (greatest - least)).elim 1 language ↔ _
    rw [language_copies?, optional, mem_pow_mul_iff part.language _ least _ word
      (mem_optional_pow part.language (greatest - least))]
    apply exists_congr
    intro n
    simp only [Option.mem_some_iff, forall_eq']
    constructor
    · intro h
      obtain ⟨more, few, member⟩ := h
      exact ⟨more, by omega, member⟩
    · intro h
      obtain ⟨more, few, member⟩ := h
      exact ⟨more, by omega, member⟩

variable [TransOrd α] [LawfulEqOrd α] [DecidableEq α]

theorem language_ofSpan (s : Span α) (ordered : s.Ordered) :
    (ofSpan s).language = symbols s.Holds := by
  unfold ofSpan
  split
  · rename_i single
    apply symbols_congr
    intro a
    constructor
    · intro same
      rw [same]
      exact ⟨ReflCmp.isLE_rfl, ordered⟩
    · intro holds
      have below := holds.2
      rw [← single] at below
      exact LawfulEqCmp.eq_of_compare (OrientedCmp.isLE_antisymm below holds.1)
  · exact symbols_congr ordered.between_iff

end Core

namespace Regex

variable [Alphabet α] [DecidableEq α]

theorem language_desugar_of_everyClass (regex : Regex α)
    (classes : regex.EveryClass fun negated spans =>
      (oneOf negated spans).desugar.language = (oneOf negated spans).language) :
    regex.desugar.language = regex.language := by
  induction regex with
  | empty => rfl
  | nothing => rfl
  | literal a => rfl
  | range a b => rfl
  | seq first second ihFirst ihSecond =>
    simp only [desugar, language, Core.language, ihFirst classes.1, ihSecond classes.2]
  | alt first second ihFirst ihSecond =>
    simp only [desugar, language, Core.language, ihFirst classes.1, ihSecond classes.2]
  | star inner ih => simp only [desugar, language, Core.language, ih classes]
  | optional inner ih => simp only [desugar, language, Core.language, ih classes]
  | plus inner ih =>
    simp only [desugar, language, Core.language, ih classes]
    ext word
    have counted := Core.mem_pow_mul_iff inner.language (inner.language∗) 1 (fun _ => True) word
      (by simp [Core.mem_kstar_iff_pow])
    rw [pow_one] at counted
    show _ ↔ ∃ n, 1 ≤ n ∧ word ∈ inner.language ^ n
    simpa using counted
  | repeated inner least greatest ih =>
    ext word
    rw [desugar, Core.mem_repeated, ih classes]
    rfl
  | string word => exact (Core.language_joinAll_seq _).trans (Core.prod_literals word)
  | oneOf negated spans => exact classes

theorem language_desugar_oneOf [LawfulAlphabet α] (negated : Bool) (spans : List (Span α))
    (ordered : ∀ s ∈ spans, s.Ordered) :
    (oneOf negated spans).desugar.language = (oneOf negated spans).language := by
  ext word
  rw [desugar, Core.language_joinAll_alt, Core.mem_sum]
  have covers := Span.ordered_cover negated spans ordered
  constructor
  · intro h
    obtain ⟨l, member, read⟩ := h
    obtain ⟨core, inCores, rfl⟩ := List.mem_map.mp member
    obtain ⟨s, inCover, rfl⟩ := List.mem_map.mp inCores
    rw [Core.language_ofSpan s (covers s inCover)] at read
    obtain ⟨a, single, holds⟩ := read
    exact ⟨a, single, (Span.holds_cover negated spans ordered a).mp ⟨s, inCover, holds⟩⟩
  · intro h
    obtain ⟨a, single, inside⟩ := h
    obtain ⟨s, inCover, holds⟩ := (Span.holds_cover negated spans ordered a).mpr inside
    refine ⟨symbols s.Holds, ?_, a, single, holds⟩
    rw [← Core.language_ofSpan s (covers s inCover)]
    exact List.mem_map_of_mem (List.mem_map_of_mem inCover)

theorem language_desugar [LawfulAlphabet α] (regex : Regex α) (ordered : regex.Ordered) :
    regex.desugar.language = regex.language :=
  regex.language_desugar_of_everyClass (ordered.mono language_desugar_oneOf)

end Regex

end IntervalAutomata
