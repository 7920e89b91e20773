import IntervalAutomata.Proofs.Regex.Desugar
import IntervalAutomata.Proofs.Span.NormalForm

namespace IntervalAutomata.Regex

open Std

universe u

variable {α : Type u} [Ord α]

theorem singleton_mem_language_oneOf (negated : Bool) (spans : List (Span α)) (a : α) :
    [a] ∈ (oneOf negated spans).language ↔ ((∃ s ∈ spans, s.Holds a) ↔ negated = false) := by
  constructor
  · rintro ⟨b, single, inside⟩
    rw [List.singleton_inj.mp single]
    exact inside
  · intro inside
    exact ⟨a, rfl, inside⟩

variable [Alphabet α] [LawfulAlphabet α] [DecidableEq α]

theorem desugar_oneOf_eq_iff (negated negated' : Bool) (spans others : List (Span α))
    (ordered : ∀ s ∈ spans, s.Ordered) (ordered' : ∀ s ∈ others, s.Ordered) :
    (oneOf negated spans).desugar = (oneOf negated' others).desugar ↔
      ∀ a, [a] ∈ (oneOf negated spans).language ↔ [a] ∈ (oneOf negated' others).language := by
  constructor
  · intro same a
    rw [← language_desugar (oneOf negated spans) ordered, same,
      language_desugar (oneOf negated' others) ordered']
  · intro same
    simp only [singleton_mem_language_oneOf] at same
    rw [desugar, desugar, (Span.cover_eq_iff _ _ _ _ ordered ordered').mpr same]

/-- Two classes have the same core form just if they match the same symbols. So the spans may be
    listed, split and repeated in any way, and the symbols outside a class, negated, have the form of
    the class. -/
theorem desugar_oneOf_canonical (negated negated' : Bool) (spans others : List (Span α))
    (ordered : ∀ s ∈ spans, s.Ordered) (ordered' : ∀ s ∈ others, s.Ordered) :
    ((oneOf negated spans).desugar.toRegex = (oneOf negated' others).desugar.toRegex ↔
        ∀ a, [a] ∈ (oneOf negated spans).language ↔ [a] ∈ (oneOf negated' others).language) ∧
      ((∀ a, (∃ s ∈ spans, s.Holds a) ↔ ∃ s ∈ others, s.Holds a) →
        (oneOf negated spans).desugar.toRegex = (oneOf negated others).desugar.toRegex) ∧
      (oneOf true (Span.cover (!negated) spans)).desugar.toRegex =
        (oneOf negated spans).desugar.toRegex := by
  refine ⟨?_, ?_, ?_⟩
  · rw [← desugar_oneOf_eq_iff _ _ _ _ ordered ordered']
    constructor
    · intro same
      rw [← Core.desugar_toRegex (oneOf negated spans).desugar, same, Core.desugar_toRegex]
    · exact congrArg Core.toRegex
  · intro same
    rw [(desugar_oneOf_eq_iff negated negated spans others ordered ordered').mpr]
    intro a
    rw [singleton_mem_language_oneOf, singleton_mem_language_oneOf, same]
  · have covers := Span.ordered_cover (!negated) spans ordered
    rw [(desugar_oneOf_eq_iff true negated _ spans covers ordered).mpr]
    intro a
    rw [singleton_mem_language_oneOf, singleton_mem_language_oneOf,
      Span.holds_cover (!negated) spans ordered]
    cases negated <;> simp

def lettersInPieces : List (Span Letter) :=
  [⟨.D, .D⟩, ⟨.C, .D⟩, ⟨.A, .A⟩]

theorem desugar_lettersInPieces :
    (oneOf false lettersInPieces).desugar.toRegex = .alt (.literal .A) (.range .C .D) ∧
      (oneOf true [⟨.E, .E⟩, ⟨.B, .B⟩]).desugar.toRegex =
        (oneOf false lettersInPieces).desugar.toRegex ∧
      (oneOf true (Span.cover true lettersInPieces)).desugar.toRegex =
        (oneOf false lettersInPieces).desugar.toRegex ∧
      ∀ a, [a] ∈ (oneOf false lettersInPieces).language ↔
        [a] ∈ (oneOf true [Span.mk Letter.E .E, ⟨.B, .B⟩]).language := by
  obtain ⟨form, _, negation⟩ := desugar_oneOf_canonical false true lettersInPieces
    [⟨.E, .E⟩, ⟨.B, .B⟩] (by decide) (by decide)
  have one : (oneOf false lettersInPieces).desugar.toRegex =
      .alt (.literal .A) (.range .C .D) := by cbv
  have other : (oneOf true [Span.mk Letter.E .E, ⟨.B, .B⟩]).desugar.toRegex =
      .alt (.literal .A) (.range .C .D) := by cbv
  exact ⟨one, other.trans one.symm, negation, form.mp (one.trans other.symm)⟩

end IntervalAutomata.Regex
