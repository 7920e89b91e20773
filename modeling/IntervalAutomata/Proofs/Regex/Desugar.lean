import IntervalAutomata.Alphabet.Letter
import IntervalAutomata.Proofs.Regex.Language
import Mathlib

namespace IntervalAutomata

universe u

variable {α : Type u}

namespace Core

@[simp] theorem isPrimitive_toRegex (core : Core α) : core.toRegex.isPrimitive = true := by
  induction core with
  | empty => rfl
  | nothing => rfl
  | literal a => rfl
  | range a b => rfl
  | seq first second ihFirst ihSecond =>
    simp only [toRegex, Regex.isPrimitive, ihFirst, ihSecond, Bool.and_self]
  | alt first second ihFirst ihSecond =>
    simp only [toRegex, Regex.isPrimitive, ihFirst, ihSecond, Bool.and_self]
  | star inner ih => exact ih

variable [Ord α]

@[simp] theorem language_toRegex (core : Core α) : core.toRegex.language = core.language := by
  induction core with
  | empty => rfl
  | nothing => rfl
  | literal a => rfl
  | range a b => rfl
  | seq first second ihFirst ihSecond =>
    simp only [toRegex, Regex.language, language, ihFirst, ihSecond]
  | alt first second ihFirst ihSecond =>
    simp only [toRegex, Regex.language, language, ihFirst, ihSecond]
  | star inner ih => simp only [toRegex, Regex.language, language, ih]

@[simp] theorem desugar_toRegex [Alphabet α] [DecidableEq α] (core : Core α) :
    core.toRegex.desugar = core := by
  induction core with
  | empty => rfl
  | nothing => rfl
  | literal a => rfl
  | range a b => rfl
  | seq first second ihFirst ihSecond =>
    simp only [toRegex, Regex.desugar, ihFirst, ihSecond]
  | alt first second ihFirst ihSecond =>
    simp only [toRegex, Regex.desugar, ihFirst, ihSecond]
  | star inner ih => simp only [toRegex, Regex.desugar, ih]

end Core

namespace Regex

variable [Ord α] [Alphabet α] [DecidableEq α]

theorem toRegex_desugar_of_isPrimitive (regex : Regex α) (primitive : regex.isPrimitive = true) :
    regex.desugar.toRegex = regex := by
  induction regex with
  | empty => rfl
  | nothing => rfl
  | literal a => rfl
  | range a b => rfl
  | seq first second ihFirst ihSecond =>
    obtain ⟨inFirst, inSecond⟩ := Bool.and_eq_true_iff.mp primitive
    rw [desugar, Core.toRegex, ihFirst inFirst, ihSecond inSecond]
  | alt first second ihFirst ihSecond =>
    obtain ⟨inFirst, inSecond⟩ := Bool.and_eq_true_iff.mp primitive
    rw [desugar, Core.toRegex, ihFirst inFirst, ihSecond inSecond]
  | star inner ih => rw [desugar, Core.toRegex, ih primitive]
  | optional inner => contradiction
  | plus inner => contradiction
  | repeated inner min max => contradiction
  | string symbols => contradiction
  | oneOf negated spans => contradiction

/-- Desugaring keeps the language and leaves no convenience. It changes just the expressions that
    have one, so a second time it changes nothing. Only classes need lawful symbols and spans in
    order, and they need them for the language only. -/
theorem desugar_exact (regex : Regex α) :
    (∀ [LawfulAlphabet α], regex.Ordered → regex.desugar.toRegex.language = regex.language) ∧
      (regex.EveryClass (fun _ _ => False) →
        regex.desugar.toRegex.language = regex.language) ∧
      regex.desugar.toRegex.isPrimitive = true ∧
      (regex.desugar.toRegex = regex ↔ regex.isPrimitive = true) ∧
      regex.desugar.toRegex.desugar = regex.desugar := by
  refine ⟨?_, ?_, Core.isPrimitive_toRegex _, ⟨?_, regex.toRegex_desugar_of_isPrimitive⟩,
    Core.desugar_toRegex _⟩
  · intro lawful ordered
    rw [Core.language_toRegex, regex.language_desugar ordered]
  · intro noClass
    rw [Core.language_toRegex]
    exact regex.language_desugar_of_everyClass (noClass.mono fun _ _ => False.elim)
  · intro unchanged
    have primitive := Core.isPrimitive_toRegex regex.desugar
    rw [unchanged] at primitive
    exact primitive

def runsOfLetters : Regex Letter :=
  .alt (.repeated (.literal .A) 1 (some 3)) (.plus (.oneOf true [⟨.C, .C⟩, ⟨.B, .B⟩]))

theorem desugar_runsOfLetters :
    runsOfLetters.desugar.toRegex =
        .alt (.seq (.literal .A) (.seq (.alt (.literal .A) .empty) (.alt (.literal .A) .empty)))
          (.seq (.alt (.literal .A) (.range .D .E)) (.star (.alt (.literal .A) (.range .D .E)))) ∧
      runsOfLetters.desugar.toRegex.language = runsOfLetters.language ∧
      runsOfLetters.desugar.toRegex ≠ runsOfLetters := by
  obtain ⟨keeps, _, _, unchanged, _⟩ := desugar_exact runsOfLetters
  refine ⟨by cbv, keeps ?_, mt unchanged.mp (by decide)⟩
  simp [runsOfLetters, Regex.Ordered, Regex.EveryClass, Span.Ordered]

end Regex

end IntervalAutomata
