import IntervalAutomata.Proofs.Alphabet.Scalars
import IntervalAutomata.Proofs.Regex.Reading
import IntervalAutomata.Proofs.Thompson.Compile

namespace IntervalAutomata

open Computability

universe u

theorem Compiler.accepts_eq_of_language_eq {α : Type u} [Ord α] [Alphabet α] [DecidableEq α]
    [LawfulAlphabet α] {first second : Regex α} (orderedFirst : first.Ordered)
    (orderedSecond : second.Ordered) (same : first.language = second.language)
    {compiler compiler' : Compiler} {m n : Nfa α} (compiledFirst : compiler.compile first = .ok m)
    (compiledSecond : compiler'.compile second = .ok n) (word : List α) :
    m.accepts word = n.accepts word := by
  have readsFirst := Fragment.reads_ofCore 0 first.desugar
  have readsSecond := Fragment.reads_ofCore 0 second.desugar
  rw [first.language_desugar orderedFirst, same, ← second.language_desugar orderedSecond]
    at readsFirst
  rw [compile_eq_ok compiledFirst, compile_eq_ok compiledSecond, Bool.eq_iff_iff]
  exact (readsFirst.accepts_iff word).trans (readsSecond.accepts_iff word).symm

namespace Regex

/-- Two expressions with one text have one language, and their automata accept the same words. -/
theorem language_eq_of_render_eq (first second : Regex Char) (builtFirst : first.Constructed)
    (builtSecond : second.Constructed) (wholeFirst : first.WholeOperands)
    (wholeSecond : second.WholeOperands) (same : first.render = second.render) :
    first.language = second.language ∧
      ∀ (compiler compiler' : Compiler) (m n : Nfa Char), compiler.compile first = .ok m →
        compiler'.compile second = .ok n → ∀ word, m.accepts word = n.accepts word := by
  have languages : first.language = second.language := by
    rw [← readTokens_tokens builtFirst wholeFirst, ← readTokens_tokens builtSecond wholeSecond,
      tokens_eq_of_render_eq same]
  exact ⟨languages, fun _ _ _ _ => Compiler.accepts_eq_of_language_eq builtFirst.ordered
    builtSecond.ordered languages⟩

def grouped : Regex Char :=
  .seq (.literal 'a') (.seq (.star (.string ['b'])) (.between 'd' 'c'))

def regrouped : Regex Char :=
  .seq (.seq (.string ['a']) (.star (.literal 'b'))) (.inside [('c', 'd')])

theorem language_regrouped :
    grouped ≠ regrouped ∧ grouped.render = "'a''b'*['c'-'d']" ∧
      grouped.language = regrouped.language ∧
      ∃ m n, ({} : Compiler).compile grouped = .ok m ∧
        (Compiler.mk (some 8)).compile regrouped = .ok n ∧ m.accepts ['a', 'b', 'd'] = true ∧
        ∀ word, m.accepts word = n.accepts word := by
  have text : grouped.render = "'a''b'*['c'-'d']" := by cbv
  have same : grouped.render = regrouped.render := text.trans (by cbv)
  have built : grouped.Constructed :=
    .seq (.literal _) (.seq (.star (.string _)) (.between _ _))
  have rebuilt : regrouped.Constructed :=
    .seq (.seq (.string _) (.star (.literal _))) (.inside _)
  have compiled : ({} : Compiler).compile grouped =
      .ok (Fragment.ofCore 0 grouped.desugar).toNfa := by cbv
  have recompiled : (Compiler.mk (some 8)).compile regrouped =
      .ok (Fragment.ofCore 0 regrouped.desugar).toNfa := by cbv
  obtain ⟨languages, automata⟩ := language_eq_of_render_eq grouped regrouped built rebuilt
    ⟨trivial, ⟨rfl, trivial⟩, trivial⟩ ⟨⟨trivial, trivial, trivial⟩, trivial⟩ same
  exact ⟨by decide, text, languages, _, _, compiled, recompiled, by cbv,
    automata _ _ _ _ compiled recompiled⟩

section Misread

variable {α : Type u} [Ord α]

theorem nil_notMem_language_seq_literal (a : α) (behind : Regex α) :
    [] ∉ (seq (literal a) behind).language := by
  intro member
  obtain ⟨front, ⟨_, rfl, _⟩, back, _, same⟩ := Language.mem_mul.mp member
  contradiction

theorem singleton_mem_language_seq_star (a : α) (inner : Regex α) :
    [a] ∈ (seq (literal a) (star inner)).language :=
  Language.mem_mul.mpr ⟨[a], ⟨a, rfl, rfl⟩, [], Language.nil_mem_kstar _, rfl⟩

variable [Written α]

/-- An operator on a string of any length but one is written as if it stood on something else. -/
theorem exists_misread (a : α) (word : List α) (several : word.length ≠ 1) :
    ∃ other : Regex α, other.Constructed ∧ other.WholeOperands ∧
      other.render = (seq (literal a) (star (string word))).render ∧
      other.language ≠ (seq (literal a) (star (string word))).language := by
  cases word using List.reverseRecOn with
  | nil =>
    -- without a text of its own the string leaves the operator to the letter before it
    refine ⟨star (literal a), .star (.literal a), ⟨trivial, trivial⟩, rfl, ?_⟩
    intro same
    have empty : [] ∈ (star (literal a)).language := Language.nil_mem_kstar _
    rw [same] at empty
    exact nil_notMem_language_seq_literal a _ empty
  | append_singleton front last =>
    -- the operator falls on the last symbol alone
    refine ⟨seq (literal a) (seq (string front) (star (literal last))),
      .seq (.literal a) (.seq (.string front) (.star (.literal last))),
      ⟨trivial, trivial, trivial, trivial⟩, ?_, ?_⟩
    · simp [render, parenthesized, isAlt, isSeq, String.join_append, String.append_assoc]
    · intro same
      have single := singleton_mem_language_seq_star a (string (front ++ [last]))
      rw [← same] at single
      obtain ⟨_, ⟨_, rfl, _⟩, _, behind, split⟩ := Language.mem_mul.mp single
      obtain ⟨start, isFront, rest, _, rfl⟩ := Language.mem_mul.mp behind
      have none : start ++ rest = [] := List.tail_eq_of_cons_eq split
      have empty : front = [] := isFront.symm.trans (List.append_eq_nil_iff.mp none).1
      exact several (by rw [empty]; rfl)

end Misread

theorem render_stringStar :
    (star (string ['a', 'b'])).Constructed ∧
      (seq (literal 'a') (star (literal 'b'))).Constructed ∧
      (star (string ['a', 'b'])).render = (seq (literal 'a') (star (literal 'b'))).render ∧
      (star (string ['a', 'b'])).language ≠ (seq (literal 'a') (star (literal 'b'))).language ∧
      ∃ m n, ({} : Compiler).compile (star (string ['a', 'b'])) = .ok m ∧
        ({} : Compiler).compile (seq (literal 'a') (star (literal 'b'))) = .ok n ∧
        m.accepts [] = true ∧ n.accepts [] = false := by
  refine ⟨.star (.string _), .seq (.literal _) (.star (.literal _)), by cbv, ?_, ?_⟩
  · intro same
    have empty : [] ∈ (star (string ['a', 'b'])).language := Language.nil_mem_kstar _
    rw [same] at empty
    exact nil_notMem_language_seq_literal 'a' _ empty
  · exact ⟨(Fragment.ofCore 0 (star (string ['a', 'b'])).desugar).toNfa,
      (Fragment.ofCore 0 (seq (literal 'a') (star (literal 'b'))).desugar).toNfa,
      by cbv, by cbv, by cbv, by cbv⟩

end Regex

end IntervalAutomata
