import IntervalAutomata.Alphabet.Letter
import IntervalAutomata.Proofs.Balance.Joined
import IntervalAutomata.Regex.Core
import IntervalAutomata.Size
import Mathlib

namespace IntervalAutomata.Regex

open Balance

universe u

variable {α : Type u} [Ord α] [Alphabet α] [DecidableEq α]

theorem desugar_string_eq_value (symbols : List α) (some : symbols ≠ []) :
    ∃ tree : Joined (Core α), (string symbols).desugar = tree.value .seq ∧
      tree.items = symbols.map .literal ∧ tree.height = Nat.clog 2 symbols.length := by
  have literals : symbols.map Core.literal ≠ [] := by simpa using some
  obtain ⟨tree, value, items, height⟩ := joinAll_eq_value Core.seq .empty _ literals
  rw [List.length_map] at height
  exact ⟨tree, value, items, height⟩

theorem desugar_oneOf_eq_value (negated : Bool) (spans : List (Span α))
    (some : Span.cover negated spans ≠ []) :
    ∃ tree : Joined (Core α), (oneOf negated spans).desugar = tree.value .alt ∧
      tree.items = (Span.cover negated spans).map .ofSpan ∧
      tree.height = Nat.clog 2 (Span.cover negated spans).length := by
  have parts : (Span.cover negated spans).map Core.ofSpan ≠ [] := by simpa using some
  obtain ⟨tree, value, items, height⟩ := joinAll_eq_value Core.alt .nothing _ parts
  rw [List.length_map] at height
  exact ⟨tree, value, items, height⟩

/-- Core forms of strings and of classes are balanced trees over the symbols or the spans in order,
    and the copies of a part stand under no more levels, and no more different sequences, than
    doubling takes. -/
theorem desugar_shallow :
    (∀ symbols : List α, symbols ≠ [] → ∃ tree : Joined (Core α),
      (string symbols).desugar = tree.value .seq ∧ tree.items = symbols.map .literal ∧
        tree.height = Nat.clog 2 symbols.length) ∧
    (∀ (negated : Bool) (spans : List (Span α)), Span.cover negated spans ≠ [] →
      ∃ tree : Joined (Core α), (oneOf negated spans).desugar = tree.value .alt ∧
        tree.items = (Span.cover negated spans).map .ofSpan ∧
        tree.height = Nat.clog 2 (Span.cover negated spans).length) ∧
    ∀ (part : Core α) (count : Nat), 0 < count → ∃ tree : Joined (Core α),
      copies? .seq part count = some (tree.value .seq) ∧
        tree.items = List.replicate count part ∧ tree.height ≤ 2 * Nat.log 2 count ∧
        (tree.joins .seq).card ≤ 2 * Nat.log 2 count :=
  ⟨desugar_string_eq_value, desugar_oneOf_eq_value, copies?_eq_value Core.seq⟩

theorem desugar_fiveLetters :
    (∃ tree : Joined (Core Letter),
      (string [Letter.A, .B, .C, .D, .E]).desugar = tree.value .seq ∧
        tree.items = [.literal .A, .literal .B, .literal .C, .literal .D, .literal .E] ∧
        tree.height = 3) ∧
    (∃ tree : Joined (Core Letter),
      (oneOf true [⟨Letter.D, .D⟩, ⟨.B, .B⟩]).desugar = tree.value .alt ∧
        tree.items = [.literal .A, .literal .C, .literal .E] ∧ tree.height = 2) ∧
    ∃ tree : Joined (Core Letter),
      copies? .seq (.seq (.literal .A) (.literal .B)) Size.greatest = some (tree.value .seq) ∧
        tree.items = List.replicate Size.greatest (.seq (.literal .A) (.literal .B)) ∧
        tree.height ≤ 126 ∧ (tree.joins .seq).card ≤ 126 := by
  obtain ⟨ofString, ofClass, ofCopies⟩ := desugar_shallow (α := Letter)
  have cover : Span.cover true [⟨Letter.D, .D⟩, ⟨.B, .B⟩] =
      [⟨.A, .A⟩, ⟨.C, .C⟩, ⟨.E, .E⟩] := by cbv
  have levels : Nat.log 2 Size.greatest = 63 := by
    rw [Nat.log_eq_iff (by decide)]
    decide
  refine ⟨?_, ?_, ?_⟩
  · obtain ⟨tree, value, items, height⟩ := ofString [.A, .B, .C, .D, .E] (by decide)
    exact ⟨tree, value, items, height.trans (by norm_num)⟩
  · obtain ⟨tree, value, items, height⟩ := ofClass true [⟨.D, .D⟩, ⟨.B, .B⟩] (by rw [cover]; decide)
    rw [cover] at items height
    exact ⟨tree, value, items, height.trans (by norm_num)⟩
  · obtain ⟨tree, value, items, height, card⟩ :=
      ofCopies (.seq (.literal .A) (.literal .B)) Size.greatest (by decide)
    rw [levels] at height card
    exact ⟨tree, value, items, height, card⟩

end IntervalAutomata.Regex
