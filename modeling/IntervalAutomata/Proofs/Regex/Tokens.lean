import IntervalAutomata.Proofs.Text.SelfDelimiting
import IntervalAutomata.Regex.Render

namespace IntervalAutomata

open Text

universe u

inductive Mark where
  | opening
  | closing
  | bar
  | star
  | optional
  | plus

def Mark.char : Mark → Char
  | opening => '('
  | closing => ')'
  | bar => '|'
  | star => '*'
  | optional => '?'
  | plus => '+'

theorem Mark.char_injective : Function.Injective char := by
  intro m n same
  cases m <;> cases n <;> first | rfl | exact absurd same (by decide)

inductive Token (α : Type u) where
  | mark (m : Mark)
  | symbol (a : α)
  | oneOf (negated : Bool) (spans : List (Span α))
  | bounds (min : Nat) (max : Option Nat)

variable {α : Type u}

def Token.text [Written α] : Token α → List Char
  | mark m => [m.char]
  | symbol a => (Written.quoted a).toList
  | oneOf negated spans =>
    '[' :: ((if negated then ['^'] else []) ++ spans.flatMap (fun s => (Regex.renderSpan s).toList) ++
      [']'])
  | bounds min max => (Regex.renderBounds min max).toList

namespace Regex

def enclosed (needed : Bool) (tokens : List (Token α)) : List (Token α) :=
  if needed then .mark .opening :: (tokens ++ [.mark .closing]) else tokens

def tokens : Regex α → List (Token α)
  | empty => [.mark .opening, .mark .closing]
  | nothing => [.oneOf false []]
  | literal a => [.symbol a]
  | range a b => [.oneOf false [⟨a, b⟩]]
  | seq first second => enclosed first.isAlt first.tokens ++ enclosed second.isAlt second.tokens
  | alt first second => first.tokens ++ .mark .bar :: second.tokens
  | star inner => enclosed (inner.isSeq || inner.isAlt) inner.tokens ++ [.mark .star]
  | optional inner => enclosed (inner.isSeq || inner.isAlt) inner.tokens ++ [.mark .optional]
  | plus inner => enclosed (inner.isSeq || inner.isAlt) inner.tokens ++ [.mark .plus]
  | repeated inner min max =>
    enclosed (inner.isSeq || inner.isAlt) inner.tokens ++ [.bounds min max]
  | string word => word.map .symbol
  | oneOf negated spans => [.oneOf negated spans]

variable [Written α]

theorem toList_parenthesized {text : String} {tokens : List (Token α)}
    (read : text.toList = tokens.flatMap Token.text) (needed : Bool) :
    (parenthesized needed text).toList = (enclosed needed tokens).flatMap Token.text := by
  cases needed with
  | false => exact read
  | true => simp [parenthesized, enclosed, String.toList_append, read, Token.text, Mark.char]

theorem toList_render (regex : Regex α) :
    regex.render.toList = regex.tokens.flatMap Token.text := by
  induction regex with
  | empty => simp [render, tokens, Token.text, Mark.char]
  | nothing => simp [render, tokens, Token.text]
  | literal a => simp [render, tokens, Token.text]
  | range a b => simp [render, tokens, Token.text, String.toList_append]
  | seq first second ihFirst ihSecond =>
    rw [render, tokens, String.toList_append, List.flatMap_append,
      toList_parenthesized ihFirst, toList_parenthesized ihSecond]
  | alt first second ihFirst ihSecond =>
    simp [render, tokens, String.toList_append, ihFirst, ihSecond, Token.text, Mark.char]
  | star inner ih =>
    rw [render, tokens, String.toList_append, List.flatMap_append, toList_parenthesized ih]
    rfl
  | optional inner ih =>
    rw [render, tokens, String.toList_append, List.flatMap_append, toList_parenthesized ih]
    rfl
  | plus inner ih =>
    rw [render, tokens, String.toList_append, List.flatMap_append, toList_parenthesized ih]
    rfl
  | repeated inner min max ih =>
    rw [render, tokens, String.toList_append, List.flatMap_append, toList_parenthesized ih,
      List.flatMap_singleton]
    rfl
  | string word =>
    simp [render, tokens, String.toList_join, List.flatMap_map, Token.text]
  | oneOf negated spans =>
    cases negated <;>
      simp [render, tokens, String.toList_append, String.toList_join, List.flatMap_map, Token.text]

end Regex

theorem delimits_apostrophe : Delimits '\x27' :=
  ⟨by decide, by decide, rfl⟩

theorem toList_quoted (c : Char) :
    (Written.quoted c).toList = '\x27' :: ((escape '\x27' c).toList ++ ['\x27']) := by
  show (quote '\x27' [c]).toList = _
  rw [toList_quote, List.flatMap_singleton]

theorem selfDelimiting_quoted : SelfDelimiting fun c : Char => (Written.quoted c).toList := by
  intro x y r s same
  obtain ⟨texts, rest⟩ := selfDelimiting_quote delimits_apostrophe (x := [x]) (y := [y]) same
  exact ⟨List.head_eq_of_cons_eq texts, rest⟩

theorem toList_renderSpan (s : Span Char) : (Regex.renderSpan s).toList =
    (Written.quoted s.first).toList ++ '-' :: (Written.quoted s.last).toList := by
  simp [Regex.renderSpan, String.toList_append]

theorem selfDelimiting_renderSpan :
    SelfDelimiting fun s : Span Char => (Regex.renderSpan s).toList := by
  intro x y r s same
  simp only [toList_renderSpan, List.append_assoc, List.cons_append] at same
  obtain ⟨first, behind⟩ := selfDelimiting_quoted same
  obtain ⟨last, rest⟩ := selfDelimiting_quoted (List.tail_eq_of_cons_eq behind)
  refine ⟨?_, rest⟩
  cases x
  cases y
  exact congr (congrArg Span.mk first) last

theorem renderSpan_append_ne (s : Span Char) {c : Char} (other : c ≠ '\x27') (t u : List Char) :
    (Regex.renderSpan s).toList ++ t ≠ c :: u := by
  intro same
  rw [toList_renderSpan, toList_quoted] at same
  exact other (List.head_eq_of_cons_eq same).symm

theorem renderSpans_append_ne (spans : List (Span Char)) {c mark : Char} (other : c ≠ '\x27')
    (unmarked : c ≠ mark) (t u : List Char) :
    spans.flatMap (fun s => (Regex.renderSpan s).toList) ++ mark :: t ≠ c :: u := by
  cases spans with
  | nil => exact fun same => unmarked (List.head_eq_of_cons_eq same).symm
  | cons first rest =>
    rw [List.flatMap_cons, List.append_assoc]
    exact renderSpan_append_ne first other _ u

theorem renderSpans_until {mark : Char} (other : mark ≠ '\x27') {spans spans' : List (Span Char)}
    {r s : List Char}
    (same : spans.flatMap (fun s => (Regex.renderSpan s).toList) ++ mark :: r =
      spans'.flatMap (fun s => (Regex.renderSpan s).toList) ++ mark :: s) :
    spans = spans' ∧ r = s := by
  obtain ⟨row, behind⟩ := selfDelimiting_renderSpan.flatMap
    (fun x t => renderSpan_append_ne x other t r) (fun x t => renderSpan_append_ne x other t s) same
  exact ⟨row, List.tail_eq_of_cons_eq behind⟩

theorem eq_of_class {negated negated' : Bool} {spans spans' : List (Span Char)} {r s : List Char}
    (same : (Token.oneOf negated spans).text ++ r = (Token.oneOf negated' spans').text ++ s) :
    negated = negated' ∧ spans = spans' ∧ r = s := by
  -- a caret begins no span, so it can only come from a negated class
  cases negated <;> cases negated' <;>
    simp only [Token.text, List.cons_append, List.append_assoc, List.nil_append, List.cons.injEq,
      true_and, Bool.false_eq_true, if_false, if_true] at same
  · exact ⟨rfl, renderSpans_until (by decide) same⟩
  · exact absurd same (renderSpans_append_ne spans (by decide) (by decide) _ _)
  · exact absurd same.symm (renderSpans_append_ne spans' (by decide) (by decide) _ _)
  · exact ⟨rfl, renderSpans_until (by decide) same⟩

theorem toList_renderBounds (min : Nat) (max : Option Nat) : (Regex.renderBounds min max).toList =
    '\x7b' :: (Nat.toDigits 10 min ++ ',' :: (max.elim [] (Nat.toDigits 10) ++ ['\x7d'])) := by
  cases max <;> simp [Regex.renderBounds, String.toList_append]

theorem Mark.char_apart (m : Mark) : m.char ≠ '\x27' ∧ m.char ≠ '[' ∧ m.char ≠ '\x7b' := by
  cases m <;> decide

theorem Token.selfDelimiting_text : SelfDelimiting (Token.text : Token Char → List Char) := by
  intro x y r s same
  -- tokens of two kinds differ in their first character
  cases x with
  | mark m =>
    cases y with
    | mark n =>
      obtain ⟨char, rest⟩ := List.cons_eq_cons.mp same
      exact ⟨congrArg mark (Mark.char_injective char), rest⟩
    | _ => simp [text, toList_quoted, toList_renderBounds, m.char_apart] at same
  | symbol a =>
    cases y with
    | mark n => simp [text, toList_quoted, n.char_apart.1.symm] at same
    | symbol b =>
      obtain ⟨symbols, rest⟩ := selfDelimiting_quoted same
      exact ⟨congrArg symbol symbols, rest⟩
    | _ => simp [text, toList_quoted, toList_renderBounds] at same
  | oneOf negated spans =>
    cases y with
    | mark n => simp [text, n.char_apart.2.1.symm] at same
    | oneOf negated' spans' =>
      obtain ⟨rfl, rfl, rest⟩ := eq_of_class same
      exact ⟨rfl, rest⟩
    | _ => simp [text, toList_quoted, toList_renderBounds] at same
  | bounds min max =>
    cases y with
    | mark n => simp [text, toList_renderBounds, n.char_apart.2.2.symm] at same
    | bounds min' max' =>
      simp only [text, toList_renderBounds, List.cons_append, List.append_assoc, List.nil_append,
        List.cons.injEq, true_and] at same
      obtain ⟨rfl, behind⟩ := toDigits_until (by decide) (by decide) (by decide) same
      obtain ⟨rfl, rest⟩ := digits_until (by decide) (by decide) (by decide) behind
      exact ⟨rfl, rest⟩
    | _ => simp [text, toList_quoted, toList_renderBounds] at same

theorem Token.text_ne_nil (x : Token Char) : x.text ≠ [] := by
  cases x <;> simp [text, toList_quoted, toList_renderBounds]

theorem Regex.tokens_eq_of_render_eq {x y : Regex Char} (same : x.render = y.render) :
    x.tokens = y.tokens := by
  have texts := congrArg String.toList same
  rw [toList_render, toList_render] at texts
  have ends : ∀ (t : Token Char) (u : List Char), t.text ++ u ≠ [] :=
    fun t u none => t.text_ne_nil (List.append_eq_nil_iff.mp none).1
  refine (Token.selfDelimiting_text.flatMap (r := []) (s := []) ends ends ?_).1
  rwa [List.append_nil, List.append_nil]

end IntervalAutomata
