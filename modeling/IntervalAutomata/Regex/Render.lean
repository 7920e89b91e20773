import IntervalAutomata.Regex.Basic

namespace IntervalAutomata.Regex

universe u

variable {α : Type u}

def isAlt : Regex α → Bool
  | alt _ _ => true
  | _ => false

def isSeq : Regex α → Bool
  | seq _ _ => true
  | _ => false

def parenthesized (needed : Bool) (text : String) : String :=
  if needed then "(" ++ text ++ ")" else text

def renderBounds (min : Nat) (max : Option Nat) : String :=
  "\x7b" ++ toString min ++ "," ++ (max.map toString).getD "" ++ "\x7d"

def renderSpan [Written α] (span : Span α) : String :=
  Written.quoted span.first ++ "-" ++ Written.quoted span.last

def render [Written α] : Regex α → String
  | empty => "()"
  | nothing => "[]"
  | literal a => Written.quoted a
  | range a b => "[" ++ renderSpan ⟨a, b⟩ ++ "]"
  | seq first second =>
    parenthesized first.isAlt first.render ++ parenthesized second.isAlt second.render
  | alt first second => first.render ++ "|" ++ second.render
  | star inner => parenthesized (inner.isSeq || inner.isAlt) inner.render ++ "*"
  | optional inner => parenthesized (inner.isSeq || inner.isAlt) inner.render ++ "?"
  | plus inner => parenthesized (inner.isSeq || inner.isAlt) inner.render ++ "+"
  | repeated inner min max =>
    parenthesized (inner.isSeq || inner.isAlt) inner.render ++ renderBounds min max
  | string symbols => String.join (symbols.map Written.quoted)
  | oneOf negated spans =>
    (if negated then "[^" else "[") ++ String.join (spans.map renderSpan) ++ "]"

end IntervalAutomata.Regex
