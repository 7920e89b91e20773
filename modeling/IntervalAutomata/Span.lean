import IntervalAutomata.Alphabet.Basic

/-!
Spans: inclusive ranges of symbols. A list of spans stands for the symbols in any of them; its
normal form is ascending, with at least one symbol missing between neighbours.
-/

namespace IntervalAutomata

universe u

structure Span (α : Type u) where
  first : α
  last : α
deriving DecidableEq

namespace Span

variable {α : Type u} [Ord α]

def between (a b : α) : Span α :=
  if compare b a = .lt then ⟨b, a⟩ else ⟨a, b⟩

def precedes (s t : Span α) : Bool :=
  ((compare s.first t.first).then (compare s.last t.last)).isLE

def join (s t : Span α) : Span α where
  first := s.first
  last := if compare t.last s.last = .gt then t.last else s.last

variable [Alphabet α]

/-- Whether no symbol is missing between a span and one that starts no earlier. -/
def meets (s t : Span α) : Bool :=
  match Alphabet.prev? t.first with
  | none => true
  | some before => (compare before s.last).isLE

def mergeFrom (s : Span α) : List (Span α) → List (Span α)
  | [] => [s]
  | t :: rest => if s.meets t then mergeFrom (s.join t) rest else s :: mergeFrom t rest

def merge : List (Span α) → List (Span α)
  | [] => []
  | s :: rest => mergeFrom s rest

def normalize (spans : List (Span α)) : List (Span α) :=
  merge (spans.mergeSort precedes)

/-- The symbols from `start` up to the one before a span, if there are any. -/
def gapBefore (start : Option α) (s : Span α) : List (Span α) :=
  match start, Alphabet.prev? s.first with
  | some a, some b => if (compare a b).isLE then [⟨a, b⟩] else []
  | _, _ => []

/-- The symbols from `start` on that a normal list of spans leaves out. -/
def gapsFrom (start : Option α) : List (Span α) → List (Span α)
  | [] => start.toList.map fun a => ⟨a, Alphabet.greatest⟩
  | s :: rest => gapBefore start s ++ gapsFrom (Alphabet.next? s.last) rest

def complement (spans : List (Span α)) : List (Span α) :=
  gapsFrom (some Alphabet.least) spans

/-- The normal form of the symbols inside the spans, or outside if negated. -/
def cover (negated : Bool) (spans : List (Span α)) : List (Span α) :=
  if negated then complement (normalize spans) else normalize spans

end Span

end IntervalAutomata
