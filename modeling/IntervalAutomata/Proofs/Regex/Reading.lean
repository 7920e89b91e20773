import IntervalAutomata.Proofs.Regex.Language
import IntervalAutomata.Proofs.Regex.Tokens

/-!
Reading tokens: a postfix operator applies to the part right before it, and parts in sequence bind
closer than alternatives. What is read from the tokens of an expression is its language, if no
postfix operator stands on a string that has no single token.
-/

namespace IntervalAutomata

open Computability Std

universe u

variable {α : Type u} [Ord α]

namespace Regex

/-- The expressions that can be built, where ranges are in order and numbers of repetitions exist. -/
inductive Constructed : Regex α → Prop where
  | empty : Constructed empty
  | nothing : Constructed nothing
  | literal (a : α) : Constructed (literal a)
  | between (a b : α) : Constructed (between a b)
  | seq {first second : Regex α} : Constructed first → Constructed second →
    Constructed (seq first second)
  | alt {first second : Regex α} : Constructed first → Constructed second →
    Constructed (alt first second)
  | star {inner : Regex α} : Constructed inner → Constructed (star inner)
  | optional {inner : Regex α} : Constructed inner → Constructed (optional inner)
  | plus {inner : Regex α} : Constructed inner → Constructed (plus inner)
  | times {inner regex : Regex α} {min : Nat} {max : Option Nat} : Constructed inner →
    inner.times min max = .ok regex → Constructed regex
  | string (word : List α) : Constructed (string word)
  | inside (ranges : List (α × α)) : Constructed (inside ranges)
  | outside (ranges : List (α × α)) : Constructed (outside ranges)

omit [Ord α] in
theorem eq_of_times {inner regex : Regex α} {min : Nat} {max : Option Nat}
    (built : inner.times min max = .ok regex) : regex = repeated inner min max := by
  unfold times at built
  split at built
  · split at built
    · contradiction
    · exact (Except.ok.inj built).symm
  · exact (Except.ok.inj built).symm

theorem Constructed.ordered [TransOrd α] {regex : Regex α} (constructed : regex.Constructed) :
    regex.Ordered := by
  have spans : ∀ ranges : List (α × α), ∀ s ∈ ranges.map fun r => Span.between r.1 r.2,
      s.Ordered := by
    intro ranges s member
    obtain ⟨r, _, rfl⟩ := List.mem_map.mp member
    exact Span.ordered_between r.1 r.2
  induction constructed with
  | empty => trivial
  | nothing => trivial
  | literal a => trivial
  | between a b => trivial
  | seq _ _ ihFirst ihSecond => exact ⟨ihFirst, ihSecond⟩
  | alt _ _ ihFirst ihSecond => exact ⟨ihFirst, ihSecond⟩
  | star _ ih => exact ih
  | optional _ ih => exact ih
  | plus _ ih => exact ih
  | times _ built ih =>
    rw [eq_of_times built]
    exact ih
  | string word => trivial
  | inside ranges => exact spans ranges
  | outside ranges => exact spans ranges

/-- Whether the expression has one token of its own or can be put in parentheses. A string is put in
    none, so it must not have several tokens or none at all. -/
def IsUnit : Regex α → Prop
  | string word => word.length = 1
  | _ => True

def WholeOperands : Regex α → Prop
  | empty | nothing | literal _ | range _ _ | string _ | oneOf _ _ => True
  | seq first second | alt first second => first.WholeOperands ∧ second.WholeOperands
  | star inner | optional inner | plus inner | repeated inner _ _ =>
    inner.IsUnit ∧ inner.WholeOperands

end Regex

/-- A group that is being read: the alternatives before the current one, and of that one all parts
    but the last, and the last. -/
structure Group (α : Type u) where
  choices : Language α
  front : Language α
  last : Language α

namespace Group

def fresh {α : Type u} (choices : Language α) : Group α :=
  ⟨choices, 1, 1⟩

def language {α : Type u} (g : Group α) : Language α :=
  g.choices + g.front * g.last

def push {α : Type u} (g : Group α) (part : Language α) : Group α :=
  { g with front := g.front * g.last, last := part }

def apply {α : Type u} (g : Group α) (f : Language α → Language α) : Group α :=
  { g with last := f g.last }

end Group

abbrev Reading (α : Type u) := Group α × List (Group α)

namespace Reading

def step : Reading α → Token α → Reading α
  | (g, outer), .mark .opening => (.fresh 0, g :: outer)
  | (g, around :: outer), .mark .closing => (around.push g.language, outer)
  | (g, []), .mark .closing => (g, [])
  | (g, outer), .mark .bar => (.fresh g.language, outer)
  | (g, outer), .mark .star => (g.apply (·∗), outer)
  | (g, outer), .mark .optional => (g.apply (· + 1), outer)
  | (g, outer), .mark .plus => (g.apply fun l => {word | ∃ n, 1 ≤ n ∧ word ∈ l ^ n}, outer)
  | (g, outer), .symbol a => (g.push (symbols (· = a)), outer)
  | (g, outer), .oneOf negated spans =>
    (g.push (symbols fun a => (∃ s ∈ spans, s.Holds a) ↔ negated = false), outer)
  | (g, outer), .bounds least greatest =>
    (g.apply fun l =>
      {word | ∃ n, least ≤ n ∧ (∀ m ∈ greatest, n ≤ max least m) ∧ word ∈ l ^ n}, outer)

def run (reading : Reading α) (tokens : List (Token α)) : Reading α :=
  tokens.foldl step reading

theorem run_append (reading : Reading α) (front back : List (Token α)) :
    reading.run (front ++ back) = (reading.run front).run back :=
  List.foldl_append ..

end Reading

def readTokens (tokens : List (Token α)) : Language α :=
  (Reading.run (.fresh 0, []) tokens).1.language

/-- Tokens for a part, to which a postfix operator behind it applies. -/
def ReadsItem (tokens : List (Token α)) (l : Language α) : Prop :=
  ∀ g outer, Reading.run (g, outer) tokens = (g.push l, outer)

def ReadsSequence (tokens : List (Token α)) (l : Language α) : Prop :=
  ∀ g outer, ∃ g', Reading.run (g, outer) tokens = (g', outer) ∧ g'.choices = g.choices ∧
    g'.front * g'.last = g.front * g.last * l

def ReadsGroup (tokens : List (Token α)) (l : Language α) : Prop :=
  ∀ choices outer, ∃ g, Reading.run (.fresh choices, outer) tokens = (g, outer) ∧
    g.language = choices + l

variable {tokens front back : List (Token α)} {l m : Language α}

theorem ReadsItem.sequence (item : ReadsItem tokens l) : ReadsSequence tokens l :=
  fun g outer => ⟨g.push l, item g outer, rfl, rfl⟩

theorem ReadsSequence.group (sequence : ReadsSequence tokens l) : ReadsGroup tokens l := by
  intro choices outer
  obtain ⟨g, ran, same, parts⟩ := sequence (.fresh choices) outer
  refine ⟨g, ran, ?_⟩
  rw [Group.language, same, parts]
  show choices + 1 * 1 * l = choices + l
  rw [one_mul, one_mul]

theorem ReadsSequence.append (first : ReadsSequence front l) (second : ReadsSequence back m) :
    ReadsSequence (front ++ back) (l * m) := by
  intro g outer
  obtain ⟨g', ranFirst, choices, parts⟩ := first g outer
  obtain ⟨g'', ranSecond, choices', parts'⟩ := second g' outer
  refine ⟨g'', ?_, choices'.trans choices, ?_⟩
  · rw [Reading.run_append, ranFirst, ranSecond]
  · rw [parts', parts, mul_assoc]

theorem ReadsGroup.bar (first : ReadsGroup front l) (second : ReadsGroup back m) :
    ReadsGroup (front ++ .mark .bar :: back) (l + m) := by
  intro choices outer
  obtain ⟨g, ranFirst, before⟩ := first choices outer
  obtain ⟨g', ranSecond, all⟩ := second g.language outer
  refine ⟨g', ?_, ?_⟩
  · rw [Reading.run_append, ranFirst]
    exact ranSecond
  · rw [all, before, add_assoc]

theorem ReadsGroup.parentheses (group : ReadsGroup tokens l) :
    ReadsItem (.mark .opening :: (tokens ++ [.mark .closing])) l := by
  intro g outer
  -- the group inside is read on top of the one around it, which the closing mark resumes
  obtain ⟨inner, ran, all⟩ := group 0 (g :: outer)
  rw [zero_add] at all
  show Reading.run (.fresh 0, g :: outer) (tokens ++ [.mark .closing]) = _
  rw [Reading.run_append, ran, ← all]
  rfl

theorem ReadsItem.operator (item : ReadsItem tokens l) (token : Token α)
    (acts : ∀ (g : Group α) outer, Reading.step (g.push l, outer) token = (g.push m, outer)) :
    ReadsItem (tokens ++ [token]) m := by
  intro g outer
  rw [Reading.run_append, item]
  exact acts g outer

theorem readsSequence_nil : ReadsSequence ([] : List (Token α)) 1 :=
  fun g _ => ⟨g, rfl, rfl, (mul_one _).symm⟩

theorem readsItem_symbol (a : α) : ReadsItem [.symbol a] (symbols (· = a)) :=
  fun _ _ => rfl

theorem readsItem_class (negated : Bool) (spans : List (Span α)) :
    ReadsItem [.oneOf negated spans]
      (symbols fun a => (∃ s ∈ spans, s.Holds a) ↔ negated = false) :=
  fun _ _ => rfl

theorem readsSequence_symbols (word : List α) : ReadsSequence (word.map .symbol) {word} := by
  rw [← Core.prod_literals]
  induction word with
  | nil => exact readsSequence_nil
  | cons a rest ih =>
    rw [List.map_cons, List.map_cons, List.map_cons, List.prod_cons]
    exact (readsItem_symbol a).sequence.append ih

structure Regex.Reads (regex : Regex α) : Prop where
  group : ReadsGroup regex.tokens regex.language
  sequence : regex.isAlt = false → ReadsSequence regex.tokens regex.language
  item : regex.isAlt = false → regex.isSeq = false → regex.IsUnit →
    ReadsItem regex.tokens regex.language

namespace Regex

variable {regex first second inner : Regex α}

theorem Reads.of_sequence (sequence : ReadsSequence regex.tokens regex.language)
    (item : regex.isAlt = false → regex.isSeq = false → regex.IsUnit →
      ReadsItem regex.tokens regex.language) : regex.Reads :=
  ⟨sequence.group, fun _ => sequence, item⟩

theorem Reads.of_item (item : ReadsItem regex.tokens regex.language) : regex.Reads :=
  .of_sequence item.sequence fun _ _ _ => item

theorem Reads.part (reads : regex.Reads) :
    ReadsSequence (enclosed regex.isAlt regex.tokens) regex.language := by
  cases kind : regex.isAlt with
  | false => exact reads.sequence kind
  | true => exact reads.group.parentheses.sequence

theorem Reads.operand (reads : regex.Reads) (unit : regex.IsUnit) :
    ReadsItem (enclosed (regex.isSeq || regex.isAlt) regex.tokens) regex.language := by
  cases kind : regex.isSeq || regex.isAlt with
  | false =>
    obtain ⟨noSeq, noAlt⟩ := Bool.or_eq_false_iff.mp kind
    exact reads.item noAlt noSeq unit
  | true => exact reads.group.parentheses

theorem Reads.seq (front : first.Reads) (back : second.Reads) : (seq first second).Reads := by
  refine .of_sequence (front.part.append back.part) ?_
  intro _ noSeq
  contradiction

theorem Reads.alt (front : first.Reads) (back : second.Reads) : (alt first second).Reads where
  group := front.group.bar back.group
  sequence := nofun
  item := nofun

theorem reads_string (word : List α) : (string word).Reads := by
  refine .of_sequence (readsSequence_symbols word) ?_
  intro _ _ unit
  -- a string is an item only as a single symbol
  obtain ⟨a, rfl⟩ := List.length_eq_one_iff.mp unit
  have single : (string [a]).language = symbols (· = a) :=
    (Core.prod_literals [a]).symm.trans (List.prod_singleton)
  rw [single]
  exact readsItem_symbol a

theorem reads_between [TransOrd α] (a b : α) : (between a b).Reads := by
  apply Reads.of_item
  have inside : (between a b).language =
      symbols fun c => (∃ s ∈ [Span.between a b], s.Holds c) ↔ false = false := by
    apply symbols_congr
    intro c
    rw [(Span.ordered_between a b).between_iff]
    simp
  rw [inside]
  exact readsItem_class false [Span.between a b]

theorem reads_nothing : (nothing : Regex α).Reads := by
  apply Reads.of_item
  have none : (nothing : Regex α).language =
      symbols fun c => (∃ s ∈ ([] : List (Span α)), s.Holds c) ↔ false = false := by
    ext word
    constructor
    · intro member
      exact absurd member (Language.notMem_zero word)
    · intro member
      obtain ⟨c, _, inside⟩ := member
      obtain ⟨s, inNone, _⟩ := inside.mpr rfl
      contradiction
  rw [none]
  exact readsItem_class false []

theorem reads_tokens [TransOrd α] (constructed : regex.Constructed)
    (whole : regex.WholeOperands) : regex.Reads := by
  induction constructed with
  | empty => exact .of_item readsSequence_nil.group.parentheses
  | nothing => exact reads_nothing
  | literal a => exact .of_item (readsItem_symbol a)
  | between a b => exact reads_between a b
  | seq _ _ ihFirst ihSecond => exact (ihFirst whole.1).seq (ihSecond whole.2)
  | alt _ _ ihFirst ihSecond => exact (ihFirst whole.1).alt (ihSecond whole.2)
  | star _ ih => exact .of_item (((ih whole.2).operand whole.1).operator _ fun _ _ => rfl)
  | optional _ ih => exact .of_item (((ih whole.2).operand whole.1).operator _ fun _ _ => rfl)
  | plus _ ih => exact .of_item (((ih whole.2).operand whole.1).operator _ fun _ _ => rfl)
  | times _ built ih =>
    rw [eq_of_times built] at whole ⊢
    exact .of_item (((ih whole.2).operand whole.1).operator _ fun _ _ => rfl)
  | string word => exact reads_string word
  | inside ranges => exact .of_item (readsItem_class false _)
  | outside ranges => exact .of_item (readsItem_class true _)

theorem readTokens_tokens [TransOrd α] (constructed : regex.Constructed)
    (whole : regex.WholeOperands) : readTokens regex.tokens = regex.language := by
  obtain ⟨g, ran, all⟩ := (reads_tokens constructed whole).group 0 []
  rw [zero_add] at all
  rw [readTokens, ran, all]

end Regex

end IntervalAutomata
