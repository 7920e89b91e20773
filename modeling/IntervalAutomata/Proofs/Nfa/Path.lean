import IntervalAutomata.Nfa.Basic

namespace IntervalAutomata

universe u

variable {α : Type u} [Ord α]

inductive Path (ts : List (Transition α)) : State → List α → State → Prop where
  | refl (q : State) : Path ts q [] q
  | epsilon {p q r : State} {word : List α} (edge : ⟨p, .epsilon, q⟩ ∈ ts)
    (rest : Path ts q word r) : Path ts p word r
  | symbol {p q r : State} {i : Interval α} {a : α} {word : List α}
    (edge : ⟨p, .symbol i, q⟩ ∈ ts) (admits : i.contains a = true) (rest : Path ts q word r) :
    Path ts p (a :: word) r

namespace Path

variable {ts : List (Transition α)} {p q r : State}

theorem mono {more : List (Transition α)} {word : List α} (subset : ts ⊆ more)
    (path : Path ts p word q) : Path more p word q := by
  induction path with
  | refl q => exact .refl q
  | epsilon edge _ ih => exact .epsilon (subset edge) ih
  | symbol edge admits _ ih => exact .symbol (subset edge) admits ih

theorem congr {other : List (Transition α)} {word : List α} (same : ∀ t, t ∈ ts ↔ t ∈ other) :
    Path ts p word q ↔ Path other p word q :=
  ⟨mono fun t h => (same t).mp h, mono fun t h => (same t).mpr h⟩

theorem append {front back : List α} (first : Path ts p front q) (second : Path ts q back r) :
    Path ts p (front ++ back) r := by
  induction first with
  | refl q => exact second
  | epsilon edge _ ih => exact .epsilon edge (ih second)
  | symbol edge admits _ ih => exact .symbol edge admits (ih second)

theorem of_epsilon (edge : ⟨p, .epsilon, q⟩ ∈ ts) : Path ts p [] q :=
  .epsilon edge (.refl q)

theorem through {s : State} {word : List α} (entering : ⟨p, .epsilon, q⟩ ∈ ts)
    (path : Path ts q word r) (leaving : ⟨r, .epsilon, s⟩ ∈ ts) : Path ts p word s := by
  have rest := path.append (.of_epsilon leaving)
  rw [List.append_nil] at rest
  exact .epsilon entering rest

theorem cons_iff {a : α} {word : List α} :
    Path ts p (a :: word) r ↔ ∃ front i back, Path ts p [] front ∧ ⟨front, .symbol i, back⟩ ∈ ts ∧
      i.contains a = true ∧ Path ts back word r := by
  constructor
  · intro path
    generalize long : a :: word = text at path
    induction path with
    | refl q => contradiction
    | epsilon edge _ ih =>
      obtain ⟨front, i, back, lead, step, admits, rest⟩ := ih long
      exact ⟨front, i, back, .epsilon edge lead, step, admits, rest⟩
    | symbol edge admits rest =>
      obtain ⟨rfl, rfl⟩ := List.cons.inj long
      exact ⟨_, _, _, .refl _, edge, admits, rest⟩
  · intro h
    obtain ⟨front, i, back, lead, step, admits, rest⟩ := h
    exact lead.append (.symbol step admits rest)

/-- A path stays among states that no transition leaves, and there it needs only their
    transitions. -/
theorem of_closed {more : List (Transition α)} (inside : State → Prop)
    (closed : ∀ t ∈ more, inside t.source → t ∈ ts ∧ inside t.target) {word : List α}
    (path : Path more p word q) (start : inside p) : Path ts p word q := by
  induction path with
  | refl q => exact .refl q
  | epsilon edge _ ih =>
    obtain ⟨old, next⟩ := closed _ edge start
    exact .epsilon old (ih next)
  | symbol edge admits _ ih =>
    obtain ⟨old, next⟩ := closed _ edge start
    exact .symbol old admits (ih next)

end Path

end IntervalAutomata
