import IntervalAutomata.Nfa.Traversal
import Mathlib.Logic.Relation

namespace IntervalAutomata.Traversal

open Relation

variable {successors : State → List State}

def Leads (successors : State → List State) : State → State → Prop :=
  ReflTransGen fun p q => q ∈ successors p

theorem exists_frontier (seen frontier : State → Prop)
    (closed : ∀ r, seen r → ∀ s ∈ successors r, seen s ∨ frontier s) {p q : State}
    (path : Leads successors p q) (inside : seen p) (outside : ¬seen q) :
    ∃ r, frontier r ∧ Leads successors r q := by
  induction path using ReflTransGen.head_induction_on with
  | refl => exact absurd inside outside
  | head step rest ih =>
    rename_i r s
    rcases closed r inside s step with stays | leaves
    · exact ih stays
    · exact ⟨s, leaves, rest⟩

theorem mem_layers (bound : Nat) (bounded : ∀ q, bound ≤ q.index → successors q = [])
    (seen : StateSet) (layer : List State)
    (closed : ∀ p ∈ seen, ∀ q ∈ successors p, q ∈ seen ∨ q ∈ layer) (q : State) :
    q ∈ layers successors bound bounded seen layer ↔
      q ∉ seen ∧ ∃ p ∈ layer, Leads successors p q := by
  fun_induction layers successors bound bounded seen layer with
  | case1 seen layer new empty =>
    -- every state of the layer was seen before, so the seen states lead nowhere else
    have allSeen : ∀ p ∈ layer, p ∈ seen := by
      intro p member
      apply Classical.byContradiction
      intro unseen
      have isNew : p ∈ new := mem_fresh_fst.mpr ⟨unseen, member⟩
      simp [List.isEmpty_iff.mp empty] at isNew
    constructor
    · intro member
      simp at member
    · intro h
      obtain ⟨unseen, p, member, path⟩ := h
      obtain ⟨r, inLayer, rest⟩ := exists_frontier (· ∈ seen) (fun _ => False)
        (fun r known s step => .inl ((closed r known s step).elim id (allSeen s)))
        path (allSeen p member) unseen
      exact inLayer.elim
  | case2 seen layer new nonempty ih =>
    have nextClosed : ∀ p ∈ (fresh seen layer).2, ∀ q ∈ successors p,
        q ∈ (fresh seen layer).2 ∨ q ∈ new.flatMap successors := by
      intro p known r step
      by_cases before : p ∈ seen
      · exact .inl (mem_fresh_snd.mpr (closed p before r step))
      · have isNew : p ∈ new :=
          mem_fresh_fst.mpr ⟨before, (mem_fresh_snd.mp known).resolve_left before⟩
        exact .inr (List.mem_flatMap.mpr ⟨p, isNew, step⟩)
    rw [List.mem_append, ih nextClosed]
    constructor
    · intro h
      rcases h with isNew | later
      · obtain ⟨unseen, member⟩ := mem_fresh_fst.mp isNew
        exact ⟨unseen, q, member, .refl⟩
      · obtain ⟨unknown, p, next, path⟩ := later
        obtain ⟨r, isNew, step⟩ := List.mem_flatMap.mp next
        exact ⟨fun known => unknown (mem_fresh_snd.mpr (.inl known)), r,
          (mem_fresh_fst.mp isNew).2, .head step path⟩
    · intro h
      obtain ⟨unseen, p, member, path⟩ := h
      by_cases known : q ∈ (fresh seen layer).2
      · exact .inl (mem_fresh_fst.mpr ⟨unseen, (mem_fresh_snd.mp known).resolve_left unseen⟩)
      · obtain ⟨r, next, rest⟩ := exists_frontier (· ∈ (fresh seen layer).2)
          (· ∈ new.flatMap successors) nextClosed path (mem_fresh_snd.mpr (.inr member)) known
        exact .inr ⟨known, r, next, rest⟩

end IntervalAutomata.Traversal
