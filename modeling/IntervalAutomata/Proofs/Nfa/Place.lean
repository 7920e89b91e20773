import IntervalAutomata.Nfa.Edges
import IntervalAutomata.Proofs.Bound.LowerOrder
import IntervalAutomata.Proofs.Search.Window

/-!
Where an edge stands among ascending edges. The search may land anywhere in the run of edges with a
level lower bound, and the run that is found around it is always the whole one.
-/

namespace IntervalAutomata.Edges

open Std

universe u

variable {α : Type u} [Ord α]

def compareStart (e f : SymbolEdge α) : Ordering :=
  e.interval.lower.compareLower compare f.interval.lower

def Ascending (symbols : List (SymbolEdge α)) : Prop :=
  symbols.Pairwise fun e f => (compareStart e f).isLE

structure Parted (edge : SymbolEdge α) (front run back : List (SymbolEdge α)) : Prop where
  below : ∀ e ∈ front, compareStart e edge = .lt
  level : ∀ e ∈ run, compareStart e edge = .eq
  above : ∀ e ∈ back, compareStart e edge = .gt

def landed (symbols : Array (SymbolEdge α)) (edge : SymbolEdge α) : Search.Position :=
  Search.binarySearch symbols edge.interval.lower (·.interval.lower) (Bound.compareLower compare)

def runBefore (symbols : List (SymbolEdge α)) (edge : SymbolEdge α) (index : Nat) :
    List (SymbolEdge α) :=
  ((symbols.take index).reverse.takeWhile fun e => compareStart e edge == .eq).reverse

def runFrom (symbols : List (SymbolEdge α)) (edge : SymbolEdge α) (index : Nat) :
    List (SymbolEdge α) :=
  (symbols.drop index).takeWhile fun e => compareStart e edge == .eq

theorem place_of_missed [DecidableEq α] (symbols : Array (SymbolEdge α)) (edge : SymbolEdge α)
    (missed : (landed symbols edge).exact = false) : place symbols edge = landed symbols edge :=
  if_neg (Bool.eq_false_iff.mp missed)

theorem place_of_landed [DecidableEq α] (symbols : Array (SymbolEdge α)) (edge : SymbolEdge α)
    (found : (landed symbols edge).exact = true) :
    place symbols edge =
      match (runBefore symbols.toList edge (landed symbols edge).index ++
        runFrom symbols.toList edge (landed symbols edge).index).idxOf? edge with
      | some offset =>
        ⟨(landed symbols edge).index -
          (runBefore symbols.toList edge (landed symbols edge).index).length + offset, true⟩
      | none =>
        ⟨(landed symbols edge).index -
          (runBefore symbols.toList edge (landed symbols edge).index).length +
            (runBefore symbols.toList edge (landed symbols edge).index ++
              runFrom symbols.toList edge (landed symbols edge).index).length, false⟩ :=
  if_pos found

theorem fails_of_mem_dropWhile {β : Type u} (test : β → Bool) (xs : List β)
    (inherited : xs.Pairwise fun x y => test y = true → test x = true) :
    ∀ x ∈ xs.dropWhile test, test x = false := by
  induction xs with
  | nil => simp
  | cons first rest ih =>
    obtain ⟨head, tail⟩ := List.pairwise_cons.mp inherited
    intro x member
    rw [List.dropWhile_cons] at member
    split at member
    · exact ih tail x member
    · rename_i stops
      rcases List.mem_cons.mp member with same | later
      · rw [same]
        exact Bool.eq_false_iff.mpr stops
      · exact Bool.eq_false_iff.mpr fun holds => stops (head x later holds)

variable [TransOrd α]

instance : TransCmp (compareStart (α := α)) where
  eq_swap := Bound.compareLower_swap _ _
  isLE_trans := Bound.compareLower_trans _ _ _

theorem isLE_of_level (e f : SymbolEdge α) (level : compareStart e f = .eq) :
    (compareStart f e).isLE :=
  Ordering.isLE_of_eq_eq (OrientedCmp.eq_symm level)

theorem below_of_mem_dropWhile (edge hit : SymbolEdge α) (low : List (SymbolEdge α))
    (level : compareStart hit edge = .eq) (ascending : Ascending low)
    (bounded : ∀ e ∈ low, (compareStart e hit).isLE) :
    ∀ e ∈ low.reverse.dropWhile (fun e => compareStart e edge == .eq),
      compareStart e edge = .lt := by
  have atMost : ∀ e ∈ low, (compareStart e edge).isLE := fun e member =>
    TransCmp.isLE_trans (bounded e member) (Ordering.isLE_of_eq_eq level)
  have inherited : low.reverse.Pairwise fun x y =>
      (compareStart y edge == .eq) = true → (compareStart x edge == .eq) = true := by
    rw [List.pairwise_reverse]
    apply List.Pairwise.imp_of_mem _ ascending
    intro x y _ inLow ordered same
    rw [beq_iff_eq] at same ⊢
    exact OrientedCmp.isLE_antisymm (atMost y inLow)
      (TransCmp.isLE_trans (isLE_of_level x edge same) ordered)
  intro e member
  have differs := fails_of_mem_dropWhile _ _ inherited e member
  have most := atMost e (List.mem_reverse.mp ((List.dropWhile_sublist _).subset member))
  cases order : compareStart e edge with
  | lt => rfl
  | eq => simp [order] at differs
  | gt => simp [order] at most

theorem above_of_mem_dropWhile (edge hit : SymbolEdge α) (high : List (SymbolEdge α))
    (level : compareStart hit edge = .eq) (ascending : Ascending high)
    (bounded : ∀ e ∈ high, (compareStart hit e).isLE) :
    ∀ e ∈ high.dropWhile (fun e => compareStart e edge == .eq), compareStart e edge = .gt := by
  have atLeast : ∀ e ∈ high, (compareStart edge e).isLE := fun e member =>
    TransCmp.isLE_trans (isLE_of_level hit edge level) (bounded e member)
  have inherited : high.Pairwise fun x y =>
      (compareStart y edge == .eq) = true → (compareStart x edge == .eq) = true := by
    apply List.Pairwise.imp_of_mem _ ascending
    intro x y inHigh _ ordered same
    rw [beq_iff_eq] at same ⊢
    exact OrientedCmp.isLE_antisymm (TransCmp.isLE_trans ordered (Ordering.isLE_of_eq_eq same))
      (atLeast x inHigh)
  intro e member
  have differs := fails_of_mem_dropWhile _ _ inherited e member
  have least := atLeast e ((List.dropWhile_sublist _).subset member)
  cases order : compareStart e edge with
  | gt => rfl
  | eq => simp [order] at differs
  | lt => simp [OrientedCmp.gt_of_lt order] at least

theorem descending_of_ascending (symbols : Array (SymbolEdge α)) (edge : SymbolEdge α)
    (ascending : Ascending symbols.toList) :
    Search.Descending (Search.orderAt symbols edge.interval.lower (·.interval.lower)
      (Bound.compareLower compare)) 0 symbols.size := by
  apply Search.descending_of_pairwise
  apply List.Pairwise.imp _ ascending
  intro x y ordered
  constructor
  · intro beyond
    exact OrientedCmp.gt_of_lt (TransCmp.lt_of_isLE_of_lt ordered (OrientedCmp.lt_of_gt beyond))
  · intro before
    exact TransCmp.lt_of_lt_of_isLE before ordered

theorem parted_run (symbols : List (SymbolEdge α)) (edge : SymbolEdge α) (index : Nat)
    (inside : index < symbols.length) (level : compareStart symbols[index] edge = .eq)
    (ascending : Ascending symbols) :
    ∃ front back, front.length = index - (runBefore symbols edge index).length ∧
      symbols = front ++ (runBefore symbols edge index ++ runFrom symbols edge index) ++ back ∧
      Parted edge front (runBefore symbols edge index ++ runFrom symbols edge index) back := by
  let isLevel (e : SymbolEdge α) : Bool := compareStart e edge == .eq
  let low := symbols.take index
  let front := (low.reverse.dropWhile isLevel).reverse
  let back := (symbols.drop index).dropWhile isLevel
  have lowSplit : low = front ++ runBefore symbols edge index := by
    simp only [front, runBefore, low, isLevel, ← List.reverse_append,
      List.takeWhile_append_dropWhile, List.reverse_reverse]
  have highSplit : symbols.drop index = runFrom symbols edge index ++ back :=
    List.takeWhile_append_dropWhile.symm
  have split := ascending
  rw [← List.take_append_drop index symbols, Ascending, List.pairwise_append] at split
  obtain ⟨lowAscending, highAscending, across⟩ := split
  have highCons := List.drop_eq_getElem_cons inside
  refine ⟨front, back, ?_, ?_, ⟨?_, ?_, ?_⟩⟩
  · have lengths := congrArg List.length lowSplit
    simp only [low, List.length_take, List.length_append] at lengths
    omega
  · calc symbols = low ++ symbols.drop index := (List.take_append_drop index symbols).symm
      _ = front ++ (runBefore symbols edge index ++ runFrom symbols edge index) ++ back := by
        rw [lowSplit, highSplit]
        simp only [List.append_assoc]
  · intro e member
    apply below_of_mem_dropWhile edge symbols[index] low level lowAscending
    · intro f inLow
      exact across f inLow _ (by rw [highCons]; exact List.mem_cons_self)
    · exact List.mem_reverse.mp member
  · intro e member
    have levels : isLevel e = true := by
      rcases List.mem_append.mp member with member | member
      · exact List.all_eq_true.mp List.all_takeWhile e (List.mem_reverse.mp member)
      · exact List.all_eq_true.mp List.all_takeWhile e member
    simpa [isLevel] using levels
  · apply above_of_mem_dropWhile edge symbols[index] _ level highAscending
    intro f inHigh
    rw [highCons] at inHigh highAscending
    rcases List.mem_cons.mp inHigh with first | later
    · rw [first]
      exact ReflCmp.isLE_rfl
    · exact (List.pairwise_cons.mp highAscending).1 f later

variable [DecidableEq α]

def positionIn (front run : List (SymbolEdge α)) (edge : SymbolEdge α) : Search.Position :=
  match run.idxOf? edge with
  | some offset => ⟨front.length + offset, true⟩
  | none => ⟨front.length + run.length, false⟩

theorem exists_parted_place (symbols : Array (SymbolEdge α)) (edge : SymbolEdge α)
    (ascending : Ascending symbols.toList) :
    ∃ front run back, symbols.toList = front ++ run ++ back ∧ Parted edge front run back ∧
      place symbols edge = positionIn front run edge := by
  cases exact : (landed symbols edge).exact with
  | true =>
    obtain ⟨inside, same⟩ := Search.binarySearch_exact symbols edge.interval.lower
      (·.interval.lower) (Bound.compareLower compare) exact
    obtain ⟨front, back, length, split, parted⟩ := parted_run symbols.toList edge
      (landed symbols edge).index (by simpa [landed] using inside) (OrientedCmp.eq_symm same)
      ascending
    refine ⟨front, _, back, split, parted, ?_⟩
    rw [place_of_landed symbols edge exact, ← length, positionIn]
  | false =>
    obtain ⟨beyond, before⟩ := Search.binarySearch_not_exact symbols edge.interval.lower
      (·.interval.lower) (Bound.compareLower compare)
      (descending_of_ascending symbols edge ascending) exact
    have inside : (landed symbols edge).index ≤ symbols.size := Search.binarySearch_index_le ..
    refine ⟨symbols.toList.take (landed symbols edge).index, [],
      symbols.toList.drop (landed symbols edge).index, by simp,
      ⟨fun e member => OrientedCmp.lt_of_gt (beyond e member), by simp,
        fun e member => OrientedCmp.gt_of_lt (before e member)⟩, ?_⟩
    rw [place_of_missed symbols edge exact]
    simp only [positionIn, List.idxOf?_nil, List.length_nil, Nat.add_zero, List.length_take,
      Array.length_toList, Nat.min_eq_left inside, ← exact]

end IntervalAutomata.Edges
