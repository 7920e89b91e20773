namespace IntervalAutomata.Balance

universe u

variable {β : Type u} (join : β → β → β)

/-- Joins the items in order, the front and the back half each into one first; `unit` stands for no
    items. -/
def joinAll (unit : β) (items : List β) : β :=
  match items with
  | [] => unit
  | [item] => item
  | first :: second :: rest =>
    let half := (first :: second :: rest).length / 2
    join (joinAll unit ((first :: second :: rest).take half))
      (joinAll unit ((first :: second :: rest).drop half))
termination_by items.length
decreasing_by
  all_goals simp only [List.length_take, List.length_drop, List.length_cons]; omega

/-- Joins a number of copies of one item, doubled from half as many; an odd one stands in front. The
    two halves are one value, so the joins take little room however many copies there are. -/
def copies? (item : β) (count : Nat) : Option β :=
  if count = 0 then none
  else if count = 1 then some item
  else
    (copies? item (count / 2)).map fun half =>
      if count % 2 = 0 then join half half else join item (join half half)
termination_by count
decreasing_by omega

end IntervalAutomata.Balance
