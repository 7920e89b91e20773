namespace IntervalAutomata

universe u

class Alphabet (α : Type u) [Ord α] where
  least : α
  greatest : α
  next? : α → Option α
  prev? : α → Option α

end IntervalAutomata
