import IntervalAutomata.Alphabet.Basic

namespace IntervalAutomata

instance : Alphabet UInt8 where
  least := 0
  greatest := 255
  next? n := if n = 255 then none else some (n + 1)
  prev? n := if n = 0 then none else some (n - 1)

instance : Alphabet UInt16 where
  least := 0
  greatest := 65535
  next? n := if n = 65535 then none else some (n + 1)
  prev? n := if n = 0 then none else some (n - 1)

instance : Alphabet UInt32 where
  least := 0
  greatest := 4294967295
  next? n := if n = 4294967295 then none else some (n + 1)
  prev? n := if n = 0 then none else some (n - 1)

instance : Alphabet UInt64 where
  least := 0
  greatest := 18446744073709551615
  next? n := if n = 18446744073709551615 then none else some (n + 1)
  prev? n := if n = 0 then none else some (n - 1)

/-- The greatest word is as wide as the machine has it. -/
instance : Alphabet USize where
  least := 0
  greatest := USize.ofNat (USize.size - 1)
  next? n := if n = USize.ofNat (USize.size - 1) then none else some (n + 1)
  prev? n := if n = 0 then none else some (n - 1)

instance : Alphabet Int8 where
  least := Int8.minValue
  greatest := Int8.maxValue
  next? n := if n = Int8.maxValue then none else some (n + 1)
  prev? n := if n = Int8.minValue then none else some (n - 1)

instance : Alphabet Int16 where
  least := Int16.minValue
  greatest := Int16.maxValue
  next? n := if n = Int16.maxValue then none else some (n + 1)
  prev? n := if n = Int16.minValue then none else some (n - 1)

instance : Alphabet Int32 where
  least := Int32.minValue
  greatest := Int32.maxValue
  next? n := if n = Int32.maxValue then none else some (n + 1)
  prev? n := if n = Int32.minValue then none else some (n - 1)

instance : Alphabet Int64 where
  least := Int64.minValue
  greatest := Int64.maxValue
  next? n := if n = Int64.maxValue then none else some (n + 1)
  prev? n := if n = Int64.minValue then none else some (n - 1)

end IntervalAutomata
