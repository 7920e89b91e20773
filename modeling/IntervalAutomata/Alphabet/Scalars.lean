import IntervalAutomata.Alphabet.Basic

namespace IntervalAutomata

def Scalar.lastBelowGap : Char := '\uD7FF'

def Scalar.firstAboveGap : Char := '\uE000'

instance : Alphabet Char where
  least := Char.ofNat 0
  greatest := Char.ofNat 0x10FFFF
  next? c :=
    if c = Char.ofNat 0x10FFFF then none
    else if c = Scalar.lastBelowGap then some Scalar.firstAboveGap
    else some (Char.ofNat (c.toNat + 1))
  prev? c :=
    if c = Char.ofNat 0 then none
    else if c = Scalar.firstAboveGap then some Scalar.lastBelowGap
    else some (Char.ofNat (c.toNat - 1))

end IntervalAutomata
