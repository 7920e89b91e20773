import IntervalAutomata.Alphabet.Basic
import IntervalAutomata.Text.Written

namespace IntervalAutomata

inductive Letter where
  | A | B | C | D | E
deriving DecidableEq

def Letter.position : Letter → Nat
  | A => 0
  | B => 1
  | C => 2
  | D => 3
  | E => 4

instance : Ord Letter where
  compare a b := compare a.position b.position

instance : Alphabet Letter where
  least := .A
  greatest := .E
  next?
    | .A => some .B
    | .B => some .C
    | .C => some .D
    | .D => some .E
    | .E => none
  prev?
    | .A => none
    | .B => some .A
    | .C => some .B
    | .D => some .C
    | .E => some .D

def Letter.name : Letter → String
  | A => "A"
  | B => "B"
  | C => "C"
  | D => "D"
  | E => "E"

instance : Written Letter where
  plain := Letter.name
  quoted := Letter.name

end IntervalAutomata
