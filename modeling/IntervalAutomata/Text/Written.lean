import IntervalAutomata.Text.Quoted

/-!
The two written forms of a value. Intervals show their elements plainly; error messages, event
records and expressions show them quoted, so that no text of a symbol is taken for syntax.
-/

namespace IntervalAutomata

universe u

class Written (α : Type u) where
  plain : α → String
  quoted : α → String

instance : Written Char where
  plain c := c.toString
  quoted c := Text.quote '\x27' [c]

instance : Written String where
  plain s := s
  quoted s := Text.quote '\x22' s.toList

@[reducible] def Written.ofInt {α : Type u} (toInt : α → Int) : Written α where
  plain n := toString (toInt n)
  quoted n := toString (toInt n)

instance : Written UInt8 := .ofInt fun n => n.toNat

instance : Written UInt16 := .ofInt fun n => n.toNat

instance : Written UInt32 := .ofInt fun n => n.toNat

instance : Written UInt64 := .ofInt fun n => n.toNat

instance : Written Int8 := .ofInt Int8.toInt

instance : Written Int16 := .ofInt Int16.toInt

instance : Written Int32 := .ofInt Int32.toInt

instance : Written Int64 := .ofInt Int64.toInt

end IntervalAutomata
