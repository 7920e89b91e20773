import IntervalAutomata.Text.Unprintable

/-!
Text between delimiters. A backslash marks the backslash, the delimiter and the common controls;
every other unprintable character is written by its number.
-/

namespace IntervalAutomata.Text

def escape (delimiter c : Char) : String :=
  if c = '\x00' then "\\0"
  else if c = '\t' then "\\t"
  else if c = '\r' then "\\r"
  else if c = '\n' then "\\n"
  else if c = '\\' ∨ c = delimiter then "\\" ++ c.toString
  else if isUnprintable c then
    "\\u\x7b" ++ String.ofList (Nat.toDigits 16 c.toNat) ++ "\x7d"
  else c.toString

def quote (delimiter : Char) (text : List Char) : String :=
  delimiter.toString ++ String.join (text.map (escape delimiter)) ++ delimiter.toString

end IntervalAutomata.Text
