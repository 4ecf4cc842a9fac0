import Metaheuristics.Text.Extending
import Metaheuristics.Text.Unprintable

/-!
# Quoted text

A text between double quotes in which every character can be seen: quotes and backslashes are
escaped, the usual controls have their letters, and any other character that would not show on its
own is given by the number of its code point.
-/

namespace Metaheuristics.Text

/-- How one character is written between quotes. -/
def escape (c : Char) : List Char :=
  match c with
  | '"' => ['\\', '"']
  | '\\' => ['\\', '\\']
  | '\n' => ['\\', 'n']
  | '\r' => ['\\', 'r']
  | '\t' => ['\\', 't']
  | '\x00' => ['\\', '0']
  | c =>
    if unprintable.contains c || extending.contains c then
      ['\\', 'u', '\x7b'] ++ Nat.toDigits 16 c.toNat ++ ['\x7d']
    else [c]

/-- **The quoted form of a text.** -/
def quoted (text : String) : String :=
  String.ofList ('"' :: text.toList.flatMap escape ++ ['"'])

end Metaheuristics.Text
