import Metaheuristics.Decimal.Shortest

/-!
# Layouts of a decimal numeral

Where the point of a number goes, when an exponent is written instead, and how many decimals there
are at least.  The library writes numbers in two layouts: `Layout.message` for the values quoted in
error messages, and `Layout.inspection` for the values in the text of a whole structure.
-/

namespace Metaheuristics.Decimal

/-- **How a numeral is set.**  It is written positionally when its point lies in the range
`pointFrom … pointTo` (an absent end is no limit), and with an exponent otherwise. -/
structure Layout where
  pointFrom : Option Int
  pointTo : Option Int
  /-- The least number of decimals of a positional numeral. -/
  decimals : Nat

namespace Layout

/-- Values in messages are never written with an exponent and show no decimals they do not need. -/
def message : Layout := ⟨none, none, 0⟩

/-- Values in the text of a structure have at least one decimal; below `10⁻⁴` and from `10¹⁶` on
they have an exponent. -/
def inspection : Layout := ⟨some (-3), some 16, 1⟩

/-- The digits of a numeral with the point in its place. -/
def positional (decimals : Nat) (numeral : Numeral) : List Char :=
  let zeros (n : Int) := List.replicate n.toNat '0'
  let whole := numeral.digits.take numeral.point.toNat
  let padded := whole ++ zeros (numeral.point - whole.length)
  let fraction := zeros (-numeral.point) ++ numeral.digits.drop numeral.point.toNat
  let filled := fraction ++ List.replicate (decimals - fraction.length) '0'
  (if padded.isEmpty then ['0'] else padded) ++ if filled.isEmpty then [] else '.' :: filled

/-- The digits of a numeral with one digit before the point, and the exponent. -/
def scientific (numeral : Numeral) : List Char :=
  let lead := numeral.digits.take 1
  let rest := numeral.digits.drop 1
  lead ++ (if rest.isEmpty then [] else '.' :: rest) ++ 'e' :: (toString (numeral.point - 1)).toList

/-- The text of a numeral. -/
def set (layout : Layout) (numeral : Numeral) : List Char :=
  if layout.pointFrom.all (· ≤ numeral.point) && layout.pointTo.all (numeral.point ≤ ·) then
    positional layout.decimals numeral
  else scientific numeral

/-- **The text of a value**: its shortest numeral in this layout, the sign kept also for zero. -/
def render (layout : Layout) (x : Float) : String :=
  if x.isNaN then "NaN"
  else
    let magnitude := x.toBits &&& 0x7fffffffffffffff
    let body :=
      if x.isInf then ['i', 'n', 'f']
      else if magnitude = 0 then positional layout.decimals ⟨[], 0⟩
      else layout.set (shortest magnitude.toNat)
    String.ofList (if magnitude = x.toBits then body else '-' :: body)

end Layout

end Metaheuristics.Decimal
