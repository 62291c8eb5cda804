import ActorMachine.Number.Shortest

/-!
# The text of a floating point number

A number is written with the digits of its shortest decimal. Magnitudes from `10 ^ -4` up to, not
including, `10 ^ 16` are written positionally and with at least one place after the point; all
others with one digit before the point and an exponent of ten, which has no sign unless it is
negative.
-/

namespace ActorMachine.Decimal

/-- The characters of a list of digits. -/
def digitChars (digits : List Nat) : List Char :=
  digits.map fun d => Char.ofNat ('0'.toNat + d)

/-- The positional form, with at least one place after the point. -/
def positional (d : Decimal) : List Char :=
  let count := d.digits.length
  if d.point ≤ 0 then
    ['0', '.'] ++ List.replicate (-d.point).toNat '0' ++ digitChars d.digits
  else if (count : Int) ≤ d.point then
    digitChars d.digits ++ List.replicate (d.point.toNat - count) '0' ++ ['.', '0']
  else
    digitChars (d.digits.take d.point.toNat) ++ ['.'] ++ digitChars (d.digits.drop d.point.toNat)

/-- The form with one digit before the point and an exponent of ten. -/
def scientific (d : Decimal) : List Char :=
  let fraction := digitChars (d.digits.drop 1)
  digitChars (d.digits.take 1) ++ (if fraction.isEmpty then [] else '.' :: fraction) ++
    ('e' :: (toString (d.point - 1)).toList)

/-- The form of a positive decimal: positional for exponents of ten from -4 to 15. -/
def chars (d : Decimal) : List Char :=
  if -4 ≤ d.point - 1 ∧ d.point - 1 < 16 then d.positional else d.scientific

end ActorMachine.Decimal

namespace ActorMachine.Binary64

/-- The text of a floating point number. -/
def text (x : Binary64) : String :=
  if x.isNaN then
    "NaN"
  else
    let magnitude :=
      if x.isInfinite then ['i', 'n', 'f']
      else if x.isZero then ['0', '.', '0']
      else x.shortest.chars
    String.ofList (if x.isNegative then '-' :: magnitude else magnitude)

end ActorMachine.Binary64
