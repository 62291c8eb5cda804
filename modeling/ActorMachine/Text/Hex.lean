/-!
# Hexadecimal numerals

`hex n` is the numeral of `n` with the mark `0x` in front; `hexPadded w n` has at least `w` digits.
Digits above nine are the small letters.
-/

namespace ActorMachine.Text

/-- The digits of `n` to base sixteen, without a mark. -/
def hexDigits (n : Nat) : List Char :=
  Nat.toDigits 16 n

/-- The marked numeral with at least `width` digits, zeros in front. -/
def hexPadded (width n : Nat) : String :=
  let digits := hexDigits n
  String.ofList ('0' :: 'x' :: (List.replicate (width - digits.length) '0' ++ digits))

/-- The marked numeral with as many digits as it needs. -/
def hex (n : Nat) : String :=
  hexPadded 1 n

end ActorMachine.Text
