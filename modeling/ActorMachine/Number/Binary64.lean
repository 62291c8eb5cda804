/-!
# Floating point numbers of 64 bits

A number is its bit pattern: sign, eleven bits of exponent, fifty-two of fraction. Two numbers are
the same *value* (`agrees`) when neither is a NaN and they have equal patterns or are both a zero;
equality of the structure is equality of the patterns.
-/

namespace ActorMachine

/-- A floating point number, given by its bits. -/
structure Binary64 where
  bits : UInt64
deriving Repr, DecidableEq, Inhabited

namespace Binary64

/-- The number of fractions: the weight of the exponent's lowest bit, and of the bit that stands
before the fraction of most numbers without being written. -/
def hiddenBit : Nat := 0x10000000000000

/-- The eleven bits of the exponent. -/
def exponentField (x : Binary64) : Nat :=
  x.bits.toNat / hiddenBit % 2048

/-- The fifty-two bits of the fraction. -/
def fractionField (x : Binary64) : Nat :=
  x.bits.toNat % hiddenBit

/-- The sign bit. -/
def isNegative (x : Binary64) : Bool :=
  0x8000000000000000 ≤ x.bits.toNat

/-- Neither a number nor an infinity. -/
def isNaN (x : Binary64) : Bool :=
  x.exponentField == 2047 && x.fractionField != 0

/-- One of the two infinities. -/
def isInfinite (x : Binary64) : Bool :=
  x.exponentField == 2047 && x.fractionField == 0

/-- One of the two zeros. -/
def isZero (x : Binary64) : Bool :=
  x.exponentField == 0 && x.fractionField == 0

/-- Same value: a NaN has none, and the two zeros have the same. -/
def agrees (x y : Binary64) : Bool :=
  !x.isNaN && !y.isNaN && (x == y || (x.isZero && y.isZero))

/-- The whole number `m` of a finite number of magnitude `m * 2 ^ q`. -/
def significand (x : Binary64) : Nat :=
  if x.exponentField = 0 then x.fractionField else hiddenBit + x.fractionField

/-- The power `q` of a finite number of magnitude `m * 2 ^ q`. -/
def power (x : Binary64) : Int :=
  if x.exponentField = 0 then -1074 else (x.exponentField : Int) - 1075

/-- Whether the next smaller magnitude is only half as far away as the next greater one. -/
def hasCloseLower (x : Binary64) : Bool :=
  x.fractionField == 0 && 1 < x.exponentField

end Binary64

end ActorMachine
