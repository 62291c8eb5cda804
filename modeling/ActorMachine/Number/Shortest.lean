import ActorMachine.Number.Binary64

/-!
# The shortest decimal that reads back

For a positive finite number, `Binary64.shortest` gives the digits and the decimal exponent of the
decimal with the fewest digits that is nearer to this number than to any other; of several with as
few digits it takes the nearest one, and of two equally near ones the greater.

The reals that read back as `m * 2 ^ q` form an interval around it, with its ends exactly when `m`
is even. On the grid of decimals with `n` digits, a grid point lies in the interval only if one of
the two neighbours of the number does; the first grid with a hit gives the answer. Seventeen
digits are always enough.
-/

namespace ActorMachine

/-- A decimal number `0.d₁d₂… * 10 ^ point` with `digits = [d₁, d₂, …]`. -/
structure Decimal where
  digits : List Nat
  point : Int
deriving Repr, DecidableEq, Inhabited

namespace Decimal

/-- The decimal digits of a number, the highest first. -/
def digitsOf (n : Nat) : List Nat :=
  (Nat.toDigits 10 n).map fun c => c.toNat - '0'.toNat

/-- Drops zeros at the end. -/
def dropTrailingZeros (digits : List Nat) : List Nat :=
  (digits.reverse.dropWhile (· == 0)).reverse

/-- The decimal `n * 10 ^ e`, without zeros at the end. -/
def ofScaled (n : Nat) (e : Int) : Decimal :=
  let digits := digitsOf n
  ⟨dropTrailingZeros digits, digits.length + e⟩

end Decimal

/-- A quotient of natural numbers. -/
structure Ratio where
  num : Nat
  den : Nat

namespace Ratio

/-- The quotient of `n * 2 ^ e` by one. -/
def ofPower (n : Nat) (e : Int) : Ratio :=
  ⟨n * Nat.pow 2 e.toNat, Nat.pow 2 (-e).toNat⟩

/-- The quotient divided by `10 ^ e`. -/
def divTen (r : Ratio) (e : Int) : Ratio :=
  ⟨r.num * Nat.pow 10 (-e).toNat, r.den * Nat.pow 10 e.toNat⟩

/-- The number `k` with `10 ^ (k - 1) ≤ r < 10 ^ k`, for a positive quotient. -/
def magnitude (r : Ratio) : Int :=
  if r.den ≤ r.num then
    ((Decimal.digitsOf (r.num / r.den)).length : Int)
  else
    let inverse := (r.den + r.num - 1) / r.num
    if inverse - 1 = 0 then 0 else 1 - ((Decimal.digitsOf (inverse - 1)).length : Int)

end Ratio

namespace Binary64

/-- The interval of reals that read back as a number, in units of a quarter of its last place. -/
structure ReadingInterval where
  low : Nat
  middle : Nat
  high : Nat
  unit : Int
  closed : Bool

/-- The interval of reals that read back as a positive finite number. -/
def readingInterval (x : Binary64) : ReadingInterval where
  low := 4 * x.significand - (if x.hasCloseLower then 1 else 2)
  middle := 4 * x.significand
  high := 4 * x.significand + 2
  unit := x.power - 2
  closed := x.significand % 2 == 0

/-- Whether `n * 10 ^ e` lies in the interval. -/
def ReadingInterval.holds (i : ReadingInterval) (n : Nat) (e : Int) : Bool :=
  let low := (Ratio.ofPower i.low i.unit).divTen e
  let high := (Ratio.ofPower i.high i.unit).divTen e
  if i.closed then
    low.num ≤ n * low.den && n * high.den ≤ high.num
  else
    low.num < n * low.den && n * high.den < high.num

/-- The grid point of spacing `10 ^ e` that reads back, the nearer one if both neighbours do. -/
def ReadingInterval.hit? (i : ReadingInterval) (e : Int) : Option Nat :=
  let value := (Ratio.ofPower i.middle i.unit).divTen e
  let below := value.num / value.den
  let above := below + 1
  match i.holds below e, i.holds above e with
  | true, true =>
    if value.num - below * value.den < above * value.den - value.num then some below else some above
  | true, false => some below
  | false, true => some above
  | false, false => none

/-- The first hit among the grids of `n, n + 1, …` digits, at most `count` of them. -/
def ReadingInterval.search (i : ReadingInterval) (magnitude : Int) : (count n : Nat) → Decimal
  | 0, _ => ⟨[], 0⟩
  | count + 1, n =>
    let e := magnitude - n
    match i.hit? e with
    | some point => Decimal.ofScaled point e
    | none => i.search magnitude count (n + 1)

/-- The shortest decimal that reads back as a positive finite number. -/
def shortest (x : Binary64) : Decimal :=
  let i := x.readingInterval
  i.search (Ratio.ofPower i.middle i.unit).magnitude 17 1

end Binary64

end ActorMachine
