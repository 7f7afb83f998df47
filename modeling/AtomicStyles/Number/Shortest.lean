import AtomicStyles.Number.Binary64

/-!
# The shortest decimal that reads back

A double stands for every real number that rounds to it. Among the decimals in
that interval the ones with the fewest digits are picked, and of those the one
nearest to the double itself. Only the two neighbours of the value on each
decimal grid need a look: if a point of the grid lies in the interval, one of
them does.
-/

namespace AtomicStyles

/-- The number `digits * 10^exponent`. -/
structure Decimal where
  digits : Nat
  exponent : Int
  deriving DecidableEq

/-- Which of two equally near decimals is taken. -/
inductive Tie where
  | up
  | even

namespace Shortest

/-- The number of decimal digits of a positive number. -/
def digitCount (n : Nat) : Nat :=
  (Nat.toDigits 10 n).length

/-- The position of the leading digit: the greatest `p` with `10^p ≤ num / den`,
for a positive quotient. -/
def magnitude (num den : Nat) : Int :=
  if den ≤ num then (digitCount (num / den) : Int) - 1
  else -(digitCount ((den + num - 1) / num - 1) : Int)

/-- The reals around `value / unit` that round to it. `closed` tells whether the
ends belong to them. -/
structure Interval where
  low : Nat
  value : Nat
  high : Nat
  unit : Nat
  closed : Bool

/-- The interval of `significand * 2^exponent`, in quarters of a unit in the last
place. Below a power of two the neighbours stand half as far apart. -/
def intervalOf (significand : Nat) (exponent : Int) : Interval :=
  let unit := Nat.pow 2 exponent.toNat
  let value := 4 * significand * unit
  let below :=
    if significand = Nat.pow 2 52 ∧ Binary64.leastExponent < exponent then unit else 2 * unit
  { low := value - below
    value := value
    high := value + 2 * unit
    unit := 4 * Nat.pow 2 (-exponent).toNat
    closed := significand % 2 = 0 }

/-- Whether `n * 10^exponent` rounds to the interval's value. -/
def Interval.holds (i : Interval) (n : Nat) (exponent : Int) : Bool :=
  let point := n * Nat.pow 10 exponent.toNat * i.unit
  let scale := Nat.pow 10 (-exponent).toNat
  if i.closed then i.low * scale ≤ point && point ≤ i.high * scale
  else i.low * scale < point && point < i.high * scale

/-- The better of the value's two neighbours on the grid of `10^exponent`, of
those in the interval. -/
def onGrid (tie : Tie) (i : Interval) (exponent : Int) : Option Decimal :=
  let num := i.value * Nat.pow 10 (-exponent).toNat
  let den := i.unit * Nat.pow 10 exponent.toNat
  let below := num / den
  let above := below + 1
  let rest := num % den
  let belowFits := below != 0 && i.holds below exponent
  let aboveFits := i.holds above exponent
  let aboveNearer :=
    match tie with
    | .up => decide (den ≤ 2 * rest)
    | .even => decide (den < 2 * rest) || (den == 2 * rest && below % 2 == 1)
  if belowFits && (!aboveFits || !aboveNearer) then some ⟨below, exponent⟩
  else if aboveFits then some ⟨above, exponent⟩
  else none

/-- Tries grids from coarse to fine, starting at `exponent`. Seventeen digits
always suffice, so the integer part at the end is never needed. -/
def search (tie : Tie) (i : Interval) : Nat → Int → Decimal
  | 0, _ => ⟨i.value / i.unit, 0⟩
  | more + 1, exponent =>
      match onGrid tie i exponent with
      | some d => d
      | none => search tie i more (exponent - 1)

/-- Moves trailing zeros of the digits into the exponent. -/
def stripZeros : Nat → Decimal → Decimal
  | 0, d => d
  | fuel + 1, d =>
      if d.digits % 10 = 0 ∧ d.digits ≠ 0 then
        stripZeros fuel ⟨d.digits / 10, d.exponent + 1⟩
      else d

/-- The shortest decimal for a positive `significand * 2^exponent`. -/
def ofFinite (tie : Tie) (significand : Nat) (exponent : Int) : Decimal :=
  let i := intervalOf significand exponent
  stripZeros 20 (search tie i 18 (magnitude i.value i.unit))

end Shortest

end AtomicStyles
