/-!
# Binary floating point, exactly

Numbers in descriptions and configurations are IEEE 754 doubles. They are kept
as what they mean, a signed integer times a power of two, so that every rounding
in this library is integer arithmetic that a proof can follow.

A finite number is in lowest terms of the format: its significand is below
`2^53`, its exponent is at least `-1074`, and a significand below `2^52` only
comes with the least exponent. `ofRatio` is the one place where numbers are
made, and it keeps to that.
-/

namespace AtomicStyles

/-- A double: `significand * 2^exponent` with a sign, an infinity, or no number
at all. -/
inductive Binary64 where
  | finite (negative : Bool) (significand : Nat) (exponent : Int)
  | infinite (negative : Bool)
  | nan
  deriving DecidableEq

namespace Binary64

/-- The least exponent of the format. -/
def leastExponent : Int := -1074

/-- The greatest exponent of the format. -/
def greatestExponent : Int := 971

/-- Zero, of either sign. -/
def zero (negative : Bool) : Binary64 :=
  .finite negative 0 leastExponent

/-- Brings `num / den` to the units of `2^exponent`, as a new fraction. -/
def inUnits (num den : Nat) (exponent : Int) : Nat × Nat :=
  (num * Nat.pow 2 (-exponent).toNat, den * Nat.pow 2 exponent.toNat)

/-- The integer nearest to `num / den`; a half goes to the even neighbour. -/
def roundDiv (num den : Nat) : Nat :=
  let q := num / den
  let r := num % den
  if 2 * r < den then q
  else if den < 2 * r then q + 1
  else if q % 2 = 0 then q else q + 1

/-- The exponent at which `num / den`, which is not zero, has a significand of
53 bits, or the least exponent when that is greater. -/
def exponentOf (num den : Nat) : Int :=
  let guess : Int := (num.log2 : Int) - (den.log2 : Int) - 53
  let scaled := inUnits num den guess
  let exponent := if scaled.1 / scaled.2 < Nat.pow 2 53 then guess else guess + 1
  max exponent leastExponent

/-- The double nearest to `num / den`; a tie goes to the even significand, and
what is too great for the format is an infinity. -/
def ofRatio (negative : Bool) (num den : Nat) : Binary64 :=
  if num = 0 then zero negative
  else
    let exponent := exponentOf num den
    let scaled := inUnits num den exponent
    let significand := roundDiv scaled.1 scaled.2
    let carried := significand = Nat.pow 2 53
    let significand := if carried then Nat.pow 2 52 else significand
    let exponent := if carried then exponent + 1 else exponent
    if greatestExponent < exponent then .infinite negative
    else .finite negative significand exponent

/-- The double nearest to an integer. -/
def ofInt (n : Int) : Binary64 :=
  ofRatio (n < 0) n.natAbs 1

/-- The double nearest to `significand * 2^exponent`. -/
def ofDyadic (negative : Bool) (significand : Nat) (exponent : Int) : Binary64 :=
  let r := inUnits significand 1 (-exponent)
  ofRatio negative r.1 r.2

/-- The product, rounded once. -/
def mul : Binary64 → Binary64 → Binary64
  | .finite n s e, .finite n' s' e' => ofDyadic (n != n') (s * s') (e + e')
  | .finite n s _, .infinite n' => if s = 0 then .nan else .infinite (n != n')
  | .infinite n, .finite n' s _ => if s = 0 then .nan else .infinite (n != n')
  | .infinite n, .infinite n' => .infinite (n != n')
  | .nan, _ => .nan
  | _, .nan => .nan

/-- The quotient, rounded once. -/
def div : Binary64 → Binary64 → Binary64
  | .finite n s e, .finite n' s' e' =>
      if s' = 0 then (if s = 0 then .nan else .infinite (n != n'))
      else
        let r := inUnits s s' (e' - e)
        ofRatio (n != n') r.1 r.2
  | .finite n _ _, .infinite n' => zero (n != n')
  | .infinite n, .finite n' _ _ => .infinite (n != n')
  | .infinite _, .infinite _ => .nan
  | .nan, _ => .nan
  | _, .nan => .nan

/-- The number with its sign turned around. -/
def neg : Binary64 → Binary64
  | .finite n s e => .finite (!n) s e
  | .infinite n => .infinite (!n)
  | .nan => .nan

/-- Whether the number is neither infinite nor no number at all. -/
def isFinite : Binary64 → Bool
  | .finite .. => true
  | _ => false

/-- The value, when it is an integer. -/
def toInt? : Binary64 → Option Int
  | .finite negative significand exponent =>
      let r := inUnits significand 1 (-exponent)
      if r.1 % r.2 = 0 then
        let magnitude : Int := (r.1 / r.2 : Nat)
        some (if negative then -magnitude else magnitude)
      else none
  | _ => none

/-- Whether the number lies between zero and `bound`, ends included. A negative
zero does. -/
def isBetweenZeroAnd (bound : Nat) : Binary64 → Bool
  | .finite negative significand exponent =>
      let r := inUnits significand 1 (-exponent)
      (!negative || significand == 0) && r.1 ≤ bound * r.2
  | _ => false

end Binary64

end AtomicStyles
