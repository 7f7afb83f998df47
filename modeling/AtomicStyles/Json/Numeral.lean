import AtomicStyles.Number.Binary64
import AtomicStyles.Number.Reading

/-!
# Numerals of JSON

A numeral without fraction and exponent stands for an integer of 64 bits, signed
or unsigned, when it fits one. Everything else stands for a double. The double is
computed in the usual quick way: as many digits as fit 64 bits make the
significand, and one multiplication or division by a power of ten follows, each
step rounded by itself. A numeral too great for a double stands for nothing.
-/

namespace AtomicStyles.Json

/-- The parts of a numeral. -/
structure Numeral where
  negative : Bool
  whole : List Char
  fraction : List Char
  /-- The sign and the digits of an exponent. -/
  power : Option (Bool × List Char)

/-- An integer, without a minus sign or with one, or a double. -/
inductive Number where
  | natural (value : Nat)
  | negated (value : Nat)
  | real (value : Binary64)

namespace Numeral

/-- The digits that fit 64 bits, with the number of digits left over. -/
def significandOf : Nat → List Char → Nat × Nat
  | n, [] => (n, 0)
  | n, c :: cs =>
      let next := 10 * n + (Reading.digit? c).getD 0
      if next < Nat.pow 2 64 then significandOf next cs else (n, cs.length + 1)

/-- The power of ten as a double. -/
def tenTo (n : Nat) : Binary64 :=
  .ofRatio false (Nat.pow 10 n) 1

/-- The double for `significand * 10^exponent`, when there is one. -/
def scaled? (significand : Nat) (exponent : Int) : Option Binary64 :=
  let f := Binary64.ofInt significand
  if significand = 0 then some f
  else if 308 < exponent then none
  else if 0 ≤ exponent then
    let r := f.mul (tenTo exponent.toNat)
    if r.isFinite then some r else none
  else if -308 ≤ exponent then some (f.div (tenTo (-exponent).toNat))
  else if -616 ≤ exponent then
    some ((f.div (tenTo 308)).div (tenTo (-exponent - 308).toNat))
  else some (.zero false)

/-- The greatest exponent that is read as a number. -/
def greatestPower : Nat := Nat.pow 2 31 - 1

/-- The double that a numeral stands for. -/
def real? (n : Numeral) : Option Binary64 :=
  let (wholePart, wholeRest) := significandOf 0 n.whole
  let (significand, fractionRest) := significandOf wholePart n.fraction
  let exponent : Int := wholeRest - (n.fraction.length - fractionRest : Nat)
  let magnitude :=
    match n.power with
    | none => scaled? significand exponent
    | some (negative, digits) =>
        let power := Reading.value 10 digits
        if greatestPower < power then
          if significand ≠ 0 && !negative then none else some (.zero false)
        else scaled? significand (if negative then exponent - power else exponent + power)
  magnitude.map fun m => if n.negative then m.neg else m

/-- What a numeral stands for. -/
def number? (n : Numeral) : Option Number :=
  if n.fraction.isEmpty && n.power.isNone then
    let magnitude := Reading.value 10 n.whole
    if !n.negative && magnitude < Nat.pow 2 64 then some (.natural magnitude)
    else if n.negative && magnitude ≠ 0 && magnitude ≤ Nat.pow 2 63 then
      some (.negated magnitude)
    else n.real?.map .real
  else n.real?.map .real

end Numeral

end AtomicStyles.Json
