import AtomicStyles.Number.Binary64

/-!
# Reading decimal numbers

The grammar of a decimal number: an optional sign, digits with an optional
point among, before or after them, and an optional exponent. The number read is
the double nearest to what is written.
-/

namespace AtomicStyles.Reading

/-- The value of a decimal digit. -/
def digit? (c : Char) : Option Nat :=
  if '0' ≤ c ∧ c ≤ '9' then some (c.toNat - '0'.toNat) else none

/-- The value of a hexadecimal digit. -/
def hexDigit? (c : Char) : Option Nat :=
  if '0' ≤ c ∧ c ≤ '9' then some (c.toNat - '0'.toNat)
  else if 'a' ≤ c ∧ c ≤ 'f' then some (c.toNat - 'a'.toNat + 10)
  else if 'A' ≤ c ∧ c ≤ 'F' then some (c.toNat - 'A'.toNat + 10)
  else none

/-- The number that a run of digits stands for in a base. Other characters count
nothing. -/
def value (base : Nat) (cs : List Char) : Nat :=
  cs.foldl (fun n c => n * base + (hexDigit? c).getD 0) 0

/-- A decimal digit. -/
def isDigit (c : Char) : Bool := '0' ≤ c && c ≤ '9'

/-- Splits off a sign; the flag tells whether it was a minus. -/
def sign : List Char → Bool × List Char
  | '-' :: cs => (true, cs)
  | '+' :: cs => (false, cs)
  | cs => (false, cs)

/-- An exponent that makes up all of the text; no text is the exponent zero. -/
def exponent? : List Char → Option Int
  | [] => some 0
  | e :: cs =>
      if e = 'e' ∨ e = 'E' then
        let (negative, digits) := sign cs
        if !digits.isEmpty && digits.all isDigit then
          let n : Int := value 10 digits
          some (if negative then -n else n)
        else none
      else none

/-- The digits after a point, when one comes first, and what follows them. -/
def fraction : List Char → List Char × List Char
  | '.' :: cs => (cs.takeWhile isDigit, cs.dropWhile isDigit)
  | cs => ([], cs)

/-- The double nearest to `digits * 10^exponent`. Far outside the format's range
the answer is known without the power of ten. -/
def ofDecimal (negative : Bool) (digits : Nat) (exponent : Int) : Binary64 :=
  let size : Int := digits.log2
  if digits = 0 then .zero negative
  else if 400 < exponent then .infinite negative
  else if exponent < -(size + 400) then .zero negative
  else
    Binary64.ofRatio negative (digits * Nat.pow 10 exponent.toNat) (Nat.pow 10 (-exponent).toNat)

/-- The double that a decimal number is written for. -/
def number? (cs : List Char) : Option Binary64 :=
  let (negative, cs) := sign cs
  let whole := cs.takeWhile isDigit
  let (part, rest) := fraction (cs.dropWhile isDigit)
  if whole.isEmpty && part.isEmpty then none
  else
    (exponent? rest).map fun power =>
      ofDecimal negative (value 10 (whole ++ part)) (power - part.length)

end AtomicStyles.Reading
