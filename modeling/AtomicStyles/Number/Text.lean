import AtomicStyles.Number.Shortest

/-!
# How numbers are written

Two layouts are in use. A number that names a value is written positionally
however large or small it is, and without a fraction when it has none, so that
`2` and `2.0` name the same value. A number in JSON text always shows a fraction
or an exponent, so that it reads back as a double.
-/

namespace AtomicStyles

namespace Decimal

/-- The digits, most significant first. -/
def figures (d : Decimal) : List Char :=
  Nat.toDigits 10 d.digits

/-- How many digits stand before the decimal point; not positive when zeros
stand after it. -/
def pointPosition (d : Decimal) : Int :=
  d.figures.length + d.exponent

/-- Positional notation. An integer carries the given ending. -/
def positional (d : Decimal) (ending : List Char) : List Char :=
  let figures := d.figures
  let point := d.pointPosition
  if 0 ≤ d.exponent then
    figures ++ List.replicate d.exponent.toNat '0' ++ ending
  else if 0 < point then
    figures.take point.toNat ++ '.' :: figures.drop point.toNat
  else
    '0' :: '.' :: (List.replicate (-point).toNat '0' ++ figures)

/-- Scientific notation: one digit, the rest as a fraction, and a signed
exponent. -/
def scientific (d : Decimal) : List Char :=
  let power := d.pointPosition - 1
  let sign := if power < 0 then '-' else '+'
  let mantissa :=
    match d.figures with
    | [] => []
    | [c] => [c]
    | c :: cs => c :: '.' :: cs
  mantissa ++ 'e' :: sign :: Nat.toDigits 10 power.natAbs

end Decimal

namespace Binary64

/-- A minus sign before the text of a negative number. -/
def signed (negative : Bool) (cs : List Char) : String :=
  String.ofList (if negative then '-' :: cs else cs)

/-- The text by which a number names a value: an integer below `10^15` in the
usual way, anything else with the fewest digits that read back and never with an
exponent. The two zeros have one name. -/
def name (x : Binary64) : String :=
  match x with
  | .nan => "NaN"
  | .infinite negative => signed negative ['i', 'n', 'f']
  | .finite negative significand exponent =>
      match x.toInt? with
      | some n =>
          if n.natAbs < Nat.pow 10 15 then
            signed (n < 0) (Nat.toDigits 10 n.natAbs)
          else
            signed negative ((Shortest.ofFinite .up significand exponent).positional [])
      | none => signed negative ((Shortest.ofFinite .up significand exponent).positional [])

/-- The text of a number in JSON: positional from `1e-5` up to below `1e16`,
scientific outside. What is not finite has none. -/
def json? : Binary64 → Option String
  | .nan => none
  | .infinite _ => none
  | .finite negative significand exponent =>
      if significand = 0 then some (signed negative ['0', '.', '0'])
      else
        let d := Shortest.ofFinite .even significand exponent
        let point := d.pointPosition
        if -5 < point ∧ point ≤ 16 then some (signed negative (d.positional ['.', '0']))
        else some (signed negative d.scientific)

end Binary64

end AtomicStyles
