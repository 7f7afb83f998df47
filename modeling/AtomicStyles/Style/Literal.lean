import AtomicStyles.Data

/-!
# Literals

The leaves of a style description. A literal is looked up by its key, which is
its text: `true`, `2` for both `2` and `2.0`, or the string itself.
-/

namespace AtomicStyles

/-- A leaf value. -/
inductive Literal where
  | bool (value : Bool)
  | number (value : Binary64)
  | text (value : String)
  deriving DecidableEq

namespace Literal

/-- The name by which a value set knows the literal. -/
def key : Literal → String
  | .bool true => "true"
  | .bool false => "false"
  | .number n => n.name
  | .text s => s

/-- Whether the literal is a number. -/
def isNumber : Literal → Bool
  | .number _ => true
  | _ => false

/-- The literal that a scalar stands for. Integers become doubles. -/
def ofData? : Data → Option Literal
  | .bool b => some (.bool b)
  | .natural n => some (.number (.ofInt n))
  | .negated n => some (.number (.ofInt (-n)))
  | .real x => some (.number x)
  | .text s => some (.text s)
  | _ => none

/-- The literal as data. -/
def toData : Literal → Data
  | .bool b => .bool b
  | .number n => .real n
  | .text s => .text s

end Literal

end AtomicStyles
