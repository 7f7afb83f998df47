import AtomicStyles.Data
import AtomicStyles.Json.Tree

/-!
# Data from JSON text

Turns the tree of a JSON text into data. This fails on strings with half a
surrogate pair, on numbers too great for a double, and on nesting of 128 levels
or more.
-/

namespace AtomicStyles.Json

/-- Arrays and objects may be nested one level less than this. -/
def depthLimit : Nat := 128

/-- The data of a numeral. -/
def Numeral.toData? (n : Numeral) : Option Data :=
  n.number?.map fun v =>
    match v with
    | .natural n => .natural n
    | .negated n => .negated n
    | .real x => .real x

namespace Tree

mutual

/-- The data of a tree, when `depth` more levels are too many. -/
def toData? (depth : Nat) : Tree → Option Data
  | .null => some .null
  | .bool b => some (.bool b)
  | .numeral n => n.toData?
  | .text pieces => (textOf? pieces).map fun cs => .text (String.ofList cs)
  | .array items => if depth ≤ 1 then none else (itemsToData? (depth - 1) items).map .list
  | .object members =>
      if depth ≤ 1 then none else (membersToData? (depth - 1) members).map .table

/-- The data of the items of an array. -/
def itemsToData? (depth : Nat) : List Tree → Option (List Data)
  | [] => some []
  | t :: ts => do
      let d ← toData? depth t
      let ds ← itemsToData? depth ts
      return d :: ds

/-- The data of the members of an object. -/
def membersToData? (depth : Nat) : List (List Piece × Tree) → Option (List (Data × Data))
  | [] => some []
  | (key, t) :: ts => do
      let cs ← textOf? key
      let d ← toData? depth t
      let ds ← membersToData? depth ts
      return (.text (String.ofList cs), d) :: ds

end

end Tree

/-- The data of a text. -/
def data? (text : String) : Option Data := do
  let tree ← Tree.ofText? text
  tree.toData? depthLimit

end AtomicStyles.Json
