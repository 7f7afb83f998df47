import AtomicStyles.Code.Unit

/-!
# Class tokens

A class token is the unit of a property, then the units of the theme conditions
that it holds under, then the unit of its value. The property unit comes first
because it is the key by which class lists are merged.
-/

namespace AtomicStyles.Code

/-- What a resolved value contributes to a token. -/
inductive Fragment where
  /-- The position of the value in the property's value set. -/
  | indexed (position : Nat)
  /-- The hash of an open-ended value. -/
  | hashed (hash : UInt32)
  deriving DecidableEq

/-- The fragment of an open-ended value. -/
def Fragment.ofText (text : String) : Fragment :=
  .hashed (hash32 text)

/-- The unit of a fragment. -/
def Fragment.unit : Fragment → List Char
  | .indexed position => ordinalUnit position
  | .hashed hash => hashUnit hash

/-- The units that a text consists of, when it consists of units. -/
def units? (cs : List Char) : Option (List (List Char)) :=
  match cs with
  | [] => some []
  | c :: cs =>
      match _h : readUnit? (c :: cs) with
      | none => none
      | some (unit, rest) => (units? rest).map (unit :: ·)
termination_by cs.length
decreasing_by exact readUnit?_shortens _h

/-- A token taken apart. -/
structure TokenParts where
  property : String
  conditions : String
  value : String
  deriving DecidableEq

/-- All of the token but its value: which property it sets, and when. -/
def TokenParts.identity (parts : TokenParts) : String :=
  parts.property ++ parts.conditions

/-- Splits a token of at least two units into the first, the last and what
stands between them. -/
def parseToken? (token : String) : Option TokenParts :=
  match units? token.toList with
  | some (property :: second :: more) =>
      let rest := second :: more
      some
        { property := String.ofList property
          conditions := String.ofList rest.dropLast.flatten
          value := String.ofList (rest.getLast?.getD []) }
  | _ => none

/-- The token made of a property unit, condition ordinals and a fragment. -/
def token (property : List Char) (conditions : List Nat) (value : Fragment) : String :=
  String.ofList (property ++ conditions.flatMap ordinalUnit ++ value.unit)

end AtomicStyles.Code
