import AtomicStyles.Code.Token
import AtomicStyles.Css.Declaration
import AtomicStyles.Error
import AtomicStyles.Number.Reading
import AtomicStyles.Style.Literal

/-!
# Theme properties

A property of a theme says which values it takes and what they mean in CSS. A
resolved value has two parts: the declarations that its class sets, and the
fragment by which the class token tells it from other values.

Two spellings are understood by every property, whatever values it lists. A
string that starts with `--` refers to a custom property, and a string in
brackets is CSS text.
-/

namespace AtomicStyles

open Css (Declaration)
open Code (Fragment)

/-- The values that a property takes. -/
inductive ValueSet where
  /-- Named values in order, each with its CSS text. -/
  | enumerated (values : Entries String)
  /-- Named colors in order. A name may be followed by a slash and an opacity. -/
  | color (values : Entries String)
  /-- Whatever the resolver gives a CSS text. -/
  | arbitrary (resolver : Literal → Option String)

/-- How the values of a property become declarations. -/
structure PropertyDefinition where
  values : ValueSet
  /-- Makes the declarations for a CSS text, in place of the single declaration
  of the property's own name. -/
  mapper : Option (String → List Declaration) := none

/-- Declarations and fragment of one value. -/
structure ResolvedValue where
  declarations : List Declaration
  fragment : Fragment
  deriving DecidableEq

namespace PropertyDefinition

/-- A property with named values. -/
def ofValues (pairs : List (String × String)) : PropertyDefinition :=
  { values := .enumerated (Entries.ofList pairs) }

/-- A property whose values are their own CSS text. -/
def ofNames (names : List String) : PropertyDefinition :=
  ofValues (names.map fun n => (n, n))

/-- A property with named colors. -/
def ofColors (pairs : List (String × String)) : PropertyDefinition :=
  { values := .color (Entries.ofList pairs) }

/-- A property with open-ended values. -/
def ofResolver (resolver : Literal → Option String) : PropertyDefinition :=
  { values := .arbitrary resolver }

/-- The property with its declarations made by the given function. -/
def mappedTo (d : PropertyDefinition) (mapper : String → List Declaration) :
    PropertyDefinition :=
  { d with mapper := some mapper }

/-- The property setting each of the given properties to the CSS text. -/
def targeting (d : PropertyDefinition) (targets : List String) : PropertyDefinition :=
  let names := targets.map Css.propertyName
  d.mappedTo fun css => names.map fun n => ⟨n, css⟩

/-- The property setting fixed declarations. One that has no text of its own
takes the CSS text. -/
def declaring (d : PropertyDefinition) (template : List (String × Option String)) :
    PropertyDefinition :=
  d.mappedTo fun css => template.map fun t => ⟨t.1, t.2.getD css⟩

/-- Numbers with a unit after them. Strings are taken as CSS text and booleans
are refused. -/
def numeric (unit : String) : PropertyDefinition :=
  ofResolver fun value =>
    match value with
    | .number n => some (n.name ++ unit)
    | .text s => some s
    | .bool _ => none

/-- The entry of a named value: its position and CSS text. -/
def lookup (values : Entries String) (name key : String) :
    Except StyleError (String × Fragment) :=
  match values.find? key with
  | some (position, css) => .ok (css, .indexed position)
  | none => .error (.unknownValue name key)

/-- The canonical text of an opacity: a number from 0 to 100. -/
def opacity? (text : List Char) : Option String :=
  match Reading.number? text with
  | some n => if n.isBetweenZeroAnd 100 then some n.name else none
  | none => none

/-- A CSS text that no value set lists. -/
def openEnded (css : String) : String × Fragment :=
  (css, .ofText css)

/-- Resolves a color, with an opacity after the first slash unless the whole key
is a name by itself. -/
def resolveColor (values : Entries String) (name key : String) :
    Except StyleError (String × Fragment) :=
  let cs := key.toList
  match cs.dropWhile (· != '/') with
  | [] => lookup values name key
  | _ :: opacity =>
      if values.has key then lookup values name key
      else do
        let (css, _) ← lookup values name (String.ofList (cs.takeWhile (· != '/')))
        match opacity? opacity with
        | some percent => return openEnded s!"rgb(from {css} r g b / {percent}%)"
        | none => throw (.invalidOpacity name (String.ofList opacity))

/-- Resolves a value by the property's value set. -/
def resolveListed (d : PropertyDefinition) (name : String) (value : Literal) :
    Except StyleError (String × Fragment) :=
  match d.values with
  | .enumerated values => lookup values name value.key
  | .color values => resolveColor values name value.key
  | .arbitrary resolver =>
      match resolver value with
      | some css => .ok (openEnded css)
      | none => .error (.unknownValue name value.key)

/-- Resolves a value to CSS text and a fragment. -/
def resolveValue (d : PropertyDefinition) (name : String) (value : Literal) :
    Except StyleError (String × Fragment) :=
  match value with
  | .text raw =>
      if Css.isCustomName raw then .ok (openEnded s!"var({raw})")
      else
        match raw.toList with
        | '[' :: rest =>
            match Css.bracketed rest with
            | .ok css => .ok (openEnded css)
            | .error fault => .error (.invalidArbitraryValue name raw fault)
        | _ => d.resolveListed name value
  | _ => d.resolveListed name value

/-- The declarations that set the property to a CSS text. -/
def declarations (d : PropertyDefinition) (name css : String) : List Declaration :=
  match d.mapper with
  | some mapper => mapper css
  | none => [⟨Css.propertyName name, css⟩]

/-- Resolves a value to declarations and a fragment. -/
def resolve (d : PropertyDefinition) (name : String) (value : Literal) :
    Except StyleError ResolvedValue := do
  let (css, fragment) ← d.resolveValue name value
  return ⟨d.declarations name css, fragment⟩

end PropertyDefinition

end AtomicStyles
