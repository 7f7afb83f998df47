import AtomicStyles.Theme.Property

/-!
# Themes

A theme is built once, from entries in order, and fixes every ordinal that class
tokens are made of. Properties are numbered in the order of their entries.
Condition preludes are numbered in the order in which they first occur, so two
condition names with one prelude share its ordinal, its tokens and its cascade
layer. A condition with an empty prelude has no ordinal: it is decided when a
style is selected and never in CSS.
-/

namespace AtomicStyles

/-- The ordinal of a property. -/
abbrev PropertyId := Nat

/-- The ordinal of a condition prelude. It is also the position of the
condition's cascade layer. -/
abbrev ConditionId := Nat

/-- What a condition name refers to. -/
inductive ConditionKind where
  /-- A prelude, decided by the renderer. -/
  | theme (id : ConditionId)
  /-- A flag, decided from the render state. -/
  | runtime
  deriving DecidableEq

/-- Whether the name is that of a flag: `is` before a capital, as in
`isHovered`. -/
def isFlagName (name : String) : Bool :=
  match name.toList with
  | 'i' :: 's' :: c :: _ => c.isUpper
  | _ => false

/-- Property, shorthand and condition tables. -/
structure Theme where
  properties : Entries PropertyDefinition
  shorthands : Entries (List PropertyId)
  conditions : Entries ConditionKind
  preludes : List String

namespace Theme

/-- The ordinal of a property. -/
def propertyId? (t : Theme) (name : String) : Option PropertyId :=
  (t.properties.find? name).map (·.1)

/-- The name and definition of a property. -/
def property? (t : Theme) (id : PropertyId) : Option (String × PropertyDefinition) :=
  t.properties[id]?

/-- The properties that a description key sets. A shorthand hides a property of
the same name, so that tokens are always keyed by single properties. -/
def expand (t : Theme) (name : String) : Except StyleError (List PropertyId) :=
  match t.shorthands.get? name with
  | some ids => .ok ids
  | none =>
      match t.propertyId? name with
      | some id => .ok [id]
      | none => .error (.unknownProperty name)

/-- What a condition name refers to. -/
def condition? (t : Theme) (name : String) : Option ConditionKind :=
  t.conditions.get? name

/-- The prelude with the given ordinal. -/
def prelude? (t : Theme) (id : ConditionId) : Option String :=
  t.preludes[id]?

end Theme

/-- The entries of a theme to be, in order. -/
structure ThemeDraft where
  properties : List (String × PropertyDefinition) := []
  conditions : List (String × String) := []
  shorthands : List (String × List String) := []

namespace ThemeDraft

/-- Adds a property. -/
def property (d : ThemeDraft) (name : String) (definition : PropertyDefinition) : ThemeDraft :=
  { d with properties := d.properties ++ [(name, definition)] }

/-- Adds a condition with its prelude; a blank prelude makes a flag. -/
def condition (d : ThemeDraft) (name : String) (text : String) : ThemeDraft :=
  { d with conditions := d.conditions ++ [(name, text)] }

/-- Adds a condition that is decided from the render state. -/
def runtimeCondition (d : ThemeDraft) (name : String) : ThemeDraft :=
  d.condition name ""

/-- Adds a shorthand for the named properties. -/
def shorthand (d : ThemeDraft) (name : String) (longhands : List String) : ThemeDraft :=
  { d with shorthands := d.shorthands ++ [(name, longhands)] }

/-- Takes up one property. -/
def addProperty (properties : Entries PropertyDefinition) (e : String × PropertyDefinition) :
    Except StyleError (Entries PropertyDefinition) :=
  if properties.has e.1 then .error (.duplicateProperty e.1)
  else .ok (properties ++ [e])

/-- The ordinal of a prelude among those known, and the preludes with it. -/
def numberPrelude (preludes : List String) (text : String) : ConditionId × List String :=
  match preludes.idxOf? text with
  | some id => (id, preludes)
  | none => (preludes.length, preludes ++ [text])

/-- The conditions and preludes known so far. -/
abbrev Conditions := Entries ConditionKind × List String

/-- Takes up one condition. -/
def addCondition (known : Conditions) (e : String × String) : Except StyleError Conditions :=
  if e.1 = "default" then .error (.reservedCondition e.1)
  else if known.1.has e.1 then .error (.invalidDefinition e.1 .repeatedCondition)
  else
    let text := Text.trimmed e.2
    if text.isEmpty then .ok (known.1 ++ [(e.1, .runtime)], known.2)
    else
      let (id, preludes) := numberPrelude known.2 text
      .ok (known.1 ++ [(e.1, .theme id)], preludes)

/-- Finds the properties that a shorthand names. -/
def longhandIds (properties : Entries PropertyDefinition) (shorthand : String)
    (longhands : List String) : Except StyleError (List PropertyId) :=
  longhands.mapM fun longhand =>
    match properties.find? longhand with
    | some (id, _) => .ok id
    | none => .error (.unknownShorthandTarget shorthand longhand)

/-- Takes up one shorthand. -/
def addShorthand (properties : Entries PropertyDefinition)
    (shorthands : Entries (List PropertyId)) (e : String × List String) :
    Except StyleError (Entries (List PropertyId)) :=
  if shorthands.has e.1 then .error (.invalidDefinition e.1 .repeatedShorthand)
  else (longhandIds properties e.1 e.2).map fun ids => shorthands ++ [(e.1, ids)]

/-- Checks the entries and assigns the ordinals: properties first, then
conditions, then shorthands. -/
def build (d : ThemeDraft) : Except StyleError Theme := do
  let properties ← d.properties.foldlM addProperty []
  let (conditions, preludes) ← d.conditions.foldlM addCondition ([], [])
  let shorthands ← d.shorthands.foldlM (addShorthand properties) []
  return { properties, shorthands, conditions, preludes }

end ThemeDraft

end AtomicStyles
