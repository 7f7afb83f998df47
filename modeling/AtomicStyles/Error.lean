import AtomicStyles.Css.Value

/-!
# Errors

Everything that can go wrong goes wrong before a style is rendered: a theme that
contradicts itself, a description that does not fit the theme, or text that
cannot be read. Each cause is a constructor with the names involved, and the
wording stands in one place.
-/

namespace AtomicStyles

/-- Why the entry of a custom property is refused. -/
inductive CustomFault where
  | typeIsNoName
  | unknownType (name : String)
  | emptyValue
  deriving DecidableEq

/-- Why a theme entry is refused. -/
inductive EntryFault where
  | repeatedCondition
  | repeatedShorthand
  deriving DecidableEq

/-- A cause of failure. -/
inductive StyleError where
  | unknownProperty (name : String)
  | unknownValue (property value : String)
  | duplicateProperty (name : String)
  | unknownShorthandTarget (shorthand property : String)
  | reservedCondition (name : String)
  | invalidConditionKey (property key : String)
  | conflictingDefault (property key : String)
  | invalidArbitraryValue (property value : String) (fault : Css.ValueFault)
  | invalidOpacity (property opacity : String)
  | invalidCustomProperty (name : String) (fault : CustomFault)
  | invalidDefinition (name : String) (fault : EntryFault)
  | unreadableDescription
  | unreadableYaml
  | unreadableJson
  | unreadableFile (path : String)
  deriving DecidableEq

/-- The wording of a fault. -/
def CustomFault.reason : CustomFault → String
  | .typeIsNoName => "'type' must name a theme property"
  | .unknownType name => s!"unknown type '{name}'"
  | .emptyValue => "value is empty"

/-- The wording of a fault. -/
def EntryFault.reason : EntryFault → String
  | .repeatedCondition => "condition is defined twice"
  | .repeatedShorthand => "shorthand is defined twice"

/-- The wording of an error. -/
def StyleError.message : StyleError → String
  | .unknownProperty name => s!"unknown style property '{name}'"
  | .unknownValue property value => s!"unknown value '{value}' for property '{property}'"
  | .duplicateProperty name => s!"property '{name}' is already defined"
  | .unknownShorthandTarget shorthand property =>
      s!"shorthand '{shorthand}' references unknown property '{property}'"
  | .reservedCondition name => s!"'{name}' is reserved and cannot be used as a condition name"
  | .invalidConditionKey property key =>
      s!"condition '{key}' on property '{property}' must map variant tags to values"
  | .conflictingDefault property key =>
      s!"property '{property}' has more than one 'default' (again in variant '{key}')"
  | .invalidArbitraryValue property value fault =>
      s!"invalid arbitrary value '{value}' for property '{property}': {fault.reason}"
  | .invalidOpacity property opacity =>
      s!"invalid opacity '{opacity}' for property '{property}': expected 0-100"
  | .invalidCustomProperty name fault => s!"invalid custom property '{name}': {fault.reason}"
  | .invalidDefinition name fault => s!"invalid registry entry '{name}': {fault.reason}"
  | .unreadableDescription => "invalid style description"
  | .unreadableYaml => "failed to parse YAML theme config"
  | .unreadableJson => "failed to parse JSON theme config"
  | .unreadableFile path => s!"failed to read theme config '{path}'"

end AtomicStyles
