import AtomicStyles.Theme.Registry

/-!
# Theme configurations

A theme can be described in a data format. A property entry has three forms: a
list of values that are their own CSS text, a table of value names with CSS
texts, and a detailed form with a kind, values, targets and a unit. The forms are
tried in the order list, detailed, values. So a table that has only the four
known fields, of the right types, is detailed, and any other table of scalars is
a table of values.
-/

namespace AtomicStyles

/-- What the values of a detailed property are. -/
inductive PropertyKind where
  | values
  | color
  | arbitrary
  deriving DecidableEq

/-- The detailed form of a property entry. -/
structure DetailedProperty where
  kind : PropertyKind := .values
  values : Entries String := []
  targets : List String := []
  unit : Option String := none
  deriving DecidableEq

/-- A property entry. -/
inductive PropertyConfig where
  | listed (items : List Literal)
  | detailed (form : DetailedProperty)
  | mapped (entries : Entries String)
  deriving DecidableEq

/-- A description of a theme. -/
structure ThemeConfig where
  properties : Entries PropertyConfig := []
  conditions : Entries String := []
  shorthands : Entries (List String) := []
  deriving DecidableEq

/-- The names of the kinds, in order. -/
def PropertyKind.name : PropertyKind → String
  | .values => "values"
  | .color => "color"
  | .arbitrary => "arbitrary"

/-- The kind with the given name. -/
def PropertyKind.ofName? : String → Option PropertyKind
  | "values" => some .values
  | "color" => some .color
  | "arbitrary" => some .arbitrary
  | _ => none

/-- A kind as it is written: its name, or a table that gives its name or number
no value. -/
def PropertyKind.ofData? : Data → Option PropertyKind
  | .text s => PropertyKind.ofName? s
  | .table [(.text s, .null)] => PropertyKind.ofName? s
  | .table [(.natural 0, .null)] => some .values
  | .table [(.natural 1, .null)] => some .color
  | .table [(.natural 2, .null)] => some .arbitrary
  | _ => none

/-- A table of value names and CSS texts, both of which are the texts of
literals. -/
def valueMap? : Data → Option (Entries String)
  | .table entries => do
      let pairs ← entries.mapM fun e => do
        let key ← Literal.ofData? e.1
        let value ← Literal.ofData? e.2
        return (key.key, value.key)
      return Entries.ofList pairs
  | _ => none

/-- A list of texts. -/
def texts? : Data → Option (List String)
  | .list items => items.mapM Data.text?
  | _ => none

/-- A text that may be absent. -/
def optionalText? : Data → Option (Option String)
  | .null => some none
  | .text s => some (some s)
  | _ => none

namespace DetailedProperty

/-- A field of the detailed form. -/
inductive Field where
  | kind
  | values
  | targets
  | unit
  deriving DecidableEq

/-- The field that a key stands for: by name, or by number where the format has
numbers for keys. A zero with a minus sign is no such number. -/
def Field.ofKey? : Data → Option Field
  | .text "kind" => some .kind
  | .text "values" => some .values
  | .text "targets" => some .targets
  | .text "unit" => some .unit
  | .natural 0 => some .kind
  | .natural 1 => some .values
  | .natural 2 => some .targets
  | .natural 3 => some .unit
  | _ => none

/-- Reads one field. -/
def setField? (p : DetailedProperty) (f : Field) (d : Data) : Option DetailedProperty :=
  match f with
  | .kind => (PropertyKind.ofData? d).map fun kind => { p with kind }
  | .values => (valueMap? d).map fun values => { p with values }
  | .targets => (texts? d).map fun targets => { p with targets }
  | .unit => (optionalText? d).map fun unit => { p with unit }

/-- Reads the fields of a table, each of them once at most. -/
def readFields? (p : DetailedProperty) (seen : List Field) :
    List (Data × Data) → Option DetailedProperty
  | [] => some p
  | (key, value) :: es => do
      let f ← Field.ofKey? key
      guard (!seen.contains f)
      let p ← p.setField? f value
      readFields? p (f :: seen) es

/-- Reads fields by position. -/
def readPositions? (p : DetailedProperty) : List Field → List Data → Option DetailedProperty
  | _, [] => some p
  | [], _ :: _ => none
  | f :: fs, d :: ds => do
      let p ← p.setField? f d
      readPositions? p fs ds

/-- The detailed form: a table of fields, or a list of them in order. -/
def ofData? : Data → Option DetailedProperty
  | .table entries => readFields? {} [] entries
  | .list items => readPositions? {} [.kind, .values, .targets, .unit] items
  | _ => none

/-- The definition that the form describes. -/
def definition (p : DetailedProperty) : PropertyDefinition :=
  let d : PropertyDefinition :=
    match p.kind with
    | .values => .ofValues p.values
    | .color => .ofColors p.values
    | .arbitrary => .numeric (p.unit.getD "")
  if p.targets.isEmpty then d else d.targeting p.targets

end DetailedProperty

/-- Texts by name, as data. -/
def textTable (entries : Entries String) : Data :=
  .record (entries.map fun e => (e.1, .text e.2))

/-- A list of texts, as data. -/
def textList (items : List String) : Data :=
  .list (items.map .text)

namespace PropertyConfig

/-- The list form. -/
def list? : Data → Option PropertyConfig
  | .list items => (items.mapM Literal.ofData?).map .listed
  | _ => none

/-- A property entry in the first of its forms that fits. -/
def ofData? (d : Data) : Option PropertyConfig :=
  list? d <|> (DetailedProperty.ofData? d).map .detailed <|> (valueMap? d).map .mapped

/-- The definition that the entry describes. -/
def definition : PropertyConfig → PropertyDefinition
  | .listed items => .ofNames (items.map Literal.key)
  | .detailed form => form.definition
  | .mapped entries => .ofValues entries

/-- The entry as data. A detailed entry leaves out what it does not have. -/
def toData : PropertyConfig → Data
  | .listed items => .list (items.map Literal.toData)
  | .mapped entries => textTable entries
  | .detailed p =>
      .record <|
        [("kind", .text p.kind.name), ("values", textTable p.values)]
          ++ (if p.targets.isEmpty then [] else [("targets", textList p.targets)])
          ++ (p.unit.map fun u => ("unit", Data.text u)).toList

end PropertyConfig

namespace ThemeConfig

/-- The configuration as data. -/
def toData (c : ThemeConfig) : Data :=
  .record [
    ("properties", .record (c.properties.map fun e => (e.1, e.2.toData))),
    ("conditions", textTable c.conditions),
    ("shorthands", .record (c.shorthands.map fun e => (e.1, textList e.2)))]

/-- The theme that the configuration describes. -/
def build (c : ThemeConfig) : Except StyleError Theme :=
  ThemeDraft.build
    { properties := c.properties.map fun e => (e.1, e.2.definition)
      conditions := c.conditions
      shorthands := c.shorthands }

end ThemeConfig

end AtomicStyles
