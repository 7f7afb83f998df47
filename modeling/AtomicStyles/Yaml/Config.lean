import AtomicStyles.Style.Description
import AtomicStyles.Theme.Config
import AtomicStyles.Yaml.Document

/-!
# Configurations and descriptions in YAML

A configuration is a table of three fields. Unknown fields are skipped without a
look at what their aliases stand for, and a known field stands once at most. Names
and CSS texts are the texts of scalars, even of those that would stand for a number
elsewhere.
-/

namespace AtomicStyles.Yaml

namespace Config

/-- A field of a configuration. -/
inductive Field where
  | properties
  | conditions
  | shorthands
  deriving DecidableEq

/-- The field with the given name. -/
def Field.ofName? : String → Option Field
  | "properties" => some .properties
  | "conditions" => some .conditions
  | "shorthands" => some .shorthands
  | _ => none

/-- A property entry. It stands two levels below the top. -/
def property (doc : Document) (n : Node) : ValueReader PropertyConfig := do
  let d ← doc.data (depthLimit - 2) n
  (PropertyConfig.ofData? d).elim failure pure

/-- The names of the properties that a shorthand sets. -/
def longhands (doc : Document) (n : Node) : ValueReader (List String) := do
  (← doc.items n).mapM doc.text

/-- Reads one field. -/
def setField (doc : Document) (c : ThemeConfig) (f : Field) (n : Node) :
    ValueReader ThemeConfig := do
  match f with
  | .properties => return { c with properties := ← doc.members (property doc) n }
  | .conditions => return { c with conditions := ← doc.members doc.text n }
  | .shorthands => return { c with shorthands := ← doc.members (longhands doc) n }

/-- Reads the fields of a table. -/
def readFields (doc : Document) (c : ThemeConfig) (seen : List Field) :
    List (Node × Node) → ValueReader ThemeConfig
  | [] => return c
  | (key, n) :: es => do
      match Field.ofName? (← doc.text key) with
      | none => readFields doc c seen es
      | some f =>
          guard (!seen.contains f)
          readFields doc (← setField doc c f n) (f :: seen) es

/-- The configuration that a document stands for. -/
def read (doc : Document) : ValueReader ThemeConfig := do
  readFields doc {} [] (← doc.entries doc.root)

end Config

/-- The configuration that a text describes. -/
def config (text : String) : Except StyleError ThemeConfig :=
  match (Document.ofText? text).bind fun doc => doc.run (Config.read doc) with
  | some c => .ok c
  | none => .error .unreadableYaml

/-- A value of a description. It stands one level below the top. -/
def styleValue (doc : Document) (n : Node) : ValueReader StyleValue := do
  let d ← doc.data (depthLimit - 1) n
  (StyleValue.ofData? d).elim failure pure

/-- The style description that a text gives. -/
def description (text : String) : Except StyleError StyleDescription :=
  let read := fun (doc : Document) => doc.run (doc.members (styleValue doc) doc.root)
  match (Document.ofText? text).bind read with
  | some pairs => .ok (StyleDescription.ofList pairs)
  | none => .error .unreadableYaml

end AtomicStyles.Yaml
