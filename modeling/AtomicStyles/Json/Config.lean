import AtomicStyles.Json.Value
import AtomicStyles.Style.Description
import AtomicStyles.Theme.Config

/-!
# Configurations and descriptions in JSON

A configuration is an object of three fields, or an array of them in order. Its
unknown fields are skipped without a look at what they say, as long as they are
well-formed, and a known field stands once at most.
-/

namespace AtomicStyles.Json

/-- The text of a string. -/
def string? : Tree → Option String
  | .text pieces => (textOf? pieces).map String.ofList
  | _ => none

/-- The members of an object, each value read by `read`. -/
def members? (read : Tree → Option α) : Tree → Option (Entries α)
  | .object members => do
      let pairs ← members.mapM fun m => do
        let key ← textOf? m.1
        let value ← read m.2
        return (String.ofList key, value)
      return Entries.ofList pairs
  | _ => none

/-- The items of an array of strings. -/
def strings? : Tree → Option (List String)
  | .array items => items.mapM string?
  | _ => none

namespace Config

/-- A field of a configuration. -/
inductive Field where
  | properties
  | conditions
  | shorthands
  deriving DecidableEq

/-- The field with the given name. -/
def Field.ofName? : String → Option Field
  | "properties" => some .properties
  | "conditions" => some .conditions
  | "shorthands" => some .shorthands
  | _ => none

/-- A property entry. It stands two levels below the top. -/
def property? (t : Tree) : Option PropertyConfig := do
  let d ← t.toData? (depthLimit - 2)
  PropertyConfig.ofData? d

/-- Reads one field. -/
def setField? (c : ThemeConfig) (f : Field) (t : Tree) : Option ThemeConfig :=
  match f with
  | .properties => (members? property? t).map fun properties => { c with properties }
  | .conditions => (members? string? t).map fun conditions => { c with conditions }
  | .shorthands => (members? strings? t).map fun shorthands => { c with shorthands }

/-- Reads the fields of an object. -/
def readFields? (c : ThemeConfig) (seen : List Field) :
    List (List Piece × Tree) → Option ThemeConfig
  | [] => some c
  | (key, t) :: ms => do
      let name ← textOf? key
      match Field.ofName? (String.ofList name) with
      | none => readFields? c seen ms
      | some f =>
          guard (!seen.contains f)
          let c ← setField? c f t
          readFields? c (f :: seen) ms

/-- Reads fields by position. -/
def readPositions? (c : ThemeConfig) : List Field → List Tree → Option ThemeConfig
  | _, [] => some c
  | [], _ :: _ => none
  | f :: fs, t :: ts => do
      let c ← setField? c f t
      readPositions? c fs ts

/-- The configuration that a tree stands for. -/
def ofTree? : Tree → Option ThemeConfig
  | .object members => readFields? {} [] members
  | .array items => readPositions? {} [.properties, .conditions, .shorthands] items
  | _ => none

end Config

/-- The configuration that a text describes. -/
def config (text : String) : Except StyleError ThemeConfig :=
  match (Tree.ofText? text).bind Config.ofTree? with
  | some c => .ok c
  | none => .error .unreadableJson

/-- The style description that a text gives. -/
def description (text : String) : Except StyleError StyleDescription :=
  match (data? text).bind StyleDescription.ofData? with
  | some d => .ok d
  | none => .error .unreadableDescription

end AtomicStyles.Json
