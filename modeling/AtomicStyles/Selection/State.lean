import AtomicStyles.Data

/-!
# Render states

What is known when a style is rendered: flags that are on or off, and variants
with their tags. Nothing here can fail. A name that the state does not hold is
off and has no tag.
-/

namespace AtomicStyles

/-- The value of a state entry. -/
inductive StateValue where
  | flag (on : Bool)
  | variant (tag : String)
  deriving DecidableEq

/-- Flags and variants by name. -/
structure RenderState where
  values : Entries StateValue

namespace RenderState

/-- The state that holds nothing. -/
def empty : RenderState := ⟨[]⟩

/-- Sets a flag. -/
def flag (s : RenderState) (name : String) (on : Bool) : RenderState :=
  ⟨s.values.insert name (.flag on)⟩

/-- Sets the tag of a variant. -/
def variant (s : RenderState) (name tag : String) : RenderState :=
  ⟨s.values.insert name (.variant tag)⟩

/-- The state value of a scalar: booleans are flags, and texts and numbers are
tags. -/
def readValue? : Data → Option StateValue
  | .bool on => some (.flag on)
  | .text tag => some (.variant tag)
  | .natural n => some (.variant (toString n))
  | .negated n => some (.variant (toString (-(n : Int))))
  | .real x => x.json?.map .variant
  | _ => none

/-- Takes up one entry; what is no scalar is skipped. -/
def readEntry (s : RenderState) (e : Data × Data) : RenderState :=
  match e.1, readValue? e.2 with
  | .text name, some value => ⟨s.values.insert name value⟩
  | _, _ => s

/-- The state that a table stands for. Other data stand for the empty state. -/
def ofData : Data → RenderState
  | .table entries => entries.foldl readEntry empty
  | _ => empty

/-- The value of an entry. -/
def get? (s : RenderState) (name : String) : Option StateValue :=
  s.values.get? name

/-- Whether a flag is on. A variant counts as on unless its tag is empty. -/
def isSet (s : RenderState) (name : String) : Bool :=
  match s.get? name with
  | some (.flag on) => on
  | some (.variant tag) => !tag.isEmpty
  | none => false

/-- Whether a variant has the tag. A flag has the tag `true` or `false`. -/
def isVariant (s : RenderState) (name tag : String) : Bool :=
  match s.get? name with
  | some (.variant t) => t == tag
  | some (.flag true) => tag == "true"
  | some (.flag false) => tag == "false"
  | none => false

/-- Whether the state holds nothing. -/
def isEmpty (s : RenderState) : Bool :=
  s.values.isEmpty

end RenderState

end AtomicStyles
