import AtomicStyles.Style.Forest
import AtomicStyles.Style.Normal

/-!
# Lowering descriptions to rules

Every entry of a description is brought into normal form and its leaves are
resolved by the theme. A shorthand gives one group of rules for each of its
properties, all from the same normal form. A custom property resolves its leaves
as CSS text, or through the theme property that its entry names as its type, and
its unit is the hash of its name.

Theme conditions gather on the way to a leaf, whose token lists them in ascending
order. So the order in which conditions are nested leaves no trace in the tokens.
-/

namespace AtomicStyles

open Css (Declaration)
open Code (Fragment)

namespace Lowering

/-- What the leaves of an entry resolve to. -/
inductive Target where
  /-- A property of the theme. -/
  | themed (id : PropertyId) (name : String) (definition : PropertyDefinition)
  /-- A custom property whose values are those of a theme property. -/
  | typed (name : String) (type : String) (definition : PropertyDefinition)
  /-- A custom property whose values are CSS text. -/
  | raw (name : String)

/-- The name in the description's or theme's words. -/
def Target.name : Target → String
  | .themed _ name _ => name
  | .typed name _ _ => name
  | .raw name => name

/-- The unit that starts the tokens. -/
def Target.unit : Target → List Char
  | .themed id _ _ => Code.ordinalUnit id
  | .typed name _ _ => Code.hashUnit (hash32 name)
  | .raw name => Code.hashUnit (hash32 name)

/-- Resolves a leaf. Values of a custom property are told apart by their CSS
text, since properties of different types may share its unit. -/
def Target.resolve (target : Target) (value : Literal) : Except StyleError ResolvedValue :=
  match target with
  | .themed _ name definition => definition.resolve name value
  | .typed name type definition => do
      let (css, _) ← definition.resolveValue type value
      return ⟨[⟨name, css⟩], .ofText css⟩
  | .raw name =>
      let css := value.key
      if Text.isBlankText css then .error (.invalidCustomProperty name .emptyValue)
      else .ok ⟨[⟨name, css⟩], .ofText css⟩

/-- Puts a condition into an ascending list, once. -/
def activate (id : ConditionId) : List ConditionId → List ConditionId
  | [] => [id]
  | c :: cs =>
      if id < c then id :: c :: cs
      else if id = c then c :: cs
      else c :: activate id cs

/-- The class rule of a leaf. -/
def leaf (target : Target) (active : List ConditionId) (value : Literal) :
    Except StyleError Rule := do
  let resolved ← target.resolve value
  let token := Code.token target.unit active resolved.fragment
  return .leaf (.class token active) active.getLast? none resolved.declarations

mutual

/-- The rules of a normal form under the active theme conditions. -/
def node (target : Target) (active : List ConditionId) :
    StyleNode → Except StyleError (List Rule)
  | .leaf literal => (leaf target active literal).map fun r => [r]
  | .branching bs => branches target active bs

/-- One rule for each branch. -/
def branches (target : Target) (active : List ConditionId) :
    List (BranchCondition × StyleNode) → Except StyleError (List Rule)
  | [] => .ok []
  | (condition, n) :: bs => do
      let rule ←
        match condition with
        | .fallback =>
            (node target active n).map (.nested .group active.getLast? none)
        | .theme id =>
            (node target (activate id active) n).map (.nested (.prelude id) (some id) none)
        | .flag name =>
            (node target active n).map (.nested .group active.getLast? (some (.flag name)))
        | .variant name tag =>
            (node target active n).map
              (.nested .group active.getLast? (some (.variant name tag)))
      let rules ← branches target active bs
      return rule :: rules

end

/-- The group of rules for one target. -/
def group (target : Target) (tree : StyleNode) : Except StyleError PropertyRules := do
  let rules ← node target [] tree
  return ⟨String.ofList target.unit, target.name, rules⟩

/-- Recognizes the entry of a typed custom property: an object of `type` and
`value` and nothing else. -/
def typedEntry? : StyleValue → Option (StyleValue × StyleValue)
  | .conditional entries =>
      match Entries.get? entries "type", Entries.get? entries "value" with
      | some type, some value => if entries.length = 2 then some (type, value) else none
      | _, _ => none
  | .literal _ => none

/-- The target of a custom property, with the value that its leaves come from. -/
def customTarget (theme : Theme) (name : String) (value : StyleValue) :
    Except StyleError (Target × StyleValue) :=
  match typedEntry? value with
  | none => .ok (.raw name, value)
  | some (.literal (.text type), inner) =>
      match theme.properties.get? type with
      | some definition => .ok (.typed name type definition, inner)
      | none => .error (.invalidCustomProperty name (.unknownType type))
  | some _ => .error (.invalidCustomProperty name .typeIsNoName)

/-- The target of a theme property. -/
def themeTarget (theme : Theme) (entry : String) (id : PropertyId) : Except StyleError Target :=
  match theme.property? id with
  | some (name, definition) => .ok (.themed id name definition)
  | none => .error (.unknownProperty entry)

/-- The groups of one entry. -/
def entry (theme : Theme) (name : String) (value : StyleValue) :
    Except StyleError (List PropertyRules) :=
  if Css.isCustomName name then do
    let (target, inner) ← customTarget theme name value
    let tree ← StyleNode.normalize theme name inner
    let rules ← group target tree
    return [rules]
  else do
    let ids ← theme.expand name
    let tree ← StyleNode.normalize theme name value
    ids.mapM fun id => do
      let target ← themeTarget theme name id
      group target tree

end Lowering

/-- Lowers a description. The first entry that does not fit the theme fails all
of it. -/
def lower (theme : Theme) (description : StyleDescription) : Except StyleError RuleForest := do
  let groups ← description.entries.mapM fun e => Lowering.entry theme e.1 e.2
  return ⟨groups.flatten⟩

end AtomicStyles
