import AtomicStyles.Style.Description
import AtomicStyles.Theme.Registry

/-!
# Normal form of style values

In a description a key of a conditional object may be `default`, a condition of
the theme, a flag, or the name of a variant whose value maps tags to values. The
normal form says for each branch how it is decided, so nothing that follows
looks at key names again.

An object nested under a flag or a variant tag takes over the fallback and the
theme-condition values of the objects around it that it does not declare itself.
So a nested object in which nothing matches still falls back. The values of
`default` and of theme conditions take over nothing.
-/

namespace AtomicStyles

/-- How a branch is decided. -/
inductive BranchCondition where
  /-- Taken when no dynamic sibling is. -/
  | fallback
  /-- Decided by the renderer through a CSS prelude. -/
  | theme (id : ConditionId)
  /-- Taken when the flag is set in the render state. -/
  | flag (name : String)
  /-- Taken when the variant has the tag in the render state. -/
  | variant (name tag : String)
  deriving DecidableEq

/-- Whether the render state decides the branch. -/
def BranchCondition.isDynamic : BranchCondition → Bool
  | .flag _ => true
  | .variant .. => true
  | _ => false

/-- A style value with its branches classified. -/
inductive StyleNode where
  | leaf (literal : Literal)
  | branching (branches : List (BranchCondition × StyleNode))

namespace StyleNode

/-- What an object hands down: the normal forms of a fallback and of
theme-condition values. -/
abbrev Scope := List (BranchCondition × Except StyleError StyleNode)

/-- A branch in the making. -/
inductive Arm where
  /-- A fallback or theme-condition value, which takes over nothing. -/
  | settled (condition : BranchCondition) (node : Except StyleError StyleNode)
  /-- A value under a flag or variant tag, which depends on what it is handed. -/
  | dynamic (condition : BranchCondition) (node : Scope → Except StyleError StyleNode)

/-- The branch, for an object that hands down `scope`. -/
def Arm.branch (scope : Scope) : Arm → Except StyleError (BranchCondition × StyleNode)
  | .settled condition node => node.map fun n => (condition, n)
  | .dynamic condition node => (node scope).map fun n => (condition, n)

/-- The fallback among arms. -/
def fallbackArm : List Arm → Scope
  | [] => []
  | .settled .fallback node :: _ => [(.fallback, node)]
  | _ :: arms => fallbackArm arms

/-- The theme-condition values among arms, in order. -/
def themeArms : List Arm → Scope
  | [] => []
  | .settled (.theme id) node :: arms => (.theme id, node) :: themeArms arms
  | _ :: arms => themeArms arms

/-- The part of what is handed down that an object does not declare itself. -/
def missing (own inherited : Scope) : Scope :=
  inherited.filter fun e => own.all fun o => o.1 != e.1

/-- The normal form of an object with the given arms: its own branches, then what
it takes over. -/
def ofArms (arms : List Arm) (inherited : Scope) : Except StyleError StyleNode := do
  let own := fallbackArm arms ++ themeArms arms
  let taken := missing own inherited
  let branches ← arms.mapM (·.branch (own ++ taken))
  let rest ← taken.mapM fun e => e.2.map fun n => (e.1, n)
  return .branching (branches ++ rest)

/-- Whether a key of a conditional object names a variant. -/
def isVariantKey (theme : Theme) (key : String) : Bool :=
  key != "default" && (theme.condition? key).isNone && !isFlagName key

/-- The tag map of a variant. -/
def tagMap (property key : String) : StyleValue → Except StyleError (Entries StyleValue)
  | .conditional tags => .ok tags
  | .literal _ => .error (.invalidConditionKey property key)

/-- Checks the entries of an object: every variant maps tags to values, and
there is one fallback at most. The flag tells whether one was found before. -/
def check (theme : Theme) (property : String) :
    Bool → List (String × StyleValue) → Except StyleError Unit
  | _, [] => .ok ()
  | found, (key, value) :: es =>
      if isVariantKey theme key then do
        let tags ← tagMap property key value
        if tags.has "default" then
          if found then throw (.conflictingDefault property key)
          check theme property true es
        else check theme property found es
      else check theme property found es

mutual

/-- The normal form of a value that is handed down `scope`. -/
def ofValue (theme : Theme) (property : String) (value : StyleValue) (scope : Scope) :
    Except StyleError StyleNode :=
  match value with
  | .literal l => .ok (.leaf l)
  | .conditional entries => do
      check theme property (Entries.has entries "default") entries
      ofArms (arms theme property entries) scope

/-- The arms of an object's entries. -/
def arms (theme : Theme) (property : String) : List (String × StyleValue) → List Arm
  | [] => []
  | (key, value) :: es =>
      let first :=
        if key = "default" then [.settled .fallback (ofValue theme property value [])]
        else
          match theme.condition? key with
          | some (.theme id) => [.settled (.theme id) (ofValue theme property value [])]
          | some .runtime => [.dynamic (.flag key) (ofValue theme property value)]
          | none =>
              if isFlagName key then [.dynamic (.flag key) (ofValue theme property value)]
              else
                match value with
                | .conditional tags => tagArms theme property key tags
                | .literal _ => []
      first ++ arms theme property es

/-- The arms of a variant's tags. -/
def tagArms (theme : Theme) (property name : String) : List (String × StyleValue) → List Arm
  | [] => []
  | (tag, value) :: es =>
      (if tag = "default" then Arm.settled .fallback (ofValue theme property value [])
        else Arm.dynamic (.variant name tag) (ofValue theme property value))
        :: tagArms theme property name es

end

/-- The normal form of the value that a description gives to `property`. -/
def normalize (theme : Theme) (property : String) (value : StyleValue) :
    Except StyleError StyleNode :=
  ofValue theme property value []

end StyleNode

end AtomicStyles
