import AtomicStyles.Css.Declaration
import AtomicStyles.Theme.Registry

/-!
# Rule forests

What a description becomes: one group of rules for each property that it sets.
Inside a group the rules keep the shape of the description's branches. The leaves
are class rules, which hold the tokens and declarations. Writing CSS reads the
leaves alone, and selecting classes reads the whole shape.
-/

namespace AtomicStyles

open Css (Declaration)

/-- What a rule applies to. -/
inductive Selector where
  /-- The elements with a class, under theme conditions in ascending order. -/
  | class (token : String) (conditions : List ConditionId)
  /-- Whatever its children apply to, under the prelude of a theme condition. -/
  | prelude (id : ConditionId)
  /-- Whatever its children apply to. -/
  | group
  deriving DecidableEq

/-- A condition that the render state decides. -/
inductive RuntimeCondition where
  | flag (name : String)
  | variant (name tag : String)
  deriving DecidableEq

/-- The name in the render state that the condition reads. -/
def RuntimeCondition.name : RuntimeCondition → String
  | .flag name => name
  | .variant name _ => name

/-- A rule of the forest. Its layer is that of the highest theme condition it
stands under, and the base layer is `none`. -/
inductive Rule where
  | leaf (selector : Selector) (layer : Option ConditionId)
      (condition : Option RuntimeCondition) (declarations : List Declaration)
  | nested (selector : Selector) (layer : Option ConditionId)
      (condition : Option RuntimeCondition) (children : List Rule)

/-- A class with its theme conditions and declarations. -/
structure ClassRule where
  token : String
  conditions : List ConditionId
  declarations : List Declaration
  deriving DecidableEq

mutual

/-- The class rules at and below a rule, in order. -/
def Rule.classes : Rule → List ClassRule
  | .leaf (.class token conditions) _ _ declarations => [⟨token, conditions, declarations⟩]
  | .leaf .. => []
  | .nested _ _ _ children => Rule.allClasses children

/-- The class rules at and below several rules, in order. -/
def Rule.allClasses : List Rule → List ClassRule
  | [] => []
  | r :: rs => r.classes ++ Rule.allClasses rs

end

/-- The rules of one property. -/
structure PropertyRules where
  /-- The unit that starts every token of the group. -/
  unit : String
  /-- The name of the property. -/
  name : String
  rules : List Rule

/-- The rules of a description, one group per property in the order of
declaration. -/
structure RuleForest where
  groups : List PropertyRules

namespace RuleForest

/-- The class rules, in order. -/
def classes (f : RuleForest) : List ClassRule :=
  f.groups.flatMap fun g => Rule.allClasses g.rules

/-- The class tokens, in order. -/
def tokens (f : RuleForest) : List String :=
  f.classes.map (·.token)

end RuleForest

end AtomicStyles
