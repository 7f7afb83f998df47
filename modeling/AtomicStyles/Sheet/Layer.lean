import AtomicStyles.Code.Unit
import AtomicStyles.Theme.Registry

/-!
# Cascade layers

Every sheet first declares all layers of the theme in order. So a rule under a
later theme condition beats one under an earlier condition, whichever sheet is
loaded first. The base layer holds the rules without a condition.
-/

namespace AtomicStyles

/-- The name of the layer for rules whose highest condition is the given one. -/
def layerName (condition : Option ConditionId) : String :=
  "_" ++
    match condition with
    | some id => String.ofList (Code.ordinalUnit id)
    | none => ""

/-- The names of all layers, from the weakest to the strongest. -/
def Theme.layerNames (theme : Theme) : List String :=
  layerName none :: (List.range theme.preludes.length).map fun id => layerName (some id)

/-- The statement that fixes the order of the layers. -/
def Theme.layerDeclaration (theme : Theme) : String :=
  "@layer " ++ ", ".intercalate theme.layerNames ++ ";"

end AtomicStyles
