import AtomicStyles.Selection.State
import AtomicStyles.Style.Forest

/-!
# Selection procedures

A rule forest without its CSS: for each property a list of nodes, which say what
classes a render state selects. Among the nodes of a list the first dynamic one
that the state satisfies is followed alone. When there is none, all the other
nodes are followed. Branches under theme conditions are among those, because it
is the renderer that decides between their classes.

A property may have several groups. The last one that gives any class decides, so
`paddingTop` overrides its part of an earlier `padding`.
-/

namespace AtomicStyles

/-- Whether a state satisfies a condition. -/
def RuntimeCondition.holds (state : RenderState) : RuntimeCondition → Bool
  | .flag name => state.isSet name
  | .variant name tag => state.isVariant name tag

/-- A decision point: tokens and further nodes, under a condition or without
one. -/
inductive Node where
  | mk (condition : Option RuntimeCondition) (tokens : List String) (children : List Node)

namespace Node

/-- When the node applies; a node without a condition is not dynamic. -/
def condition : Node → Option RuntimeCondition
  | .mk c _ _ => c

/-- Whether the node is dynamic and the state satisfies it. -/
def isChosen (state : RenderState) (n : Node) : Bool :=
  match n.condition with
  | some c => c.holds state
  | none => false

mutual

/-- The tokens of a node that is followed. -/
def run (state : RenderState) : Node → List String
  | .mk _ tokens children =>
      tokens ++
        match chosen? state children with
        | some out => out
        | none => unconditional state children

/-- The tokens of the first dynamic node that the state satisfies. -/
def chosen? (state : RenderState) : List Node → Option (List String)
  | [] => none
  | n :: ns => if n.isChosen state then some (run state n) else chosen? state ns

/-- The tokens of all nodes that are not dynamic. -/
def unconditional (state : RenderState) : List Node → List String
  | [] => []
  | n :: ns =>
      if n.condition.isNone then run state n ++ unconditional state ns
      else unconditional state ns

end

/-- The tokens of a list of nodes. -/
def runAll (state : RenderState) (nodes : List Node) : List String :=
  (chosen? state nodes).getD (unconditional state nodes)

mutual

/-- The node of a rule. Only class rules have tokens. -/
def ofRule : Rule → Node
  | .leaf (.class token _) _ condition _ => .mk condition [token] []
  | .leaf _ _ condition _ => .mk condition [] []
  | .nested _ _ condition children => .mk condition [] (ofRules children)

/-- The nodes of several rules. -/
def ofRules : List Rule → List Node
  | [] => []
  | r :: rs => ofRule r :: ofRules rs

end

/-- A node of nested rules has no tokens of its own. -/
theorem run_nested (state : RenderState) (selector : Selector) (layer : Option ConditionId)
    (condition : Option RuntimeCondition) (children : List Rule) :
    run state (ofRule (.nested selector layer condition children)) =
      runAll state (ofRules children) := by
  rw [ofRule, run, runAll, List.nil_append]
  cases chosen? state (ofRules children) <;> rfl

mutual

/-- The names that a node and those below it read, in order of use. -/
def reads : Node → List String
  | .mk condition _ children =>
      (condition.map (·.name)).toList ++ allReads children

/-- The names that several nodes read. -/
def allReads : List Node → List String
  | [] => []
  | n :: ns => reads n ++ allReads ns

end

end Node

/-- The nodes of one property. -/
structure PropertyGroup where
  /-- The unit that starts every token of the group. -/
  property : String
  nodes : List Node

/-- A list with each item at its first position alone. -/
def firsts [BEq α] (items : List α) : List α :=
  items.foldl (fun seen x => if seen.contains x then seen else seen ++ [x]) []

/-- Maps a render state to the classes of one description. -/
structure SelectionProcedure where
  groups : List PropertyGroup

namespace SelectionProcedure

/-- The procedure that selects nothing. -/
def empty : SelectionProcedure := ⟨[]⟩

/-- The procedure of a forest. -/
def ofForest (f : RuleForest) : SelectionProcedure :=
  ⟨f.groups.map fun g => ⟨g.unit, Node.ofRules g.rules⟩⟩

/-- The names of the flags and variants that the procedure reads, in order of
first use. -/
def dynamicNames (p : SelectionProcedure) : List String :=
  firsts (p.groups.flatMap fun g => Node.allReads g.nodes)

/-- The tokens of the groups that decide, and the properties that they have
decided. Groups are taken from the last to the first, and one that gives no
tokens decides nothing. -/
def effective (state : RenderState) : List PropertyGroup → List String × List String
  | [] => ([], [])
  | g :: gs =>
      let (tokens, decided) := effective state gs
      if decided.contains g.property then (tokens, decided)
      else
        match Node.runAll state g.nodes with
        | [] => (tokens, decided)
        | own => (own ++ tokens, g.property :: decided)

/-- The selected tokens, in the order of the groups and without repeats. -/
def selected (p : SelectionProcedure) (state : RenderState) : List String :=
  firsts (effective state p.groups).1

/-- A class list with one more class. A space stands between the two unless the
list is empty. -/
def addClass (list token : String) : String :=
  if list.isEmpty then token else list ++ " " ++ token

/-- The selected classes as a class list. -/
def select (p : SelectionProcedure) (state : RenderState) : String :=
  (p.selected state).foldl addClass ""

/-- The class list of a procedure that reads no state. -/
def selectStatic? (p : SelectionProcedure) : Option String :=
  if p.dynamicNames.isEmpty then some (p.select .empty) else none

end SelectionProcedure

end AtomicStyles
