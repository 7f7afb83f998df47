import AtomicStyles.Code.Token
import AtomicStyles.Selection.Procedure
import AtomicStyles.Text.Blank

/-!
# Merging class lists

Later class lists override earlier ones property by property. A list keeps all
its tokens of a property, since they hold under different conditions, and they
replace those of an earlier list in its place. A class that is no token stands
for itself.
-/

namespace AtomicStyles.ClassList

/-- The key under which a class is merged: its property unit, or the class itself
when it is no token. -/
def mergeKey (token : String) : String :=
  match Code.parseToken? token with
  | some parts => parts.property
  | none => token

/-- Adds a class to the group of its key, once. -/
def addToken (groups : Entries (List String)) (token : String) : Entries (List String) :=
  let key := mergeKey token
  let tokens := (groups.get? key).getD []
  groups.insert key (if tokens.contains token then tokens else tokens ++ [token])

/-- The classes of one list, grouped by key. -/
def grouped (list : String) : Entries (List String) :=
  (Text.words list).foldl addToken []

/-- Puts the groups of a later list over those of the earlier ones. -/
def overlay (groups : Entries (List String)) (list : String) : Entries (List String) :=
  (grouped list).foldl (fun gs e => gs.insert e.1 e.2) groups

/-- Merges class lists, the absent ones left out. -/
def merge (lists : List (Option String)) : String :=
  let groups := (lists.filterMap id).foldl overlay []
  " ".intercalate (groups.flatMap (·.2))

/-- The merged class lists that procedures select, later ones over earlier
ones. -/
def mergeSelected (procedures : List SelectionProcedure) (state : RenderState) : String :=
  merge (procedures.map fun p => some (p.select state))

end AtomicStyles.ClassList
