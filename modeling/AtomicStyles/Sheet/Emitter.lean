import AtomicStyles.Css.Identifier
import AtomicStyles.Sheet.Layer
import AtomicStyles.Style.Forest

/-!
# Writing sheets

A sheet holds one block for each set of theme conditions that its rules stand
under. A block opens the layer of its highest condition, nests the preludes of
all its conditions, and holds the rules of its classes.

An emitter remembers the classes that it has written and writes each of them
once. One emitter serves one unit of compilation, and two share nothing.
-/

namespace AtomicStyles

namespace Sheet

/-- Lexicographic order of condition lists: a list stands before its
extensions. -/
def precedes : List ConditionId → List ConditionId → Bool
  | [], [] => false
  | [], _ :: _ => true
  | _ :: _, [] => false
  | a :: as, b :: bs => if a < b then true else if a = b then precedes as bs else false

/-- The rules of one set of theme conditions. -/
structure Block where
  conditions : List ConditionId
  rules : List ClassRule

/-- Puts a rule at the end of the block of its conditions. The blocks are
ascending by their conditions. -/
def addRule : List Block → ClassRule → List Block
  | [], r => [⟨r.conditions, [r]⟩]
  | b :: bs, r =>
      if r.conditions = b.conditions then ⟨b.conditions, b.rules ++ [r]⟩ :: bs
      else if precedes r.conditions b.conditions then ⟨r.conditions, [r]⟩ :: b :: bs
      else b :: addRule bs r

/-- The blocks of a list of rules. -/
def blocks (rules : List ClassRule) : List Block :=
  rules.foldl addRule []

/-- Two spaces for each level. -/
def indent (level : Nat) : String :=
  String.ofList (List.replicate (2 * level) ' ')

/-- The text of one class rule, nested `level` deep. -/
def ruleText (level : Nat) (r : ClassRule) : String :=
  indent level ++ "." ++ String.ofList (Css.identifier r.token.toList) ++ " \x7b"
    ++ String.join (r.declarations.map fun d => " " ++ d.text ++ ";") ++ " \x7d\n"

/-- Opens the preludes of conditions, from the given level on. -/
def openings (theme : Theme) : Nat → List ConditionId → String
  | _, [] => ""
  | level, id :: ids =>
      indent level ++ (theme.prelude? id).getD "" ++ " \x7b\n" ++ openings theme (level + 1) ids

/-- Closes `count` levels, the innermost first. -/
def closings : Nat → String
  | 0 => ""
  | count + 1 => indent (count + 1) ++ "\x7d\n" ++ closings count

/-- The text of a block. -/
def Block.text (theme : Theme) (b : Block) : String :=
  "@layer " ++ layerName b.conditions.getLast? ++ " \x7b\n"
    ++ openings theme 1 b.conditions
    ++ String.join (b.rules.map (ruleText (b.conditions.length + 1)))
    ++ closings b.conditions.length ++ "\x7d\n"

/-- The text of a sheet: nothing without rules, and otherwise the declaration of
the layers and the blocks. -/
def text (theme : Theme) (rules : List ClassRule) : String :=
  match blocks rules with
  | [] => ""
  | bs => theme.layerDeclaration ++ "\n" ++ String.join (bs.map (Block.text theme))

end Sheet

/-- The tokens written so far, each once. -/
structure CssEmitter where
  printed : List String

namespace CssEmitter

/-- The emitter that has written nothing. -/
def empty : CssEmitter := ⟨[]⟩

/-- Whether the rule of a token has been written. -/
def isPrinted (e : CssEmitter) (token : String) : Bool :=
  e.printed.contains token

/-- The number of class rules written. -/
def count (e : CssEmitter) : Nat :=
  e.printed.length

/-- The rules that have not been written, each token once, with the emitter that
has written them. -/
def fresh (e : CssEmitter) : List ClassRule → CssEmitter × List ClassRule
  | [] => (e, [])
  | r :: rs =>
      if e.isPrinted r.token then e.fresh rs
      else
        let next := fresh ⟨e.printed ++ [r.token]⟩ rs
        (next.1, r :: next.2)

/-- Writes the rules of a forest that have not been written before. -/
def emit (e : CssEmitter) (theme : Theme) (forest : RuleForest) : CssEmitter × String :=
  let next := e.fresh forest.classes
  (next.1, Sheet.text theme next.2)

end CssEmitter

end AtomicStyles
