import AtomicStyles.Css.Token
import AtomicStyles.Text.Blank

/-!
# Values given in brackets

A description may give CSS text itself, in brackets. The text is checked to
stand alone as the value of a declaration: nothing in it may end the
declaration, open a block of rules, or close a bracket that it has not opened.
Only tokens outside nested brackets are looked at.
-/

namespace AtomicStyles.Css

/-- Why a text cannot be the value of a declaration. -/
inductive ValueFault where
  | unclosed
  | empty
  | unterminated
  | unbalanced
  | block
  | semicolon
  | exclamation
  deriving DecidableEq

/-- The wording of a fault. -/
def ValueFault.reason : ValueFault → String
  | .unclosed => "missing closing ']'"
  | .empty => "empty value"
  | .unterminated => "unterminated string or url"
  | .unbalanced => "unbalanced closing bracket"
  | .block => "blocks are not allowed in values"
  | .semicolon => "values cannot contain ';'"
  | .exclamation => "values cannot carry '!' flags"

/-- The fault of a token outside nested brackets. -/
def Token.fault? : Token → Option ValueFault
  | .badString => some .unterminated
  | .badUrl => some .unterminated
  | .closing _ => some .unbalanced
  | .opening .curly => some .block
  | .semicolon => some .semicolon
  | .exclamation => some .exclamation
  | .opening _ => none
  | .other => none

/-- The first fault among tokens, read inside the given open brackets, the
innermost first. A closing bracket that does not fit the innermost open one does
nothing, and what is still open at the end holds all that follows it. -/
def firstFault : List Bracket → List Token → Option ValueFault
  | _, [] => none
  | [], t :: ts =>
      match t.fault? with
      | some fault => some fault
      | none =>
          match t with
          | .opening b => firstFault [b] ts
          | _ => firstFault [] ts
  | b :: open', t :: ts =>
      match t with
      | .opening inner => firstFault (inner :: b :: open') ts
      | .closing closed => firstFault (if closed = b then open' else b :: open') ts
      | _ => firstFault (b :: open') ts

/-- Checks the text between the brackets. -/
def checkValue (inner : List Char) : Except ValueFault Unit :=
  if (Text.trim inner).isEmpty then .error .empty
  else
    match firstFault [] (tokens inner) with
    | some fault => .error fault
    | none => .ok ()

/-- The CSS text of a value that starts with a bracket, without its brackets and
the blank around it. -/
def bracketed (rest : List Char) : Except ValueFault String :=
  if rest.getLast? = some ']' then do
    checkValue rest.dropLast
    return String.ofList (Text.trim rest.dropLast)
  else .error .unclosed

end AtomicStyles.Css
