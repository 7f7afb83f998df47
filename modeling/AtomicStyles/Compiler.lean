import AtomicStyles.Selection.Procedure
import AtomicStyles.Sheet.Emitter
import AtomicStyles.Style.Lowering

/-!
# Compiling descriptions

A compiler covers one unit of compilation over one theme. It lowers descriptions
to rules, writes the rules that the unit has not seen, and gives the procedure
that selects the classes. A description that fails leaves the compiler as it
was.
-/

namespace AtomicStyles

/-- Everything made from one description. -/
structure CompiledStyle where
  /-- The sheet of the rules that are new to the unit; it may be empty. -/
  css : String
  procedure : SelectionProcedure
  rules : RuleForest

/-- A theme and what the unit has written so far. -/
structure StyleCompiler where
  theme : Theme
  emitter : CssEmitter

namespace StyleCompiler

/-- The compiler of a new unit. -/
def new (theme : Theme) : StyleCompiler := ⟨theme, .empty⟩

/-- Compiles a description. -/
def compile (c : StyleCompiler) (description : StyleDescription) :
    Except StyleError (StyleCompiler × CompiledStyle) := do
  let rules ← lower c.theme description
  let (emitter, css) := c.emitter.emit c.theme rules
  return ({ c with emitter }, { css, procedure := .ofForest rules, rules })

/-- Compiles a description and puts its sheet, unless it is empty, after the
assets made before. -/
def compileInto (c : StyleCompiler) (description : StyleDescription) (assets : List String) :
    Except StyleError (StyleCompiler × SelectionProcedure × List String) := do
  let (c, compiled) ← c.compile description
  let assets := if compiled.css.isEmpty then assets else assets ++ [compiled.css]
  return (c, compiled.procedure, assets)

end StyleCompiler

end AtomicStyles
