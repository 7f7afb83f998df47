/-!
# Declarations

What a class sets: a CSS property and the text of its value. Theme properties
have camel-cased names, and CSS has the same names with hyphens.
-/

namespace AtomicStyles.Css

/-- One declaration of a rule. -/
structure Declaration where
  property : String
  value : String
  deriving DecidableEq

/-- The text of a declaration, without the semicolon after it. -/
def Declaration.text (d : Declaration) : String :=
  d.property ++ ": " ++ d.value

/-- Puts a hyphen before every ASCII capital that follows a small letter, and
makes that capital small. -/
def hyphenate : Bool → List Char → List Char
  | _, [] => []
  | afterSmall, c :: cs =>
      if afterSmall && c.isUpper then '-' :: c.toLower :: hyphenate c.isLower cs
      else c :: hyphenate c.isLower cs

/-- Whether the name is that of a custom property. -/
def isCustomName (name : String) : Bool :=
  ['-', '-'].isPrefixOf name.toList

/-- The CSS name of a theme property. The name of a custom property stays as it
is. -/
def propertyName (name : String) : String :=
  if isCustomName name then name else String.ofList (hyphenate false name.toList)

end AtomicStyles.Css
