import AtomicStyles.Json.Config
import AtomicStyles.Yaml.Config

/-!
# Configuration files

A configuration is read from the content of a file. The name of the file tells
the format: JSON when it ends in `.json`, and YAML otherwise.
-/

namespace AtomicStyles.ThemeConfig

/-- The extension of a file name: what follows its last point, when something
stands before that point. -/
def extension? (name : List Char) : Option (List Char) :=
  let back := name.reverse
  let ending := back.takeWhile (· != '.')
  match back.dropWhile (· != '.') with
  | _ :: before => if before.isEmpty then none else some ending.reverse
  | [] => none

/-- The last part of a path. -/
def fileName (path : List Char) : List Char :=
  (path.reverse.takeWhile (· != '/')).reverse

/-- The configuration in a file with the given path and content. There is no
content when the file cannot be read, and none that is no UTF-8. -/
def ofFile (path : String) (content : Option ByteArray) : Except StyleError ThemeConfig :=
  match content.bind String.fromUTF8? with
  | none => .error (.unreadableFile path)
  | some text =>
      if extension? (fileName path.toList) = some ['j', 's', 'o', 'n'] then Json.config text
      else Yaml.config text

end AtomicStyles.ThemeConfig
