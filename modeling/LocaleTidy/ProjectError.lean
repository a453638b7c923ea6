import LocaleTidy.Catalog.Basic
import LocaleTidy.FileTree.Basic
import LocaleTidy.Settings.Check
import LocaleTidy.Text.Quoted

/-!
# What ends a command early

The errors that keep a command from doing its work, each with the text that is shown for it.
-/

namespace LocaleTidy

inductive ProjectError where
  | unreadableSettings (path : Path) (error : FileError)
  | malformedSettings (path : Path) (fault : Json.Fault)
  | invalidSettings (defect : Settings.Defect)
  | unwrittenSettings (path : Path) (error : FileError)
  | badIgnores (fault : Glob.Fault)
  | unreadableCatalog (path : Path) (error : FileError)
  | malformedCatalog (path : Path) (fault : Catalog.Fault)
  | unwritten (path : Path) (error : FileError)
  | unreplaced (path : Path) (error : FileError)
  | notBackedUp (source backup : Path) (error : FileError)
  /-- The user could not be asked. -/
  | unanswered (reason : String)

def ProjectError.message : ProjectError → String
  | .unreadableSettings path error =>
      s!"Failed to read config file: {Text.quoted path.text}: {error.message}"
  | .malformedSettings path fault =>
      s!"Failed to parse config file: {Text.quoted path.text}: {fault.message}"
  | .invalidSettings defect => defect.message
  | .unwrittenSettings path error => s!"Failed to write {path.text}: {error.message}"
  | .badIgnores fault => s!"Invalid glob pattern in 'ignores': {fault.message}"
  | .unreadableCatalog path error =>
      s!"Failed to read translation file: {path.text}: {error.message}"
  | .malformedCatalog path fault =>
      s!"Failed to parse translation file: {path.text}: {fault.message}"
  | .unwritten path error => s!"Failed to write file: {path.text}: {error.message}"
  | .unreplaced path error => s!"Failed to replace file: {path.text}: {error.message}"
  | .notBackedUp source backup error =>
      s!"Failed to back up {source.text} to {backup.text}: {error.message}"
  | .unanswered reason => reason

end LocaleTidy
