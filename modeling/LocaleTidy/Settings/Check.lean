import LocaleTidy.Glob.Basic
import LocaleTidy.Settings.Basic
import LocaleTidy.Text.Blank

/-!
# Valid settings

What settings have to meet before a project is searched with them.
-/

namespace LocaleTidy.Settings

inductive Defect where
  | badIgnore (entry : String) (fault : Glob.Fault)
  | noExtensions
  | noSourceRoots
  | noLookupFunction
  | noBackupSuffix

def Defect.message : Defect → String
  | .badIgnore entry fault => s!"Invalid glob pattern in 'ignores': \"{entry}\": {fault.message}"
  | .noExtensions => "'extensions' must list at least one file extension"
  | .noSourceRoots => "'sourceRoots' must list at least one directory"
  | .noLookupFunction => "'translationFunction' must not be empty"
  | .noBackupSuffix => "'backupSuffix' must not be empty"

/-- The first entry that is no pattern, and why it is none. -/
def badIgnore? : List String → Option (String × Glob.Fault)
  | [] => none
  | entry :: rest =>
      match Glob.parse entry with
      | .error fault => some (entry, fault)
      | .ok _ => badIgnore? rest

/-- Accepts settings, or names the first thing that is wrong with them. -/
def check (settings : Settings) : Except Defect Unit :=
  match badIgnore? settings.ignores with
  | some (entry, fault) => .error (.badIgnore entry fault)
  | none =>
      if settings.extensions.isEmpty then .error .noExtensions
      else if settings.sourceRoots.isEmpty then .error .noSourceRoots
      else if Text.isAllBlank settings.lookupFunction then .error .noLookupFunction
      else if settings.backupSuffix.isEmpty then .error .noBackupSuffix
      else .ok ()

end LocaleTidy.Settings
