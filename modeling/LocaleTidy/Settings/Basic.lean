import LocaleTidy.Json.Writer
import LocaleTidy.Path

/-!
# Settings

What a project says about itself: where its catalog and its sources are, which files are
passed over, and how keys are looked up in source text.
-/

namespace LocaleTidy

structure Settings where
  /-- The catalog file, relative to the project. -/
  messagesFile : String
  /-- The directories that hold source files, relative to the project. -/
  sourceRoots : List String
  extensions : List String
  ignores : List String
  excludeDir : Option String
  lookupFunction : String
  namespaceFunctions : List String
  /-- The first segments that source text may leave out. -/
  errorNamespaces : List String
  /-- Whether the last segment alone counts as a use of a key. -/
  bareLeafFallback : Bool
  /-- What is appended to the path of the catalog file for its backup. -/
  backupSuffix : String
  deriving DecidableEq, Repr

namespace Settings

/-- The settings of a project that says nothing. -/
def default : Settings where
  messagesFile := "src/locales/zh.json"
  sourceRoots := ["src"]
  extensions := ["ts", "tsx", "js", "jsx"]
  ignores := []
  excludeDir := none
  lookupFunction := "t"
  namespaceFunctions := ["useTranslations"]
  errorNamespaces := ["errors"]
  bareLeafFallback := true
  backupSuffix := ".bak"

def fileName : String := ".i18nsweeprc.json"

/-! ## Places in a project -/

def messagesPath (settings : Settings) (root : Path) : Path :=
  root.join settings.messagesFile

def sourcePaths (settings : Settings) (root : Path) : List Path :=
  settings.sourceRoots.map root.join

def backupPath (settings : Settings) (root : Path) : Path :=
  ⟨(settings.messagesPath root).text ++ settings.backupSuffix⟩

/-- The name of the directories in which a use of a key does not count: the one that is set, or
else that of the directory which holds the catalog file. An empty name stands for none. -/
def excludedName (settings : Settings) : Option String :=
  match settings.excludeDir with
  | some name => if name.isEmpty then none else some name
  | none => do (← Path.parent? ⟨settings.messagesFile⟩).fileName?

/-! ## Writing -/

/-- The settings as a JSON object; the excluded directory is left out if none is set. -/
def toJson (settings : Settings) : Json :=
  .object <|
    [ ("messagesFile", .string settings.messagesFile),
      ("sourceRoots", .strings settings.sourceRoots),
      ("extensions", .strings settings.extensions),
      ("ignores", .strings settings.ignores) ] ++
    (settings.excludeDir.map fun name => ("excludeDir", Json.string name)).toList ++
    [ ("translationFunction", .string settings.lookupFunction),
      ("namespaceFunctions", .strings settings.namespaceFunctions),
      ("errorNamespaces", .strings settings.errorNamespaces),
      ("bareLeafFallback", .bool settings.bareLeafFallback),
      ("backupSuffix", .string settings.backupSuffix) ]

def toText (settings : Settings) : String :=
  settings.toJson.pretty

end Settings

end LocaleTidy
