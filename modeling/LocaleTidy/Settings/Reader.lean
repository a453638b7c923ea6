import LocaleTidy.Json.Skip
import LocaleTidy.Settings.Basic

/-!
# Reading settings

Settings are an object whose members may come in any order, or an array of the fields in their
own order. What is left out keeps its default, and members with other names are passed over.
-/

namespace LocaleTidy.Settings

open Json

/-! ## Values of a known type -/

/-- Reads what follows the blanks by its first character. -/
def readBy {α : Type} (value : Char → Reader α) : Reader α := fun text =>
  match skipGaps text with
  | [] => .error (.atEnd .endInValue)
  | c :: rest => value c rest

def readText : Reader String :=
  readBy fun c rest =>
    if c = '"' then readString rest else .error (mismatch "a string" (c :: rest))

def readTexts : Reader (List String) :=
  readBy fun c rest =>
    if c = '[' then readItems readText rest else .error (mismatch "a sequence" (c :: rest))

def readOptionalText : Reader (Option String) :=
  readBy fun c rest => do
    if c = 'n' then return (none, ← literal "ull".toList rest)
    let (text, rest) ← readText (c :: rest)
    return (some text, rest)

def readFlag : Reader Bool :=
  readBy fun c rest => do
    if c = 't' then return (true, ← literal "rue".toList rest)
    if c = 'f' then return (false, ← literal "alse".toList rest)
    throw (mismatch "a boolean" (c :: rest))

/-! ## Fields -/

/-- A field of the settings, in the order of the file. -/
inductive Field where
  | messagesFile
  | sourceRoots
  | extensions
  | ignores
  | excludeDir
  | lookupFunction
  | namespaceFunctions
  | errorNamespaces
  | bareLeafFallback
  | backupSuffix
  deriving DecidableEq, Repr

namespace Field

/-- The fields in the order of the file. -/
def all : List Field :=
  [ .messagesFile, .sourceRoots, .extensions, .ignores, .excludeDir, .lookupFunction,
    .namespaceFunctions, .errorNamespaces, .bareLeafFallback, .backupSuffix ]

def name : Field → String
  | .messagesFile => "messagesFile"
  | .sourceRoots => "sourceRoots"
  | .extensions => "extensions"
  | .ignores => "ignores"
  | .excludeDir => "excludeDir"
  | .lookupFunction => "translationFunction"
  | .namespaceFunctions => "namespaceFunctions"
  | .errorNamespaces => "errorNamespaces"
  | .bareLeafFallback => "bareLeafFallback"
  | .backupSuffix => "backupSuffix"

def ofName? (name : String) : Option Field :=
  all.find? fun field => field.name = name

/-- Reads the value of a field into the settings. -/
def read (settings : Settings) : Field → Reader Settings
  | .messagesFile => set readText fun value => { settings with messagesFile := value }
  | .sourceRoots => set readTexts fun value => { settings with sourceRoots := value }
  | .extensions => set readTexts fun value => { settings with extensions := value }
  | .ignores => set readTexts fun value => { settings with ignores := value }
  | .excludeDir => set readOptionalText fun value => { settings with excludeDir := value }
  | .lookupFunction =>
      set readText fun value => { settings with lookupFunction := value }
  | .namespaceFunctions =>
      set readTexts fun value => { settings with namespaceFunctions := value }
  | .errorNamespaces => set readTexts fun value => { settings with errorNamespaces := value }
  | .bareLeafFallback => set readFlag fun value => { settings with bareLeafFallback := value }
  | .backupSuffix => set readText fun value => { settings with backupSuffix := value }
where
  /-- Reads a value and makes the settings that hold it. -/
  set {α : Type} (value : Reader α) (settings : α → Settings) : Reader Settings := fun text => do
    let (value, text) ← value text
    return (settings value, text)

end Field

/-! ## Settings -/

/-- What was read so far: the settings, and the fields that were set. -/
structure Gathered where
  settings : Settings
  seen : List Field

/-- Reads the rest of a member. A field that comes twice is refused behind its name, and behind
the bracket of the object if that follows. -/
def readNamed (gathered : Gathered) (name : String) : Reader Gathered := fun text =>
  match Field.ofName? name with
  | none => do return (gathered, ← skipValue (← takeColon text))
  | some field =>
      if field ∈ gathered.seen then
        let rest :=
          match skipGaps text with
          | '}' :: rest => rest
          | rest => rest
        .error (.here (.repeatedField name) rest)
      else do
        let (settings, text) ← readMember (field.read gathered.settings) text
        return (⟨settings, field :: gathered.seen⟩, text)

/-- Takes the bracket that ends an array of all fields. -/
def takeListEnd (text : List Char) : Except Failure (List Char) :=
  match skipGaps text with
  | [] => .error (.atEnd .endInList)
  | c :: rest =>
      if c = ']' then .ok rest
      else if c = ',' then
        match skipGaps rest with
        | ']' :: rest => .error (.next .trailingComma (']' :: rest))
        | rest => .error (.next .trailingCharacters rest)
      else .error (.next .trailingCharacters (c :: rest))

/-- Reads the items of an array as the values of the given fields. -/
def readInOrder (settings : Settings) (first : Bool) : List Field → Reader Settings
  | [], text => do return (settings, ← takeListEnd text)
  | field :: fields, text => do
      let (another, text) ← nextItem first text
      if another then
        let (settings, text) ← field.read settings text
        readInOrder settings false fields text
      else return (settings, text)

def reader : Reader Settings :=
  readBy fun c rest => do
    if c = '{' then
      let (gathered, rest) ← membersWithin readNamed (rest.length + 1) true ⟨default, []⟩ rest
      return (gathered.settings, rest)
    if c = '[' then readInOrder default true Field.all rest
    else throw (mismatch "struct Config" (c :: rest))

def parse (text : String) : Except Json.Fault Settings :=
  readWhole reader text

end LocaleTidy.Settings
