import LocaleTidy.Clean.Apply

/-!
# Command line arguments

A command is a name, followed by its flags and options in any order. An option takes one
value: after an equals sign, or as the next argument.
-/

namespace LocaleTidy.CommandLine

/-- What `check` and `clean` have in common. -/
structure CommonArguments where
  /-- The catalog file in place of the one that is set. -/
  messagesFile : Option String
  /-- The source directories in place of those that are set, if there are any. -/
  sourceRoots : List String
  verbose : Bool
  deriving DecidableEq, Repr

inductive Command where
  | check (common : CommonArguments)
  | clean (common : CommonArguments) (options : CleanOptions)
  | init
  deriving DecidableEq, Repr

/-- Why arguments do not lead to a command. -/
inductive Refusal where
  | help
  | version
  | unknownArgument
  | unknownCommand
  | badValue
  /-- What may stand once is there twice. -/
  | conflict
  | tooManyValues
  deriving DecidableEq, Repr

/-- The exit code for a refusal: to be shown the help or the version is no error. -/
def Refusal.exitCode : Refusal → Nat
  | .help | .version => 0
  | _ => 2

/-! ## Flags and options -/

inductive Flag where
  | help
  | verbose
  | yes
  | noBackup
  | dryRun
  deriving DecidableEq, Repr

inductive ValueOption where
  | messagesFile
  | sourceRoot
  deriving DecidableEq, Repr

/-- A long name, after its two hyphens, stands for a flag or an option. -/
inductive LongName where
  | flag (flag : Flag)
  | option (option : ValueOption)

inductive CommandName where
  | check
  | clean
  | init
  deriving DecidableEq, Repr

namespace CommandName

def ofText? (text : String) : Option CommandName :=
  if text = "check" then some .check
  else if text = "clean" then some .clean
  else if text = "init" then some .init
  else none

def commonLongNames : List (String × LongName) :=
  [ ("help", .flag .help), ("verbose", .flag .verbose),
    ("messages-file", .option .messagesFile), ("source-root", .option .sourceRoot) ]

def longNames : CommandName → List (String × LongName)
  | .init => [("help", .flag .help)]
  | .check => commonLongNames
  | .clean =>
      commonLongNames ++
        [("yes", .flag .yes), ("no-backup", .flag .noBackup), ("dry-run", .flag .dryRun)]

def letters : CommandName → List (Char × Flag)
  | .init => [('h', .help)]
  | .check => [('h', .help), ('v', .verbose)]
  | .clean => [('h', .help), ('v', .verbose), ('y', .yes)]

end CommandName

/-! ## Reading the arguments of a command -/

/-- An option that has been named, and its value once that is there. It is not looked at until
the next flag or option, or the end of the arguments. -/
structure Pending where
  option : ValueOption
  value : Option String

structure Progress where
  messagesFile : Option String
  sourceRoots : List String
  flags : List Flag
  pending : Option Pending

namespace Progress

def start : Progress := ⟨none, [], [], none⟩

def setOption (read : Progress) (option : ValueOption) (value : String) :
    Except Refusal Progress :=
  match option with
  | .messagesFile =>
      if read.messagesFile.isSome then .error .conflict
      else if value.isEmpty then .error .badValue
      else .ok { read with messagesFile := some value }
  | .sourceRoot =>
      if value.isEmpty then .error .badValue
      else .ok { read with sourceRoots := read.sourceRoots ++ [value] }

/-- Sets the option that is pending, if there is one. -/
def settle (read : Progress) : Except Refusal Progress :=
  match read.pending with
  | none => .ok read
  | some ⟨_, none⟩ => .error .badValue
  | some ⟨option, some value⟩ => setOption { read with pending := none } option value

/-- Sets a flag, after the option that is pending. -/
def setFlag (read : Progress) (flag : Flag) : Except Refusal Progress := do
  let read ← read.settle
  if flag = .help then throw .help
  if flag ∈ read.flags then throw .conflict
  return { read with flags := flag :: read.flags }

def readLetters (command : CommandName) (read : Progress) : List Char → Except Refusal Progress
  | [] => .ok read
  | letter :: rest =>
      match command.letters.lookup letter with
      | none => .error .unknownArgument
      | some flag => do readLetters command (← read.setFlag flag) rest

/-- Splits the text after two hyphens at its first equals sign. -/
def splitLong (text : List Char) : String × Option String :=
  let name := String.ofList (text.takeWhile (· ≠ '='))
  match text.dropWhile (· ≠ '=') with
  | [] => (name, none)
  | _ :: value => (name, some (String.ofList value))

/-- Reads the text after two hyphens. -/
def readLong (command : CommandName) (read : Progress) (text : List Char) :
    Except Refusal Progress :=
  match splitLong text with
  | (name, value) =>
      match command.longNames.lookup name, value with
      | none, _ => .error .unknownArgument
      | some (.flag _), some _ => .error .tooManyValues
      | some (.flag flag), none => read.setFlag flag
      | some (.option option), some value => do (← read.settle).setOption option value
      | some (.option option), none => do
          return { ← read.settle with pending := some ⟨option, none⟩ }

/-- Reads an argument that is neither a flag nor an option: the value of the option that is
pending. -/
def readPlain (read : Progress) (text : String) : Except Refusal Progress :=
  match read.pending with
  | some ⟨option, none⟩ => .ok { read with pending := some ⟨option, some text⟩ }
  | _ => .error .unknownArgument

def readArgument (command : CommandName) (read : Progress) (argument : String) :
    Except Refusal Progress :=
  match argument.toList with
  | '-' :: '-' :: text => read.readLong command text
  | '-' :: letter :: letters => read.readLetters command (letter :: letters)
  | _ => read.readPlain argument

/-- Reads the arguments of a command. Two hyphens alone end the flags and options, and nothing
may follow them. -/
def readAll (command : CommandName) (read : Progress) : List String → Except Refusal Progress
  | [] => read.settle
  | argument :: rest =>
      if argument = "--" then
        if rest.isEmpty then read.settle else .error .unknownArgument
      else do readAll command (← read.readArgument command argument) rest

def command (read : Progress) : CommandName → Command
  | .check => .check (common read)
  | .clean =>
      .clean (common read)
        ⟨read.flags.contains .yes, read.flags.contains .noBackup, read.flags.contains .dryRun⟩
  | .init => .init
where
  /-- What both commands on a project have. -/
  common (read : Progress) : CommonArguments :=
    ⟨read.messagesFile, read.sourceRoots, read.flags.contains .verbose⟩

end Progress

/-! ## Reading the command -/

/-- Reads what follows `help`: at most the name of one command. -/
def readHelp : List String → Refusal
  | [] => .help
  | [name] =>
      if (CommandName.ofText? name).isSome ∨ name = "help" then .help else .unknownCommand
  | _ => .unknownCommand

/-- Reads a first argument that begins with hyphens and is no name of a command. -/
def readTopFlag (argument : String) : Refusal :=
  match argument.toList with
  | '-' :: '-' :: text =>
      match Progress.splitLong text with
      | ("help", none) => .help
      | ("version", none) => .version
      | ("help", some _) | ("version", some _) => .tooManyValues
      | _ => .unknownArgument
  | '-' :: 'h' :: _ => .help
  | '-' :: 'V' :: _ => .version
  | '-' :: _ :: _ => .unknownArgument
  | _ => .unknownCommand

/-- The command that arguments name; none if there are no arguments. -/
def readCommand : List String → Except Refusal (Option Command)
  | [] => .ok none
  | "--" :: [] => .ok none
  | "--" :: name :: _ =>
      if (CommandName.ofText? name).isSome ∨ name = "help" then .error .unknownArgument
      else .error .unknownCommand
  | "help" :: rest => .error (readHelp rest)
  | name :: rest =>
      match CommandName.ofText? name with
      | some command => do return some ((← Progress.start.readAll command rest).command command)
      | none => .error (readTopFlag name)

end LocaleTidy.CommandLine
