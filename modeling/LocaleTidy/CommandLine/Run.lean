import LocaleTidy.Clean.Prompt
import LocaleTidy.CommandLine.Arguments
import LocaleTidy.CommandLine.Report
import LocaleTidy.Settings.Load

/-!
# Running a command

A run takes a file tree and the text of standard input, and leaves a file tree, what is
printed, and an exit code: 0 for success, 1 for findings or a change that was not made, 2 for an
error.
-/

namespace LocaleTidy.CommandLine

structure Session where
  tree : FileTree
  /-- The text of standard input. -/
  input : List Char
  coloured : Bool

structure Finished where
  printed : Printed
  exitCode : Nat
  tree : FileTree
  /-- What is left of standard input. -/
  input : List Char

/-- The end of a run that an error stops, after what was printed before. -/
def Finished.failed (printed : Printed) (error : ProjectError) (tree : FileTree)
    (input : List Char) : Finished :=
  ⟨printed ++ .toErr ("Error: " ++ error.message ++ "\n"), 2, tree, input⟩

/-! ## The project of a command -/

/-- The settings with the values from the command line, which are relative to the current
directory. -/
def CommonArguments.override (common : CommonArguments) (current : Path) (settings : Settings) :
    Settings :=
  { settings with
    messagesFile :=
      match common.messagesFile with
      | some file => (current.join file).text
      | none => settings.messagesFile
    sourceRoots :=
      if common.sourceRoots.isEmpty then settings.sourceRoots
      else common.sourceRoots.map fun root => (current.join root).text }

/-- Says where the settings come from. -/
def settingsNote (loaded : Settings.Loaded) : String :=
  if loaded.fromFile then s!"Using {Settings.fileName} in {loaded.root.text}\n"
  else s!"No {Settings.fileName} found, using defaults\n"

/-- How many keys lie between two lines of progress. -/
def progressInterval : Nat := 50

/-- The lines of progress: one every so many keys, and one for the last key. -/
def progressLines (reports : List ProgressReport) : String :=
  String.join ((reports.filter fun report =>
    report.done % progressInterval == 0 || report.done == report.total).map fun report =>
      s!"Progress: {report.done}/{report.total}\n")

/-! ## Commands -/

/-- A project that is ready for a command: its settings, its root, and what was printed. -/
structure Prepared where
  settings : Settings
  root : Path
  analysis : Analysis
  printed : Printed

/-- Loads the settings and analyses the project; an error comes with what was printed. -/
def prepare (common : CommonArguments) (tree : FileTree) :
    Except (ProjectError × Printed) Prepared :=
  let current := tree.currentPath
  match Settings.load tree current with
  | .error error => .error (error, .toOut "")
  | .ok loaded =>
      let note : Printed := .toErr (if common.verbose then settingsNote loaded else "")
      let settings := common.override current loaded.settings
      match analyze tree settings loaded.root with
      | .error error => .error (error, note)
      | .ok analysis =>
          .ok ⟨settings, loaded.root, analysis, note ++ .toOut (progressLines analysis.reports)⟩

def runCheck (common : CommonArguments) (session : Session) : Finished :=
  match prepare common session.tree with
  | .error (error, printed) => .failed printed error session.tree session.input
  | .ok ⟨_, _, analysis, printed⟩ =>
      { printed := printed ++ checkReport session.coloured common.verbose analysis
        exitCode := if analysis.unusedKeys.isEmpty then 0 else 1
        tree := session.tree
        input := session.input }

/-- What a question on the command line has printed, and the input that it has left. -/
structure Dialogue where
  output : String
  input : List Char

def Dialogue.confirm : Confirm Dialogue := fun keys dialogue =>
  let reply := Prompt.ask keys dialogue.input
  (.ok reply.answer, ⟨dialogue.output ++ reply.output, reply.left⟩)

def outcomeCode : CleanOutcome → Nat
  | .backupFailed _ => 1
  | _ => 0

def runClean (common : CommonArguments) (options : CleanOptions) (session : Session) :
    Finished :=
  match prepare common session.tree with
  | .error (error, printed) => .failed printed error session.tree session.input
  | .ok ⟨settings, root, analysis, printed⟩ =>
      let cleaned :=
        analysis.clean settings root options Dialogue.confirm session.tree ⟨"", session.input⟩
      let printed := printed ++ .toOut cleaned.state.output
      match cleaned.outcome with
      | .error error => .failed printed error cleaned.tree cleaned.state.input
      | .ok outcome =>
          { printed :=
              printed ++ cleanReport session.coloured common.verbose analysis outcome
            exitCode := outcomeCode outcome
            tree := cleaned.tree
            input := cleaned.state.input }

/-- Writes a file with the default settings to the current directory. -/
def runInit (session : Session) : Finished :=
  let path := session.tree.currentPath.join Settings.fileName
  if session.tree.isThere path then
    { printed := initReport session.coloured (.error (Settings.fileName ++ " already exists"))
      exitCode := 1
      tree := session.tree
      input := session.input }
  else
    match session.tree.writeText path Settings.default.toText with
    | .error error =>
        .failed (.toOut "") (.unwrittenSettings path error) session.tree session.input
    | .ok tree =>
        { printed := initReport session.coloured (.ok path)
          exitCode := 0
          tree := tree
          input := session.input }

/-- The text that is printed if no command is named. -/
def helpText : String :=
  "Find and remove unused translation keys from a JSON locale file\n\n" ++
  "Usage: i18n-sweep [COMMAND]\n\n" ++
  "Commands:\n" ++
  "  check  Report translation keys that are never used in source code\n" ++
  "  clean  Remove unused translation keys from the JSON file\n" ++
  "  init   Initialize a new .i18nsweeprc.json configuration file\n" ++
  "  help   Print this message or the help of the given subcommand(s)\n\n" ++
  "Options:\n" ++
  "  -h, --help     Print help\n" ++
  "  -V, --version  Print version\n"

/-- What is printed before standard input is needed, if a question will be put. -/
def openingText? (arguments : List String) (session : Session) : Option (Printed × Nat) :=
  match readCommand arguments with
  | .ok (some (.clean common options)) =>
      match prepare common session.tree with
      | .ok ⟨_, _, analysis, printed⟩ =>
          let unused := analysis.unusedKeys
          if unused.isEmpty || options.dryRun || options.yes then none
          else
            some (printed ++ .toOut (Prompt.listing unused ++ Prompt.question unused.length),
              unused.length)
      | .error _ => none
  | _ => none

/-- Runs the command that arguments name. -/
def run (arguments : List String) (session : Session) : Except Refusal Finished := do
  match ← readCommand arguments with
  | none => return ⟨.toOut helpText, 0, session.tree, session.input⟩
  | some (.check common) => return runCheck common session
  | some (.clean common options) => return runClean common options session
  | some .init => return runInit session

end LocaleTidy.CommandLine
