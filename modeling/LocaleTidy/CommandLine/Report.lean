import LocaleTidy.Clean.Apply
import LocaleTidy.CommandLine.Style

/-!
# Reports

What the commands print about their results: findings on standard output, warnings and
failures on standard error.
-/

namespace LocaleTidy.CommandLine

structure Printed where
  out : String
  err : String
  deriving DecidableEq, Repr

namespace Printed

def toOut (text : String) : Printed := ⟨text, ""⟩

def toErr (text : String) : Printed := ⟨"", text⟩

/-- What is printed first, followed by what is printed then. -/
instance : Append Printed where
  append first second := ⟨first.out ++ second.out, first.err ++ second.err⟩

end Printed

def successMark : String := "\u2713"

def failureMark : String := "\u2718"

/-! ## Findings -/

/-- The line for a used key, which names the evidence. -/
def evidenceLine (coloured : Bool) (verdict : Verdict) : String :=
  match verdict.evidence with
  | none => ""
  | some evidence =>
      "  " ++ Style.faint.paint coloured "used:" ++ " " ++ verdict.key ++ " " ++
        Style.paint coloured { Style.of .cyan with dimmed := true }
          ("(" ++ evidence.strategy.describe ++ ")") ++
        " " ++ Style.faint.paint coloured evidence.file.text ++ "\n"

/-- The totals, the evidence if it is asked for, and the unused keys. -/
def findings (coloured verbose : Bool) (analysis : Analysis) : String :=
  let total := analysis.verdicts.length
  let unused := analysis.unusedKeys
  let totals :=
    "Checked " ++ Text.counted total "translation key" "translation keys" ++ " against " ++
      Text.counted analysis.sourceFiles "source file" "source files" ++ "\n"
  let evidence :=
    if verbose then String.join (analysis.verdicts.map (evidenceLine coloured)) else ""
  let listing :=
    if unused.isEmpty then
      (Style.of .green).paint coloured successMark ++ " " ++
        (Style.of .green).paint coloured "No unused translation keys found" ++ "\n"
    else
      "\n" ++ (Style.of .red).paint coloured failureMark ++
        " " ++ Text.counted unused.length "unused key" "unused keys" ++ " in " ++
        analysis.messagesPath.text ++ ":\n" ++
        String.join (unused.map fun key => "  " ++ key ++ "\n")
  totals ++ evidence ++ listing

def warnings (coloured verbose : Bool) (problems : List SearchProblem) : String :=
  let mark := (Style.strong .yellow).paint coloured "warning:"
  if problems.isEmpty then ""
  else if verbose then
    String.join (problems.map fun problem => mark ++ " " ++ problem.message ++ "\n")
  else
    mark ++ s!" {problems.length} search problem(s) were treated as no match (use " ++
      (Style.of .cyan).paint coloured "-v" ++ " for details)\n"

def errorMark (coloured : Bool) : String :=
  (Style.strong .red).paint coloured "error:"

/-! ## Commands -/

def checkReport (coloured verbose : Bool) (analysis : Analysis) : Printed where
  out := findings coloured verbose analysis
  err := warnings coloured verbose analysis.allWarnings

/-- What a clean-up did. -/
def outcomeReport (coloured : Bool) (messagesPath : Path) : CleanOutcome → Printed
  | .nothingToClean => .toOut ""
  | .dryRun =>
      .toOut ("\n" ++ (Style.strong .yellow).paint coloured "Dry run:" ++
        " no keys were deleted\n")
  | .declined => .toOut "\nNo changes made\n"
  | .backupFailed error =>
      .toErr (errorMark coloured ++ " " ++ error.message ++ "\n" ++
        "Backup failed, the translation file was not modified (use " ++
        (Style.of .cyan).paint coloured "--no-backup" ++ " to skip the backup)\n")
  | .applied deleted backup =>
      .toOut (
        (match backup with
          | some path => "\nBackup written to " ++ path.text ++ "\n"
          | none => "") ++
        (Style.of .green).paint coloured successMark ++ " " ++
        (Style.strong .green).paint coloured "Deleted" ++
        " " ++ Text.counted deleted.length "key" "keys" ++ " from " ++
        messagesPath.text ++ "\n")

def cleanReport (coloured verbose : Bool) (analysis : Analysis) (outcome : CleanOutcome) :
    Printed :=
  .toOut (findings coloured verbose analysis) ++
    outcomeReport coloured analysis.messagesPath outcome ++
    .toErr (warnings coloured verbose analysis.allWarnings)

/-- The report of `init`: the path of the file, or the reason why there is no new one. -/
def initReport (coloured : Bool) : Except String Path → Printed
  | .ok path =>
      .toOut ((Style.of .green).paint coloured successMark ++ " " ++
        (Style.of .green).paint coloured ("Created " ++ path.text) ++ "\n")
  | .error reason => .toErr (errorMark coloured ++ " " ++ reason ++ "\n")

end LocaleTidy.CommandLine
