import LocaleTidy.Proofs.CommandLine.Override

/-!
# A dry clean-up beside a check

Arguments of `check` are arguments of `clean` as well. With them a dry clean-up tells the same
story as the check: it fails with the same error, or else prints the same and says that nothing was
deleted.
-/

namespace LocaleTidy

def CleanOptions.toArguments (options : CleanOptions) : List String :=
  (if options.yes then ["--yes"] else []) ++
    (if options.noBackup then ["--no-backup"] else []) ++
    if options.dryRun then ["--dry-run"] else []

namespace CommandLine

/-! ## Arguments for both commands -/

namespace Progress

variable {read next : Progress} {extra : List Flag}

def after (read : Progress) (extra : List Flag) : Progress :=
  { read with flags := read.flags ++ extra }

/-! ### The names that `check` knows -/

def checkFlags : List Flag := [.help, .verbose]

theorem lookup_letters {letter : Char} {flag : Flag}
    (h : CommandName.check.letters.lookup letter = some flag) :
    CommandName.clean.letters.lookup letter = some flag ∧ flag ∈ checkFlags := by
  have hletters : CommandName.clean.letters = CommandName.check.letters ++ [('y', .yes)] := rfl
  refine ⟨by rw [hletters, List.lookup_append, h, Option.some_or], ?_⟩
  obtain ⟨before, behind, heq, -⟩ := List.lookup_eq_some_iff.mp h
  have hmem : (letter, flag) ∈ CommandName.check.letters := by simp [heq]
  have hall : ∀ known ∈ CommandName.check.letters, known.2 ∈ checkFlags := by decide
  exact hall _ hmem

theorem lookup_longNames {name : String} {long : LongName}
    (h : CommandName.check.longNames.lookup name = some long) :
    CommandName.clean.longNames.lookup name = some long := by
  change (CommandName.check.longNames ++ _).lookup name = _
  rw [List.lookup_append, h, Option.some_or]

theorem flag_of_lookup_longNames {name : String} {flag : Flag}
    (h : CommandName.check.longNames.lookup name = some (.flag flag)) : flag ∈ checkFlags := by
  obtain ⟨before, behind, heq, -⟩ := List.lookup_eq_some_iff.mp h
  have hmem : (name, LongName.flag flag) ∈ CommandName.check.longNames := by simp [heq]
  simp only [CommandName.longNames, CommandName.commonLongNames, List.mem_cons, Prod.mk.injEq,
    LongName.flag.injEq, reduceCtorEq, and_false, List.not_mem_nil, or_false] at hmem
  rcases hmem with ⟨-, rfl⟩ | ⟨-, rfl⟩ <;> decide

/-! ### One argument after the other -/

theorem setOption_after (read : Progress) (extra : List Flag) (option : ValueOption)
    (value : String) :
    (read.after extra).setOption option value =
      (read.setOption option value).map (·.after extra) := by
  cases option with
  | messagesFile =>
      unfold setOption after
      dsimp only
      split
      · rfl
      · split <;> rfl
  | sourceRoot =>
      unfold setOption after
      dsimp only
      split <;> rfl

theorem flags_setOption {option : ValueOption} {value : String}
    (h : read.setOption option value = .ok next) : next.flags = read.flags := by
  cases option with
  | messagesFile =>
      rw [setOption] at h
      split at h
      · cases h
      · split at h <;> cases h
        rfl
  | sourceRoot =>
      rw [setOption] at h
      split at h <;> cases h
      rfl

theorem setFlag_eq_ok {flag : Flag} : read.setFlag flag = .ok next ↔
    ∃ settled, read.settle = .ok settled ∧ flag ≠ .help ∧ flag ∉ settled.flags ∧
      { settled with flags := flag :: settled.flags } = next := by
  rw [setFlag, bind_eq_ok]
  refine exists_congr fun settled => and_congr_right fun _ => ?_
  by_cases hhelp : flag = .help
  · simp [hhelp, bind, Except.bind, throw, throwThe, MonadExceptOf.throw]
  · by_cases hmem : flag ∈ settled.flags
    · simp [hhelp, hmem, bind, Except.bind, throw, throwThe, MonadExceptOf.throw]
    · simp [hhelp, hmem, pure, Except.pure]

variable (hextra : ∀ flag ∈ checkFlags, flag ∉ extra) (hflags : read.flags ⊆ checkFlags)

include hflags

theorem settle_after (extra : List Flag) (h : read.settle = .ok next) :
    (read.after extra).settle = .ok (next.after extra) ∧ next.flags ⊆ checkFlags := by
  obtain ⟨file, roots, flags, pending⟩ := read
  rcases pending with _ | ⟨option, _ | value⟩
  · cases h
    exact ⟨rfl, hflags⟩
  · cases h
  · replace h : Progress.setOption ⟨file, roots, flags, none⟩ option value = .ok next := h
    refine ⟨?_, flags_setOption h ▸ hflags⟩
    have hset := setOption_after ⟨file, roots, flags, none⟩ extra option value
    rwa [h] at hset

theorem readPlain_after {text : String} (h : read.readPlain text = .ok next) :
    (read.after extra).readPlain text = .ok (next.after extra) ∧ next.flags ⊆ checkFlags := by
  obtain ⟨file, roots, flags, pending⟩ := read
  rcases pending with _ | ⟨option, _ | value⟩
  · cases h
  · cases h
    exact ⟨rfl, hflags⟩
  · cases h

include hextra

theorem setFlag_after {flag : Flag} (hflag : flag ∈ checkFlags)
    (h : read.setFlag flag = .ok next) :
    (read.after extra).setFlag flag = .ok (next.after extra) ∧ next.flags ⊆ checkFlags := by
  obtain ⟨settled, hsettled, hhelp, hmem, rfl⟩ := setFlag_eq_ok.mp h
  obtain ⟨hafter, hkept⟩ := settle_after hflags extra hsettled
  refine ⟨setFlag_eq_ok.mpr ⟨_, hafter, hhelp, ?_, rfl⟩, ?_⟩
  · simp [after, hmem, hextra flag hflag]
  · exact List.cons_subset.mpr ⟨hflag, hkept⟩

theorem readLetters_after {letters : List Char} (h : read.readLetters .check letters = .ok next) :
    (read.after extra).readLetters .clean letters = .ok (next.after extra) ∧
      next.flags ⊆ checkFlags := by
  induction letters generalizing read with
  | nil =>
      cases h
      exact ⟨rfl, hflags⟩
  | cons letter rest ih =>
      cases hlookup : CommandName.check.letters.lookup letter with
      | none =>
          rw [readLetters, hlookup] at h
          cases h
      | some flag =>
          obtain ⟨hclean, hflag⟩ := lookup_letters hlookup
          simp only [readLetters, hlookup, hclean, bind_eq_ok] at h ⊢
          obtain ⟨set, hset, h⟩ := h
          obtain ⟨hafter, hkept⟩ := setFlag_after hextra hflags hflag hset
          obtain ⟨hrest, hall⟩ := ih hkept h
          exact ⟨⟨_, hafter, hrest⟩, hall⟩

theorem readLong_after {text : List Char} (h : read.readLong .check text = .ok next) :
    (read.after extra).readLong .clean text = .ok (next.after extra) ∧
      next.flags ⊆ checkFlags := by
  unfold readLong at h ⊢
  generalize splitLong text = parts at h ⊢
  obtain ⟨name, value⟩ := parts
  dsimp only at h ⊢
  cases hlookup : CommandName.check.longNames.lookup name with
  | none =>
      rw [hlookup] at h
      cases h
  | some long =>
      rw [hlookup] at h
      rw [lookup_longNames hlookup]
      rcases long with flag | option <;> rcases value with _ | value
      · exact setFlag_after hextra hflags (flag_of_lookup_longNames hlookup) h
      · cases h
      · simp only [bind_eq_ok, pure_eq_ok] at h ⊢
        obtain ⟨settled, hsettled, rfl⟩ := h
        obtain ⟨hafter, hkept⟩ := settle_after hflags extra hsettled
        exact ⟨⟨_, hafter, rfl⟩, hkept⟩
      · simp only [bind_eq_ok] at h ⊢
        obtain ⟨settled, hsettled, h⟩ := h
        obtain ⟨hafter, hkept⟩ := settle_after hflags extra hsettled
        refine ⟨⟨_, hafter, ?_⟩, flags_setOption h ▸ hkept⟩
        rw [setOption_after, h]
        rfl

theorem readArgument_after {argument : String}
    (h : read.readArgument .check argument = .ok next) :
    (read.after extra).readArgument .clean argument = .ok (next.after extra) ∧
      next.flags ⊆ checkFlags := by
  unfold readArgument at h ⊢
  split at h
  · exact readLong_after hextra hflags h
  · exact readLetters_after hextra hflags h
  · exact readPlain_after hflags h

/-- What `check` reads, `clean` reads as well after other flags. -/
theorem readAll_after {arguments : List String} (h : read.readAll .check arguments = .ok next) :
    (read.after extra).readAll .clean arguments = .ok (next.after extra) ∧
      next.flags ⊆ checkFlags := by
  induction arguments generalizing read with
  | nil => exact settle_after hflags extra h
  | cons argument rest ih =>
      rw [readAll] at h ⊢
      by_cases hend : argument = "--"
      · rw [if_pos hend] at h ⊢
        cases rest with
        | nil => exact settle_after hflags extra h
        | cons _ _ => cases h
      · rw [if_neg hend, bind_eq_ok] at h ⊢
        obtain ⟨more, hmore, h⟩ := h
        obtain ⟨hafter, hkept⟩ := readArgument_after hextra hflags hmore
        obtain ⟨hrest, hall⟩ := ih hkept h
        exact ⟨⟨_, hafter, hrest⟩, hall⟩

end Progress

variable {arguments : List String} {common : CommonArguments}

theorem readCommand_check : readCommand ("check" :: arguments) = .ok (some (.check common)) ↔
    ∃ next, Progress.start.readAll .check arguments = .ok next ∧
      Progress.command.common next = common := by
  change (Progress.start.readAll .check arguments >>=
    fun read => pure (some (read.command .check))) = _ ↔ _
  rw [bind_eq_ok]
  simp only [pure_eq_ok, Progress.command, Option.some.injEq, Command.check.injEq]

theorem readCommand_clean {options : CleanOptions} :
    readCommand ("clean" :: arguments) = .ok (some (.clean common options)) ↔
      ∃ next, Progress.start.readAll .clean arguments = .ok next ∧
        next.command .clean = .clean common options := by
  change (Progress.start.readAll .clean arguments >>=
    fun read => pure (some (read.command .clean))) = _ ↔ _
  rw [bind_eq_ok]
  simp only [pure_eq_ok, Option.some.injEq]

/-- The flags that options stand for, the last one first. -/
def setFlags (options : CleanOptions) : List Flag :=
  (if options.dryRun then [.dryRun] else []) ++ (if options.noBackup then [.noBackup] else []) ++
    if options.yes then [.yes] else []

theorem readAll_toArguments (options : CleanOptions) :
    Progress.start.readAll .clean (options.toArguments ++ arguments) =
      (Progress.start.after (setFlags options)).readAll .clean arguments := by
  obtain ⟨yes, noBackup, dryRun⟩ := options
  cases yes <;> cases noBackup <;> cases dryRun <;> rfl

theorem not_mem_setFlags (options : CleanOptions) :
    ∀ flag ∈ Progress.checkFlags, flag ∉ setFlags options := by
  obtain ⟨yes, noBackup, dryRun⟩ := options
  revert yes noBackup dryRun
  decide

theorem command_after {next : Progress} (h : next.flags ⊆ Progress.checkFlags)
    (options : CleanOptions) :
    (next.after (setFlags options)).command .clean =
      .clean (Progress.command.common next) options := by
  have hother (flag : Flag) (hflag : flag ∉ Progress.checkFlags) : flag ∉ next.flags :=
    fun hmem => hflag (h hmem)
  have hyes := hother .yes (by decide)
  have hbackup := hother .noBackup (by decide)
  have hdry := hother .dryRun (by decide)
  obtain ⟨yes, noBackup, dryRun⟩ := options
  cases yes <;> cases noBackup <;> cases dryRun <;>
    simp [Progress.command, Progress.command.common, Progress.after, setFlags, hyes, hbackup, hdry]

/-- Arguments of `check` do for `clean`, after the flags that only `clean` has. -/
theorem readCommand_clean_of_check (options : CleanOptions)
    (h : readCommand ("check" :: arguments) = .ok (some (.check common))) :
    readCommand ("clean" :: (options.toArguments ++ arguments)) =
      .ok (some (.clean common options)) := by
  obtain ⟨next, hnext, rfl⟩ := readCommand_check.mp h
  rw [readCommand_clean, readAll_toArguments]
  obtain ⟨hafter, hflags⟩ :=
    Progress.readAll_after (not_mem_setFlags options) (List.nil_subset _) hnext
  exact ⟨_, hafter, command_after hflags options⟩

/-! ## The same story -/

variable {options : CleanOptions} {session : Session} {first second : List String}

/-- What a dry clean-up prints if some key is unused. -/
def dryRunNotice (coloured : Bool) : String :=
  "\n" ++ (Style.strong .yellow).paint coloured "Dry run:" ++ " no keys were deleted\n"

theorem Printed.append_def (first second : Printed) :
    first ++ second = ⟨first.out ++ second.out, first.err ++ second.err⟩ :=
  rfl

/-- How the runs of `check` and of a dry `clean` in the same session go together. -/
inductive SameStory (common : CommonArguments) (session : Session) : Finished → Finished → Prop
  /-- Both end with the same error. -/
  | failed (error : ProjectError) (printed : Printed)
      (h : prepare common session.tree = .error (error, printed)) :
      SameStory common session (.failed printed error session.tree session.input)
        (.failed printed error session.tree session.input)
  /-- Both report the same, and only the exit code of `check` tells whether a key is unused. -/
  | reported (prepared : Prepared) (report : Printed)
      (h : prepare common session.tree = .ok prepared) :
      SameStory common session
        ⟨report, if prepared.analysis.unusedKeys = [] then 0 else 1, session.tree,
          session.input⟩
        ⟨⟨report.out ++
            (if prepared.analysis.unusedKeys = [] then "" else dryRunNotice session.coloured),
          report.err⟩, 0, session.tree, session.input⟩

def dryOutcome (analysis : Analysis) : CleanOutcome :=
  if analysis.unusedKeys = [] then .nothingToClean else .dryRun

theorem clean_of_dryRun {σ : Type} {analysis : Analysis} {settings : Settings} {root : Path}
    (hdry : options.dryRun = true) (confirm : Confirm σ) (tree : FileTree) (state : σ) :
    analysis.clean settings root options confirm tree state =
      ⟨.ok (dryOutcome analysis), tree, state⟩ := by
  by_cases hunused : analysis.unusedKeys = []
  · simp [Analysis.clean, dryOutcome, hunused]
  · simp [Analysis.clean, dryOutcome, hunused, hdry]

theorem cleanReport_dryOutcome (coloured verbose : Bool) (analysis : Analysis) :
    cleanReport coloured verbose analysis (dryOutcome analysis) =
      ⟨(checkReport coloured verbose analysis).out ++
          (if analysis.unusedKeys = [] then "" else dryRunNotice coloured),
        (checkReport coloured verbose analysis).err⟩ := by
  rw [dryOutcome]
  split
  · simp [cleanReport, checkReport, outcomeReport, Printed.append_def, Printed.toOut, Printed.toErr]
  · simp [cleanReport, checkReport, outcomeReport, dryRunNotice, Printed.append_def, Printed.toOut,
      Printed.toErr]

/-- A check and a dry clean-up of the same project tell the same story. -/
theorem sameStory_runs (hdry : options.dryRun = true) :
    SameStory common session (runCheck common session) (runClean common options session) := by
  rw [runCheck, runClean]
  cases hprepare : prepare common session.tree with
  | error failure => exact .failed failure.1 failure.2 hprepare
  | ok prepared =>
      have hsame := SameStory.reported prepared
        (prepared.printed ++ checkReport session.coloured common.verbose prepared.analysis) hprepare
      dsimp only
      rw [clean_of_dryRun hdry]
      dsimp only
      rw [cleanReport_dryOutcome]
      have hcode : outcomeCode (dryOutcome prepared.analysis) = 0 := by
        rw [dryOutcome]
        split <;> rfl
      simp only [hcode, List.isEmpty_iff, Printed.append_def, Printed.toOut, String.append_empty,
        String.append_assoc] at hsame ⊢
      exact hsame

theorem runClean_input (hdry : options.dryRun = true) (text : List Char) :
    runClean common options { session with input := text } =
      { runClean common options session with input := text } := by
  rw [runClean, runClean]
  dsimp only
  cases prepare common session.tree with
  | error failure => rfl
  | ok prepared =>
      dsimp only
      rw [clean_of_dryRun hdry, clean_of_dryRun hdry]

/-- Arguments of `check`, and arguments of a dry `clean` with the same common ones: the runs tell
the same story, and the second one never looks at standard input. -/
theorem dryRun_tells_check (session : Session)
    (hcheck : readCommand first = .ok (some (.check common)))
    (hclean : readCommand second = .ok (some (.clean common options)))
    (hdry : options.dryRun = true) :
    ∃ checked dry, run first session = .ok checked ∧ run second session = .ok dry ∧
      SameStory common session checked dry ∧
      ∀ text, run second { session with input := text } = .ok { dry with input := text } := by
  refine ⟨runCheck common session, runClean common options session, ?_, ?_,
    sameStory_runs hdry, fun text => ?_⟩
  · rw [run, hcheck]
    rfl
  · rw [run, hclean]
    rfl
  · rw [run, hclean]
    exact congrArg Except.ok (runClean_input hdry text)

/-- In a project with an unused key the check finds it and the dry clean-up leaves it. -/
theorem dryRun_tells_check_namesake :
    (runCheck ⟨some "locales/zh.json", ["app"], true⟩
        ⟨namesake silentText, "y\n".toList, false⟩).exitCode = 1 ∧
      ∃ checked dry,
        run ("check" :: ["--messages-file=locales/zh.json", "-v", "--source-root", "app"])
            ⟨namesake silentText, "y\n".toList, false⟩ = .ok checked ∧
          run ("clean" :: (CleanOptions.toArguments ⟨true, false, true⟩ ++
              ["--messages-file=locales/zh.json", "-v", "--source-root", "app"]))
            ⟨namesake silentText, "y\n".toList, false⟩ = .ok dry ∧
          SameStory ⟨some "locales/zh.json", ["app"], true⟩
            ⟨namesake silentText, "y\n".toList, false⟩ checked dry := by
  have hcheck : readCommand
      ("check" :: ["--messages-file=locales/zh.json", "-v", "--source-root", "app"]) =
      .ok (some (.check ⟨some "locales/zh.json", ["app"], true⟩)) := rfl
  obtain ⟨checked, dry, hchecked, hrun, hsame, -⟩ :=
    dryRun_tells_check ⟨namesake silentText, "y\n".toList, false⟩ hcheck
      (readCommand_clean_of_check ⟨true, false, true⟩ hcheck) rfl
  exact ⟨by decide +kernel, checked, dry, hchecked, hrun, hsame⟩

end CommandLine

end LocaleTidy
