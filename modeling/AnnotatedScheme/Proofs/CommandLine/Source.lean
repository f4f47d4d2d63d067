import AnnotatedScheme.CommandLine.Run
import AnnotatedScheme.Proofs.Text.Utf8
import AnnotatedScheme.Proofs.Typing.Total

/-!
# A source text and a file that holds it

A file in UTF-8 has the text as its source, as long as there are no carriage returns in it
(`CommandLine.sourceAt_toUTF8`). What the program does with a source depends on the outcome of the
check and on the log (`CommandLine.check_quiet`); only the log would tell a file from a text. So
without the log the two end alike, and with a report unless the scanner comes to a numeral that is
not converted (`CommandLine.run_file_eq_run_source`).
-/

namespace AnnotatedScheme.CommandLine

variable {s : String}

/-! ## the check of a source -/

/-- what a verdict makes the program do, apart from the log -/
def reportOf (verdict : Verdict) : Report :=
  if verdict.success then ⟨0, Verdict.shown verdict.type? ++ "\n", ""⟩
  else ⟨1, "", "Error: " ++ Verdict.shown verdict.message? ++ "\n"⟩

def outcomeOf : Except Uncaught Verdict → Outcome
  | .ok verdict => .done (reportOf verdict)
  | .error e => .uncaught "" e

theorem check_quiet (kind : Exp.Kind) (log s : String) :
    check kind false log s = outcomeOf (Verdict.ofText kind s) := by
  unfold check
  cases Verdict.ofText kind s with
  | error e => rfl
  | ok verdict =>
    show (if verdict.success then _ else _) = Outcome.done (reportOf verdict)
    unfold reportOf
    split
    · rfl
    · exact congrArg (Outcome.done ∘ Report.mk 1 "") String.empty_append

/-! ## the two ways in -/

theorem sourceAt_toUTF8 (h : '\r' ∉ s.toList) (path : Path) :
    sourceAt path (.file s.toUTF8.data.toList) = .ok s := by
  rw [sourceAt, Utf8.decode_toUTF8]
  show Except.ok (String.ofList (LineEnd.unify s.toList)) = _
  rw [LineEnd.unify_of_not_mem h, String.ofList_toList]

variable {find : Path → Entry} {arguments : List String} {settings : Settings}

theorem run_of_file {name : String} (h : Settings.read arguments = .ok settings)
    (hfile : settings.file = some name) :
    run find arguments = checkFile settings (Path.ofText name) (find (Path.ofText name)) := by
  rw [run, h]
  dsimp only
  rw [hfile]

theorem run_of_source (h : Settings.read arguments = .ok settings) (hfile : settings.file = none)
    (hsource : settings.source = some s) :
    run find arguments = check (kindOf settings) settings.verbose "" s := by
  rw [run, h]
  dsimp only
  rw [hfile, hsource]

/-- an argument that does not begin with a dash is the source -/
theorem read_source (h : s.toList.head? ≠ some '-') :
    Settings.read [s] = .ok ⟨false, false, some s, none⟩ := by
  have hdashes : s ≠ "--" := by
    rintro rfl
    exact h (by decide)
  have htext : Argument.ofText s = .text s := by
    unfold Argument.ofText
    split
    · rename_i heq
      exact absurd (heq ▸ rfl) h
    · rename_i heq
      exact absurd (heq ▸ rfl) h
    · rename_i heq
      exact absurd (heq ▸ rfl) h
    · rfl
  have hbefore : ([s].takeWhile (· ≠ "--")).map Argument.ofText = [.text s] := by
    simp [hdashes, htext]
  have htexts : [s].contains "--" = false := by simpa using Ne.symm hdashes
  unfold Settings.read
  rw [hbefore, htexts]
  rfl

theorem run_file_eq_run_source {fileArguments sourceArguments : List String} {program : Bool}
    {name : String} (hfile : Settings.read fileArguments = .ok ⟨program, false, none, some name⟩)
    (hsource : Settings.read sourceArguments = .ok ⟨program, false, some s, none⟩)
    (hentry : find (Path.ofText name) = .file s.toUTF8.data.toList) (hreturn : '\r' ∉ s.toList) :
    let kind := if program then Exp.Kind.program else .form
    run find fileArguments = run find sourceArguments ∧
      (∀ report, run find sourceArguments = .done report →
        (report.code = 0 ↔ ∃ type, Verdict.ofText kind s = .ok (.ok type)) ∧
        (∀ type, Verdict.ofText kind s = .ok (.ok type) → report = ⟨0, type ++ "\n", ""⟩) ∧
        ((¬∃ type, Verdict.ofText kind s = .ok (.ok type)) →
          ∃ message, Verdict.ofText kind s = .ok (.failure message) ∧
            report = ⟨1, "", "Error: " ++ message ++ "\n"⟩)) ∧
      ((∃ report, run find sourceArguments = .done report) ↔
        ¬∃ numeral, Token.scan s = .error (.overlong numeral)) ∧
      ∀ numeral, Token.scan s = .error (.overlong numeral) →
        run find sourceArguments = .uncaught "" (.overlong numeral) := by
  intro kind
  have hrun : run find sourceArguments = outcomeOf (Verdict.ofText kind s) := by
    rw [run_of_source hsource rfl rfl]
    exact check_quiet kind "" s
  have hfileRun : run find fileArguments = outcomeOf (Verdict.ofText kind s) := by
    rw [run_of_file hfile rfl, hentry, checkFile, sourceAt_toUTF8 hreturn]
    exact check_quiet kind _ s
  have huncaught : ∀ numeral, Token.scan s = .error (.overlong numeral) →
      run find sourceArguments = .uncaught "" (.overlong numeral) := by
    intro numeral overlong
    rw [hrun, verdict_ofText_of_overlong overlong]
    rfl
  have hdone : ∀ report, run find sourceArguments = .done report →
      ¬∃ numeral, Token.scan s = .error (.overlong numeral) := by
    rintro report hreport ⟨numeral, overlong⟩
    cases hreport.symm.trans (huncaught numeral overlong)
  refine ⟨hfileRun.trans hrun.symm, fun report hreport => ?_, ?_, huncaught⟩
  · rw [hrun] at hreport
    rcases verdict_ofText_cases kind s with
      ⟨t, -, verdict⟩ | ⟨failure, message, -, -, verdict⟩ | overlong
    · rw [verdict] at hreport ⊢
      obtain rfl := Outcome.done.inj hreport
      simp [reportOf, Verdict.ok, Verdict.shown]
    · rw [verdict] at hreport ⊢
      obtain rfl := Outcome.done.inj hreport
      simp [reportOf, Verdict.ok, Verdict.failure, Verdict.shown]
    · exact absurd overlong (hdone report (hrun.trans hreport))
  · constructor
    · rintro ⟨report, hreport⟩
      exact hdone report hreport
    · intro converted
      rcases verdict_ofText_cases kind s with
        ⟨t, -, verdict⟩ | ⟨failure, message, -, -, verdict⟩ | overlong
      · exact ⟨_, hrun.trans (congrArg outcomeOf verdict)⟩
      · exact ⟨_, hrun.trans (congrArg outcomeOf verdict)⟩
      · exact absurd overlong converted

/-- a program with characters of one to four bytes, and a byte order mark inside of a string -/
def wideProgram : String :=
  "(L5 (define (s : string) \"é€\")\n    (if #t s \"\ufeff😀\"))\n"

/-- a directory with a source in it -/
def onlyFile (source : String) (path : Path) : Entry :=
  if path = Path.ofText "only.l5" then .file source.toUTF8.data.toList else .missing

/-- a program with a type, and zeros that end the run without a report -/
theorem run_wideProgram_and_zeros :
    run (onlyFile wideProgram) ["-p", "-f", "only.l5"] = .done ⟨0, "string\n", ""⟩ ∧
      run (onlyFile wideProgram) [wideProgram, "--program"] = .done ⟨0, "string\n", ""⟩ ∧
      run (onlyFile (Datum.zeros 4301)) ["-f", "only.l5"] = .uncaught "" (.overlong ⟨4301⟩) ∧
      run (onlyFile (Datum.zeros 4301)) [Datum.zeros 4301] = .uncaught "" (.overlong ⟨4301⟩) := by
  have hentry : ∀ source, onlyFile source (Path.ofText "only.l5") =
      .file source.toUTF8.data.toList := fun _ => if_pos rfl
  obtain ⟨hwide, hwideSource⟩ :
      run (onlyFile wideProgram) ["-p", "-f", "only.l5"] = .done ⟨0, "string\n", ""⟩ ∧
        run (onlyFile wideProgram) [wideProgram, "--program"] = .done ⟨0, "string\n", ""⟩ := by
    have hfile : Settings.read ["-p", "-f", "only.l5"] = .ok ⟨true, false, none, some "only.l5"⟩ :=
      Except.toOption_eq_some_iff.mp (by decide +kernel)
    have hsource : Settings.read [wideProgram, "--program"] =
        .ok ⟨true, false, some wideProgram, none⟩ :=
      Except.toOption_eq_some_iff.mp (by decide +kernel)
    have hreturn : '\r' ∉ wideProgram.toList := by decide +kernel
    have haccepted : Verdict.ofText .program wideProgram = .ok (.ok "string") :=
      Except.toOption_eq_some_iff.mp (by decide +kernel)
    obtain ⟨alike, reported, done, -⟩ :=
      run_file_eq_run_source hfile hsource (hentry wideProgram) hreturn
    obtain ⟨report, hreport⟩ := done.mpr fun ⟨numeral, overlong⟩ => by
      cases haccepted.symm.trans (verdict_ofText_of_overlong overlong .program)
    obtain rfl := (reported report hreport).2.1 "string" haccepted
    exact ⟨alike.trans hreport, hreport⟩
  obtain ⟨hzeros, hzerosSource⟩ :
      run (onlyFile (Datum.zeros 4301)) ["-f", "only.l5"] = .uncaught "" (.overlong ⟨4301⟩) ∧
        run (onlyFile (Datum.zeros 4301)) [Datum.zeros 4301] =
          .uncaught "" (.overlong ⟨4301⟩) := by
    have hfile : Settings.read ["-f", "only.l5"] = .ok ⟨false, false, none, some "only.l5"⟩ :=
      Except.toOption_eq_some_iff.mp (by decide +kernel)
    have hchars : (Datum.zeros 4301).toList = List.replicate 4301 '0' := String.toList_ofList
    have hsource := read_source (s := Datum.zeros 4301) (by rw [hchars]; decide)
    have hreturn : '\r' ∉ (Datum.zeros 4301).toList := by
      rw [hchars]
      exact fun hmem => absurd (List.eq_of_mem_replicate hmem) (by decide)
    obtain ⟨alike, -, -, uncaught⟩ :=
      run_file_eq_run_source hfile hsource (hentry (Datum.zeros 4301)) hreturn
    have overlong : Token.scan (Datum.zeros 4301) = .error (.overlong ⟨4301⟩) :=
      Datum.scanFrom_zeros (by decide) 0
    exact ⟨alike.trans (uncaught _ overlong), uncaught _ overlong⟩
  exact ⟨hwide, hwideSource, hzeros, hzerosSource⟩

end AnnotatedScheme.CommandLine
