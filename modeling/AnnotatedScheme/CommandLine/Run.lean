import AnnotatedScheme.CommandLine.Arguments
import AnnotatedScheme.CommandLine.Path
import AnnotatedScheme.Text.LineEnd
import AnnotatedScheme.Text.Shown
import AnnotatedScheme.Text.Utf8
import AnnotatedScheme.Typing.Verdict

/-!
# A run of the command line

`CommandLine.run` checks the source that the arguments name and says what goes to the two output
streams, and with which code the program exits. It is a function of the arguments and of what is
found at each path. Where a check ends without a verdict, so does the run: it is not done.
-/

namespace AnnotatedScheme.CommandLine

structure Report where
  code : Nat
  out : String
  err : String
  deriving DecidableEq

inductive Outcome
  /-- the arguments ask for help or are wrong -/
  | refused (code : Nat)
  | done (report : Report)
  /-- the run breaks off, behind what is in the log -/
  | uncaught (log : String) (error : Uncaught)
  deriving DecidableEq

/-! ## the log -/

def logLine (logger message : String) : String := "DEBUG " ++ logger ++ ": " ++ message ++ "\n"

def logRead (path : Path) (source : String) : String :=
  logLine "l5check" ("Read " ++ toString source.length ++ " characters from " ++ path.text)

def logTyping (kind : Exp.Kind) (source : String) : String :=
  let what := match kind with
    | .form => "expression"
    | .program => "program"
  logLine "l5check.typecheck" ("Typing " ++ what ++ " " ++ source)

def logFailure (message : String) : String :=
  logLine "l5check.typecheck" ("Type check failed: " ++ message)

/-! ## the source -/

def errorLine (message : String) : String := "Error: " ++ message ++ "\n"

/-- the text of a file, or what keeps it from being read -/
def sourceAt (path : Path) : Entry → Except String String
  | .missing => .error ("File not found: " ++ path.text)
  | .directory =>
    .error ("Cannot read " ++ path.text ++ ": [Errno 21] Is a directory: " ++ Shown.text path.text)
  | .file bytes =>
    match Utf8.decode bytes with
    | .ok text => .ok (String.ofList (LineEnd.unify text))
    | .error fault => .error ("Cannot read " ++ path.text ++ ": " ++ fault.message)

/-! ## the check -/

def failed (log message : String) : Report := ⟨1, "", log ++ errorLine message⟩

/-- the report on a source text, behind the lines that are in the log already -/
def check (kind : Exp.Kind) (verbose : Bool) (log source : String) : Outcome :=
  let log := if verbose then log ++ logTyping kind source else ""
  match Verdict.ofText kind source with
  | .error e => .uncaught log e
  | .ok verdict =>
    if verdict.success then .done ⟨0, Verdict.shown verdict.type? ++ "\n", log⟩
    else
      let message := Verdict.shown verdict.message?
      .done (failed (if verbose then log ++ logFailure message else "") message)

def kindOf (settings : Settings) : Exp.Kind := if settings.program then .program else .form

def checkFile (settings : Settings) (path : Path) (entry : Entry) : Outcome :=
  match sourceAt path entry with
  | .ok source => check (kindOf settings) settings.verbose (logRead path source) source
  | .error message => .done (failed "" message)

def run (find : Path → Entry) (arguments : List String) : Outcome :=
  match Settings.read arguments with
  | .error .help => .refused 0
  | .error .usage => .refused 2
  | .ok settings =>
    match settings.file, settings.source with
    | some name, _ => checkFile settings (Path.ofText name) (find (Path.ofText name))
    | none, some source => check (kindOf settings) settings.verbose "" source
    | none, none => .refused 2

end AnnotatedScheme.CommandLine
