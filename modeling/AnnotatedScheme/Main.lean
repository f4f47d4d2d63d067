import AnnotatedScheme.CommandLine.Run

/-!
# The program

Finds the source file, runs the check, writes to the standard streams and exits.
-/

namespace AnnotatedScheme.CommandLine

/-- what the file system has at a path; one that leads through a file cannot be opened -/
def findEntry (path : Path) : IO Entry := do
  try
    return .file (← IO.FS.readBinFile path.text).data.toList
  catch
    | .noFileOrDirectory .. => return .missing
    | .inappropriateType (some _) .. => return .missing
    | _ => return .directory

def usageText : String := "usage: l5check [-h] [-f FILE] [-p] [-v] [source]"

def writeOutcome : Outcome → IO UInt32
  | .refused code => do
    if code = 0 then IO.println usageText else IO.eprintln usageText
    return code.toUInt32
  | .done report => do
    IO.eprint report.err
    IO.print report.out
    return report.code.toUInt32
  | .uncaught log error => do
    IO.eprint log
    IO.eprintln error.message
    return 1

def runProgram (arguments : List String) : IO UInt32 := do
  match (Settings.read arguments).toOption.bind Settings.file with
  | none => writeOutcome (run (fun _ => .missing) arguments)
  | some name =>
    let entry ← findEntry (Path.ofText name)
    writeOutcome (run (fun _ => entry) arguments)

end AnnotatedScheme.CommandLine

def main (arguments : List String) : IO UInt32 :=
  AnnotatedScheme.CommandLine.runProgram arguments
