import AnnotatedScheme.Text.DecimalDigit

/-!
# Arguments

The command line takes one source text, or a file that holds it, and flags:

* `Switch`         a flag, or the option that names the file;
* `Argument`       an argument taken apart: a text of its own, or the switches that it sets;
* `Settings.read`  what a list of arguments asks for, or why it is refused.

Long switches may be cut short as long as they stay distinct; short ones may be joined, also behind
an equals sign. The file may be the next argument, or stand behind its switch. Behind a lone pair of
dashes all arguments are texts.
-/

namespace AnnotatedScheme

inductive Flag
  | help
  | program
  | verbose
  deriving DecidableEq

inductive Switch
  | flag (flag : Flag)
  | file
  deriving DecidableEq

namespace Switch

def short? (c : Char) : Option Switch :=
  if c = 'h' then some (.flag .help)
  else if c = 'p' then some (.flag .program)
  else if c = 'v' then some (.flag .verbose)
  else if c = 'f' then some .file
  else none

def long : List (String × Switch) :=
  [("help", .flag .help), ("program", .flag .program), ("verbose", .flag .verbose), ("file", .file)]

/-- the long switches that begin with a text -/
def matching (text : List Char) : List Switch :=
  (long.filter fun (name, _) => text.isPrefixOf name.toList).map Prod.snd

end Switch

/-- where the name of the file is -/
inductive FileName
  | here (name : String)
  | nextArgument
  deriving DecidableEq

inductive Argument
  | text (content : String)
  | switches (flags : List Flag) (file : Option FileName)
  | unknown
  /-- something behind a switch that takes no value -/
  | superfluousValue
  | ambiguous
  deriving DecidableEq

namespace Argument

/-- whether a text is `-3`, `-.5` or the like, which is no switch; a line end behind them does not
count -/
def isNegativeNumber (text : List Char) : Bool :=
  let text := if text.getLast? = some '\n' then text.dropLast else text
  match text with
  | '-' :: digits =>
    let whole := digits.takeWhile isDecimalDigit
    match digits.dropWhile isDecimalDigit with
    | [] => whole ≠ []
    | '.' :: fraction => fraction ≠ [] && fraction.all isDecimalDigit
    | _ => false
  | _ => false

/-- an argument that begins with a dash and is no switch -/
def other (text : List Char) : Argument :=
  if isNegativeNumber text ∨ text.contains ' ' then .text (String.ofList text) else .unknown

/-- the switches behind one dash, after the given flags; what follows the file switch is its
value -/
def joined (flags : List Flag) : List Char → Argument
  | [] => .switches flags none
  | c :: rest =>
    match Switch.short? c with
    | none => .superfluousValue
    | some (.flag flag) => joined (flags ++ [flag]) rest
    | some .file =>
      .switches flags (some (if rest = [] then .nextArgument else .here (String.ofList rest)))

/-- a short switch with what stands behind it; an equals sign directly behind it adds nothing, but
wants something to follow a flag -/
def ofShort (switch : Switch) (rest : List Char) : Argument :=
  match switch, rest with
  | .flag flag, '=' :: value => if value = [] then .superfluousValue else joined [flag] value
  | .flag flag, rest => joined [flag] rest
  | .file, '=' :: value => .switches [] (some (.here (String.ofList value)))
  | .file, [] => .switches [] (some .nextArgument)
  | .file, rest => .switches [] (some (.here (String.ofList rest)))

/-- a long switch with the value behind an equals sign, if any -/
def ofLong (switch : Switch) (value : Option (List Char)) : Argument :=
  match switch, value with
  | .flag flag, none => .switches [flag] none
  | .flag _, some _ => .superfluousValue
  | .file, none => .switches [] (some .nextArgument)
  | .file, some value => .switches [] (some (.here (String.ofList value)))

def ofText (text : String) : Argument :=
  match text.toList with
  | '-' :: '-' :: rest =>
    let name := rest.takeWhile (· ≠ '=')
    match Switch.matching name with
    | [] => other text.toList
    | [switch] => ofLong switch (List.tail? (rest.dropWhile (· ≠ '=')))
    | _ => .ambiguous
  | ['-'] => .text text
  | '-' :: c :: rest =>
    match Switch.short? c with
    | some switch => ofShort switch rest
    | none => other text.toList
  | _ => .text text

end Argument

inductive Refusal
  | usage
  | help
  deriving DecidableEq

structure Settings where
  program : Bool
  verbose : Bool
  source : Option String
  file : Option String
  deriving DecidableEq

namespace Settings

def initial : Settings := ⟨false, false, none, none⟩

def setFlags (settings : Settings) (flags : List Flag) : Settings :=
  { settings with
    program := settings.program || flags.contains .program
    verbose := settings.verbose || flags.contains .verbose }

/-- source and file exclude each other -/
def setFile (settings : Settings) (name : String) : Except Refusal Settings :=
  if settings.source.isSome then .error .usage else .ok { settings with file := some name }

def setSource (settings : Settings) (text : String) : Except Refusal Settings :=
  if settings.file.isSome then .error .usage else .ok { settings with source := some text }

/-- the arguments behind the pair of dashes, when there are no others left: one source, unless
there is one already; a pair of dashes right behind the source adds nothing -/
def readTexts (settings : Settings) (behindSource : Bool) :
    Option (List String) → Except Refusal Settings
  | none => .ok settings
  | some texts =>
    match settings.source, texts with
    | none, [] => .ok settings
    | none, [text] => settings.setSource text
    | some _, [] => if behindSource then .ok settings else .error .usage
    | _, _ => .error .usage

/-- goes through the arguments before the pair of dashes; `spare` says that one had no place, which
is refused in the end -/
def readFrom (settings : Settings) (spare behindSource : Bool) (texts : Option (List String)) :
    List Argument → Except Refusal Settings
  | [] => if spare then .error .usage else settings.readTexts behindSource texts
  | .text text :: rest =>
    if settings.source.isSome then readFrom settings true false texts rest
    else do readFrom (← settings.setSource text) spare true texts rest
  | .unknown :: rest => readFrom settings true false texts rest
  | .superfluousValue :: _ => .error .usage
  | .ambiguous :: _ => .error .usage
  | .switches flags none :: rest =>
    if flags.contains .help then .error .help
    else readFrom (settings.setFlags flags) spare false texts rest
  | .switches flags (some (.here name)) :: rest =>
    if flags.contains .help then .error .help
    else do readFrom (← (settings.setFlags flags).setFile name) spare false texts rest
  | .switches flags (some .nextArgument) :: .text name :: rest =>
    if flags.contains .help then .error .help
    else do readFrom (← (settings.setFlags flags).setFile name) spare false texts rest
  | .switches _ (some .nextArgument) :: _ => .error .usage

/-- exactly one of source and file is wanted -/
def complete (settings : Settings) : Except Refusal Settings :=
  if settings.source.isNone ∧ settings.file.isNone then .error .usage else .ok settings

def read (arguments : List String) : Except Refusal Settings := do
  let before := (arguments.takeWhile (· ≠ "--")).map Argument.ofText
  let texts := if arguments.contains "--" then
    some ((arguments.dropWhile (· ≠ "--")).drop 1) else none
  if before.contains .ambiguous then .error .usage
  else (← readFrom .initial false false texts before).complete

end Settings

end AnnotatedScheme
