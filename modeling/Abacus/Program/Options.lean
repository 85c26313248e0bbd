import Abacus.Bytes

/-!
# Options

The arguments of the program: perhaps the word `run` and an input file, and behind that any number
of settings. A setting is a flag, or an option with the argument that follows it as its value,
whatever that looks like. The last value of an option counts.
-/

namespace Abacus

/-- What the program does. -/
inductive Mode where
  /-- It answers the lines that are typed. -/
  | interactive
  /-- It evaluates the lines of a file into a report. -/
  | batch
  /-- It explains its arguments. -/
  | help
  deriving DecidableEq, Repr

/-- What the arguments ask for. -/
structure Options where
  /-- What to do. -/
  mode : Mode := .interactive
  /-- The file to evaluate, empty if there is none. -/
  input : Bytes := []
  /-- The file to write the report to. -/
  output : Option Bytes := none
  /-- The folder of the profiles. -/
  storage : Option Bytes := none
  /-- The profile to load first. -/
  profile : Option Bytes := none
  /-- Evaluate without setting variables. -/
  dryRun : Bool := false
  /-- Show the tokens and the nodes of each line. -/
  trace : Bool := false
  deriving DecidableEq, Repr

namespace Options

/-! ## Errors -/

/-- Why arguments ask for nothing. -/
inductive Error where
  /-- The word `run` stands without an input file. -/
  | missingInput
  /-- An option stands without its value. -/
  | missingValue (option : Bytes)
  /-- There is no such argument. -/
  | unknown (argument : Bytes)
  /-- A report is asked for where there is nothing to report. -/
  | outputWithoutRun
  deriving DecidableEq, Repr

/-- The message of an error, which ends at its first NUL byte. -/
def Error.message (e : Error) : Bytes := Bytes.untilNul <|
  match e with
  | .missingInput => utf8 "Не указан входной файл: zappac run <file>"
  | .missingValue option => utf8 "Для параметра " ++ option ++ utf8 " не указано значение"
  | .unknown argument => utf8 "Неизвестный параметр: " ++ argument
  | .outputWithoutRun => utf8 "Параметр -o используется только вместе с run"

/-! ## Settings -/

/-- A setting that stands alone. -/
inductive Flag where
  | dryRun
  | trace
  | help
  deriving DecidableEq, Repr

/-- A setting that takes a value. -/
inductive Key where
  | output
  | storage
  | profile
  deriving DecidableEq, Repr

/-- One setting of the arguments. -/
inductive Setting where
  | flag (flag : Flag)
  | value (key : Key) (value : Bytes)
  deriving DecidableEq, Repr

/-- The flag of a name. -/
def Flag.ofName? (name : Bytes) : Option Flag :=
  if name = utf8 "--dry-run" then some .dryRun
  else if name = utf8 "--trace" then some .trace
  else if name = utf8 "-h" ∨ name = utf8 "--help" then some .help
  else none

/-- The key of a name. -/
def Key.ofName? (name : Bytes) : Option Key :=
  if name = utf8 "-o" ∨ name = utf8 "--output" then some .output
  else if name = utf8 "--storage" then some .storage
  else if name = utf8 "--profile" then some .profile
  else none

/-- The settings of some arguments. -/
def readSettings : List Bytes → Except Error (List Setting)
  | [] => .ok []
  | name :: rest =>
    match Flag.ofName? name, Key.ofName? name, rest with
    | some flag, _, rest => (readSettings rest).map (.flag flag :: ·)
    | none, some key, value :: rest => (readSettings rest).map (.value key value :: ·)
    | none, some _, [] => .error (.missingValue name)
    | none, none, _ => .error (.unknown name)

/-- Options with one setting made. -/
def set (o : Options) : Setting → Options
  | .flag .dryRun => { o with dryRun := true }
  | .flag .trace => { o with trace := true }
  | .flag .help => { o with mode := .help }
  | .value .output path => { o with output := some path }
  | .value .storage folder => { o with storage := some folder }
  | .value .profile name => { o with profile := some name }

/-! ## Arguments -/

/-- Options that hold together: only a run over a file has a report. -/
def check (o : Options) : Except Error Options :=
  if o.output.isSome ∧ o.mode ≠ .batch then .error .outputWithoutRun else .ok o

/-- Options with the settings of some arguments made, from left to right. -/
def readFrom (o : Options) (arguments : List Bytes) : Except Error Options := do
  check ((← readSettings arguments).foldl set o)

/-- The options of the arguments behind the name of the program. -/
def read : List Bytes → Except Error Options
  | [] => .ok {}
  | first :: rest =>
    if first = utf8 "run" then
      match rest with
      | [] => .error .missingInput
      | input :: settings => readFrom { mode := .batch, input } settings
    else readFrom {} (first :: rest)

end Options

end Abacus
