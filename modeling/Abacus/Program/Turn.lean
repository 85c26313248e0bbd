import Abacus.Bytes
import Abacus.Profile
import Abacus.Program.Options
import Abacus.Session
import Abacus.Terminal

/-!
# Lines on a host

What the program asks of the system that it runs on, and how it answers lines there.
-/

namespace Abacus

/-!
## Moments

A moment of local time, to the second, and how it is stamped on a file name.
-/

/-- A moment of local time. -/
structure Moment where
  year : Nat
  month : Nat
  day : Nat
  hour : Nat
  minute : Nat
  second : Nat
  deriving DecidableEq, Repr

namespace Moment

/-- The digits of a moment, with an underscore between the day and the hour. -/
def stamp (m : Moment) : Bytes :=
  Digits.ofNat 10 m.year ++ Digits.fixedWidth 2 m.month ++ Digits.fixedWidth 2 m.day ++ utf8 "_"
    ++ Digits.fixedWidth 2 m.hour ++ Digits.fixedWidth 2 m.minute ++ Digits.fixedWidth 2 m.second

end Moment

/-!
## Hosts

What the program asks of the system it runs on. The program is written against this interface only:
on a `Desk` it is a function of what the disk holds, and outside it talks to the real files.
-/

/-- A system to run the program on. -/
class Host (m : Type → Type) where
  /-- Prints on standard output. -/
  print : Bytes → m Unit
  /-- Prints on standard error. -/
  complain : Bytes → m Unit
  /-- Whether a file can be opened to be read. -/
  canRead : Bytes → m Bool
  /-- What a file that can be read holds now. -/
  read : Bytes → m Bytes
  /-- Makes a file empty, and makes it if there is none; says whether that was possible. -/
  create : Bytes → m Bool
  /-- Sets what a file holds that was made empty. -/
  write : Bytes → Bytes → m Unit
  /-- The folder of profiles at a root, on the disk as it is now. -/
  openFolder : Bytes → m Folder
  /-- Does to the disk what a folder of profiles has seen done between two states. -/
  keepFolder : Folder → Folder → m Unit
  /-- The value of each variable of the environment. -/
  environment : m (NameMap Bytes)
  /-- The moment of local time. -/
  now : m Moment
  /-- The milliseconds since some point in the past. -/
  milliseconds : m Nat

/-!
## Turns

One line evaluated for someone who watches: what it is read into may be shown first, and a profile
that is saved is reported together with its folder.
-/

namespace Turn

/-- What came of a line. -/
inductive Outcome where
  /-- It has a result. -/
  | result (text : Bytes)
  /-- Something is wrong with it. -/
  | fault (f : Fault)
  /-- The storage broke down, which ends the program. -/
  | broken (b : Breakdown)
  deriving DecidableEq, Repr

/-- The outcome of a failure. -/
def Outcome.ofFailure : Session.Failure → Outcome
  | .reading e => .fault e.fault
  | .evaluating e => .fault e.fault
  | .broken b => .broken b

end Turn

/-- One line, and what came of it. -/
structure Turn where
  /-- What is shown while the line is evaluated. -/
  shown : Bytes
  /-- What came of the line. -/
  outcome : Turn.Outcome
  /-- The session behind the line. -/
  session : Session Folder

namespace Turn

open Terminal

/-- The tokens and the nodes of a line. -/
def trace (line : Bytes) : Bytes :=
  note (utf8 "токены") (Bytes.joinWith (utf8 " ") ((Token.scan line).map Token.describe))
    ++ note (utf8 "узлы") (describeNodes (Line.read line).nodes)

/-- What is shown of the profiles that were saved between two states of a session. -/
def savesShown (before after : Session Folder) : Bytes :=
  match after.storage with
  | some folder =>
    if before.saves < after.saves then note (utf8 "каталог профилей") folder.root else []
  | none => []

/-- Evaluates a line in a session. -/
def evaluate (o : Options) (s : Session Folder) (line : Bytes) : Turn :=
  let shown := if o.trace then trace line else []
  match (Session.evaluate line (!o.dryRun)).run s with
  | (.ok result, s') => ⟨shown ++ savesShown s s', .result result, s'⟩
  | (.error e, s') => ⟨shown, .ofFailure e, s'⟩

/-- How a fault is shown: its message and its kind, and its place in the line. -/
def faultShown (line : Bytes) (f : Fault) : Bytes :=
  errorLine (f.message ++ utf8 " [" ++ f.kind.name ++ utf8 "]") ++ caret line f.position

end Turn

namespace Session

variable {m : Type → Type} [Monad m] [Host m]

/-- A session with the profiles that the options and the environment name. If the options name a
profile to load, it is loaded, and what became of that is shown. The colour is turned on before the
profile is looked for. -/
def openFor (o : Options) : m (Except Breakdown (Session Folder)) := do
  let folder ← Host.openFolder (Profile.root o.storage (← Host.environment))
  let s := Session.start (some folder)
  match o.profile with
  | none => return .ok s
  | some name =>
    match (Session.load name).run s with
    | (.ok answer, s') =>
      Host.print (Terminal.styled [.gray] answer ++ Terminal.newline)
      return .ok s'
    | (.error b, _) =>
      Host.print Terminal.Style.gray.code
      return .error b

/-- The session, with its profiles on the disk as it is now. -/
def lookAgain (s : Session Folder) : m (Session Folder) :=
  match s.storage with
  | some folder => return { s with storage := some (← Host.openFolder folder.root) }
  | none => return s

/-- Does to the disk what a session has done to its profiles between two states. -/
def keep (before after : Session Folder) : m Unit :=
  match before.storage, after.storage with
  | some old, some new => Host.keepFolder old new
  | _, _ => return

end Session

/-!
## Interactive sessions

Each line that is typed is answered at once: with its result, with what is wrong, with the help
text, or by leaving.
-/

namespace Prompt

open Terminal

/-- What a typed line asks for. -/
inductive Request where
  /-- Nothing. -/
  | nothing
  /-- To leave. -/
  | leave
  /-- The help text. -/
  | help
  /-- To evaluate a line. -/
  | evaluate (line : Bytes)
  deriving DecidableEq, Repr

/-- The request of a typed line. -/
def Request.read (typed : Bytes) : Request :=
  let line := Bytes.trim typed
  if line.isEmpty then .nothing
  else if line = utf8 "exit" ∨ line = utf8 "quit" then .leave
  else if line = utf8 "help" then .help
  else .evaluate line

/-- How an interactive session goes on behind a line. -/
inductive Next where
  /-- With the next line. -/
  | line (s : Session Folder)
  /-- Not at all, since the line leaves. -/
  | leave
  /-- Not at all, since the storage broke down. -/
  | broken (b : Breakdown)

variable {m : Type → Type} [Monad m] [Host m]

/-- Evaluates a line, shows what comes of it, and keeps what was saved. -/
def evaluate (o : Options) (s : Session Folder) (line : Bytes) : m Next := do
  let turn := Turn.evaluate o s line
  Host.print turn.shown
  s.keep turn.session
  match turn.outcome with
  | .result text =>
    if !text.isEmpty then Host.print (styled [.green] text ++ newline)
    return .line turn.session
  | .fault f =>
    Host.complain (Turn.faultShown line f)
    return .line turn.session
  | .broken b => return .broken b

/-- Answers a typed line. -/
def answer (o : Options) (s : Session Folder) (typed : Bytes) : m Next :=
  match Request.read typed with
  | .nothing => return .line s
  | .leave => return .leave
  | .help => do
    Host.print Program.languageHelp
    return .line s
  | .evaluate line => evaluate o s line

/-- Answers lines, asking for each and once more at the end, until one leaves or the storage breaks
down. -/
def converse (o : Options) : Session Folder → List Bytes → m (Except Breakdown Unit)
  | _, [] => do
    Host.print Program.prompt
    return .ok ()
  | s, typed :: rest => do
    Host.print Program.prompt
    match ← answer o s typed with
    | .line s' => converse o s' rest
    | .leave => return .ok ()
    | .broken b => return .error b

end Prompt

end Abacus
