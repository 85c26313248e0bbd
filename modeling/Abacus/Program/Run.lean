import Abacus.Disk
import Abacus.Program.Batch
import Abacus.Program.Turn

/-!
# The program and its hosts

The whole program, and a host on which it is a function.
-/

namespace Abacus

/-!
## The program

What the program does with its arguments, on any host. How the typed lines reach an interactive
session is left to the caller, since a host may have no end of them.
-/

namespace Program

variable {m : Type → Type} [Monad m] [Host m]

/-- Says what is wrong, and fails. -/
def fail (message : Bytes) : m UInt8 := do
  Host.complain (Terminal.errorLine message)
  return 1

/-- Runs the program of a name with some arguments; the answer is its exit code. -/
def run (converse : Options → Session Folder → m (Except Breakdown Unit)) (name : Bytes)
    (arguments : List Bytes) : m UInt8 :=
  match Options.read arguments with
  | .error e => fail e.message
  | .ok o =>
    match o.mode with
    | .help => do
      Host.print (usage name)
      return 0
    | .batch => do
      match ← Batch.run o with
      | .ok code => return code
      | .error e => fail e.message
    | .interactive => do
      Host.print greeting
      match ← Session.openFor o with
      | .error b => fail b.message
      | .ok s =>
        match ← converse o s with
        | .error b => fail b.message
        | .ok () =>
          Host.print farewell
          return 0

end Program

/-!
## Desks

A host that is a value: a codec for profiles, a disk, an environment, a clock that stands still, and
what was printed. On a desk the program is a function, from what the desk holds before a run to what
it holds behind it.
-/

/-- A host that is a value. -/
structure Desk where
  /-- How profiles are written and read. -/
  codec : Profile.Codec
  /-- The files. -/
  disk : Disk
  /-- The variables of the environment. -/
  environment : NameMap Bytes
  /-- What the clock shows. -/
  moment : Moment
  /-- What was printed on standard output. -/
  stdout : Bytes := []
  /-- What was printed on standard error. -/
  stderr : Bytes := []

namespace Desk

instance : Host (StateM Desk) where
  print text := modify fun d ↦ { d with stdout := d.stdout ++ text }
  complain text := modify fun d ↦ { d with stderr := d.stderr ++ text }
  canRead path := return (← get).disk.canRead path
  read path := return (← get).disk.read path
  create path := modifyGet fun d ↦
    match d.disk.create path with
    | .ok disk => (true, { d with disk })
    | .error _ => (false, d)
  write path contents := modify fun d ↦ { d with disk := d.disk.write path contents }
  openFolder root := return ⟨(← get).codec, root, (← get).disk⟩
  keepFolder _ after := modify fun d ↦ { d with disk := after.disk }
  environment := return (← get).environment
  now := return (← get).moment
  milliseconds := return 0

/-- Runs the program on a desk, where some lines are typed. -/
def run (d : Desk) (name : Bytes) (arguments : List Bytes) (typed : Bytes) : UInt8 × Desk :=
  let program : StateM Desk UInt8 :=
    Program.run (fun o s ↦ Prompt.converse o s (Bytes.lines typed)) name arguments
  program.run d

end Desk

end Abacus
