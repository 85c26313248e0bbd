import Abacus.Bytes
import Abacus.Program.Turn
import Abacus.Terminal

/-!
# Batches and their reports

A file of lines is evaluated, and a table is written of what became of each.
-/

namespace Abacus

/-!
## Reports

A report is a table of comma-separated values: a line of column names, and one line for each record.
The texts of a record are written in quotation marks with their own quotation marks doubled, so that
a text may hold commas and line feeds; the line number and the status are written bare.
-/

/-- What became of one line of a file. -/
structure Record where
  /-- The number of the line, counted from one. -/
  line : Nat
  /-- The line without the blanks at its ends. -/
  expression : Bytes
  /-- Whether the line has a result. -/
  status : Bytes
  /-- The result, empty if there is none. -/
  result : Bytes
  /-- What is wrong, empty if nothing is. -/
  message : Bytes
  deriving DecidableEq, Repr

namespace Report

/-- The status of a line with a result. -/
def success : Bytes := utf8 "success"

/-- The status of a line without one. -/
def failure : Bytes := utf8 "error"

/-- The column names. -/
def header : Bytes := utf8 "line,expression,status,result,message\n"

/-- A text in quotation marks, with its own ones doubled. -/
def field (text : Bytes) : Bytes :=
  Bytes.quote :: text.flatMap (fun b ↦ if b = Bytes.quote then [b, b] else [b]) ++ [Bytes.quote]

/-- The line of a record. -/
def row (r : Record) : Bytes :=
  Bytes.joinWith (utf8 ",")
    [Digits.ofNat 10 r.line, field r.expression, r.status, field r.result, field r.message]
  ++ utf8 "\n"

/-- The report of some records. -/
def write (records : List Record) : Bytes := header ++ records.flatMap row

end Report

/-!
## Batches

The lines of a file are evaluated in one session, from the first to the last, and every line that is
not blank gets a record. A line without a result is recorded with what is wrong, and the next line
finds the session as if it had not been there. Only a storage that breaks down ends a run early; the
records of the lines before are reported all the same.
-/

namespace Batch

open Terminal

/-! ### Records -/

/-- The record of a numbered line with a result. -/
def successOf (number : Nat) (line result : Bytes) : Record :=
  ⟨number, line, Report.success, result, []⟩

/-- The record of a numbered line with a fault. -/
def failureOf (number : Nat) (line : Bytes) (f : Fault) : Record :=
  ⟨number, line, Report.failure, [], f.message⟩

/-- Lines that were processed. -/
structure Run where
  /-- The records of the lines. -/
  records : List Record
  /-- What is shown of the lines. -/
  shown : Bytes
  /-- The session behind the lines. -/
  session : Session Folder
  /-- What ended the run before its last line, if anything. -/
  breakdown : Option Breakdown

/-- A run with one more line in front. -/
def Run.before (turn : Turn) (record : Record) (r : Run) : Run :=
  { r with records := record :: r.records, shown := turn.shown ++ r.shown }

/-- Processes lines, the first of which has a number. -/
def process (o : Options) (s : Session Folder) (number : Nat) : List Bytes → Run
  | [] => ⟨[], [], s, none⟩
  | raw :: rest =>
    let line := Bytes.trim raw
    if line.isEmpty then process o s (number + 1) rest
    else
      let turn := Turn.evaluate o s line
      match turn.outcome with
      | .result text =>
        (process o turn.session (number + 1) rest).before turn (successOf number line text)
      | .fault f =>
        (process o turn.session (number + 1) rest).before turn (failureOf number line f)
      | .broken b => ⟨[], turn.shown, turn.session, some b⟩

/-- How many of some records have a result. -/
def successes (records : List Record) : Nat := records.countP (·.status = Report.success)

/-- How many of some records have none. -/
def failures (records : List Record) : Nat := records.countP (·.status = Report.failure)

/-- The exit code of a run with some records. -/
def exitCode (records : List Record) : UInt8 := if failures records = 0 then 0 else 2

/-! ### Paths -/

/-- Where a report goes that no path was asked for: beside the input, with a stamp on its name. -/
def reportPath (input : Bytes) (m : Moment) : Bytes :=
  Path.join (Path.parent input) (Path.stem input ++ utf8 "_results_" ++ m.stamp ++ utf8 ".csv")

/-! ### Texts -/

/-- What is shown before a run. -/
def opening (input output : Bytes) : Bytes :=
  heading "Конфигурация:"
    ++ utf8 "  Входной файл:  " ++ styled [.yellow] (Bytes.quoted input) ++ newline
    ++ utf8 "  Выходной файл: " ++ styled [.yellow] (Bytes.quoted output) ++ newline ++ newline

/-- A line with a number in a colour. -/
def countLine (label : String) (style : Style) (count : Nat) : Bytes :=
  utf8 label ++ styled [style] (Digits.ofNat 10 count) ++ newline

/-- What is shown after a run. -/
def closing (records : List Record) (milliseconds : Nat) (output : Bytes) : Bytes :=
  heading "Статистика:"
    ++ countLine "  Всего выражений:  " .cyan (successes records + failures records)
    ++ countLine "  Успешно:          " .green (successes records)
    ++ (if failures records = 0 then []
      else countLine "  Ошибок:           " .red (failures records))
    ++ utf8 "  Время обработки:  " ++ Digits.ofNat 10 milliseconds ++ utf8 " мс" ++ newline
    ++ newline
    ++ styled [.green] (utf8 "Результаты сохранены в: " ++ Bytes.quoted output) ++ newline
    ++ newline

/-! ### Runs -/

/-- Why a run does not come to its end. -/
inductive Error where
  /-- The input cannot be read. -/
  | input (path : Bytes)
  /-- The report cannot be written. -/
  | report (path : Bytes)
  /-- The storage broke down. -/
  | broken (b : Breakdown)
  deriving DecidableEq, Repr

/-- The message of an error, which ends at its first NUL byte. -/
def Error.message (e : Error) : Bytes := Bytes.untilNul <|
  match e with
  | .input path => utf8 "Не удалось открыть входной файл: " ++ path
  | .report path => utf8 "Не удалось открыть файл для записи CSV: " ++ path
  | .broken b => b.message

variable {m : Type → Type} [Monad m] [Host m]

/-- The path of the report. -/
def outputPath (o : Options) : m Bytes :=
  match o.output with
  | some path => return path
  | none => return reportPath o.input (← Host.now)

/-- Evaluates the lines of the input into a report that was made empty. -/
def report (o : Options) (s : Session Folder) (output : Bytes) : m (Except Error UInt8) := do
  let began ← Host.milliseconds
  let r := process o s 1 (Bytes.lines (← Host.read o.input))
  Host.print r.shown
  s.keep r.session
  Host.write output (Report.write r.records)
  match r.breakdown with
  | some b => return .error (.broken b)
  | none =>
    Host.print (closing r.records ((← Host.milliseconds) - began) output)
    return .ok (exitCode r.records)

/-- Runs over the input. The report is made empty before the input is read, so an input that is its
own report has no lines. -/
def run (o : Options) : m (Except Error UInt8) := do
  if ← Host.canRead o.input then
    let output ← outputPath o
    Host.print (opening o.input output)
    match ← Session.openFor o with
    | .error b => return .error (.broken b)
    | .ok s =>
      if ← Host.create output then report o (← s.lookAgain) output
      else return .error (.report output)
  else return .error (.input o.input)

end Batch

end Abacus
