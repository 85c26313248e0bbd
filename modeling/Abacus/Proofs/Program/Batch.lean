import Abacus.Profile.Layout
import Abacus.Program.Run
import Abacus.Proofs.Disk
import Abacus.Proofs.Program.Arguments
import Abacus.Proofs.Report
import Abacus.Proofs.Session.Profiles
import Mathlib.Data.List.DropRight

/-!
# Runs of the program over files

The program on a desk, and the report of a batch.
-/

namespace Abacus

/-!
## Programs on a desk

Each thing that a program asks of its host, on a desk. Runs of the program are taken apart with
these equations, one request after the other.
-/

namespace Desk

variable {α β : Type} {d d' : Desk}

/-! ### Requests -/

theorem run_bind {x : StateM Desk α} {a : α} (h : x.run d = (a, d')) (f : α → StateM Desk β) :
    (x >>= f).run d = (f a).run d' := by
  show (match x.run d with | (a, d') => (f a).run d') = _
  rw [h]

theorem run_print (text : Bytes) (d : Desk) :
    (Host.print text : StateM Desk Unit).run d = ((), { d with stdout := d.stdout ++ text }) := rfl

theorem run_canRead (path : Bytes) (d : Desk) :
    (Host.canRead path : StateM Desk Bool).run d = (d.disk.canRead path, d) := rfl

theorem run_read (path : Bytes) (d : Desk) :
    (Host.read path : StateM Desk Bytes).run d = (d.disk.read path, d) := rfl

theorem run_create {path : Bytes} {disk : Disk} (h : d.disk.create path = .ok disk) :
    (Host.create path : StateM Desk Bool).run d = (true, { d with disk }) := by
  simp only [Host.create, StateT.run_modifyGet, h]
  rfl

theorem run_write (path contents : Bytes) (d : Desk) :
    (Host.write path contents : StateM Desk Unit).run d
      = ((), { d with disk := d.disk.write path contents }) := rfl

theorem run_milliseconds (d : Desk) : (Host.milliseconds : StateM Desk Nat).run d = (0, d) := rfl

end Desk

/-! ### Sessions -/

namespace Session

variable {d : Desk}

theorem run_openFor {o : Options} (h : o.profile = none) (d : Desk) :
    (openFor o : StateM Desk _).run d
      = (.ok (start (some ⟨d.codec, Profile.root o.storage d.environment, d.disk⟩)), d) := by
  unfold openFor
  rw [h]
  rfl

theorem run_lookAgain {s : Session Folder} {folder : Folder} (h : s.storage = some folder)
    (d : Desk) :
    (s.lookAgain : StateM Desk _).run d
      = ({ s with storage := some ⟨d.codec, folder.root, d.disk⟩ }, d) := by
  unfold lookAgain
  rw [h]
  rfl

/-- A session that did nothing to the profiles of the disk leaves the disk as it is. -/
theorem run_keep {before after : Session Folder} {root : Bytes}
    (hbefore : before.storage = some ⟨d.codec, root, d.disk⟩)
    (hafter : after.storage = before.storage) :
    (before.keep after : StateM Desk Unit).run d = ((), d) := by
  unfold keep
  rw [hafter, hbefore]
  rfl

end Session

/-!
## Reports of batches

A batch reports every line of its input that is not blank, once and in the order of the file. A
record says what an evaluator comes to that has evaluated the lines before: an evaluator of any
kind, because a line that asks for no profile knows nothing of a session but its variables. The loop
over the lines is followed by an induction on the lines that are left, in which such an evaluator
keeps the variables of the session of the batch.
-/

namespace Batch

open Session (Action Command)

/-! ### Numbered lines -/

/-- The pieces of a file that are not blank, without the blanks at their ends and with their
numbers, where the first piece of all has a number. -/
def numbered (number : Nat) (pieces : List Bytes) : List (Nat × Bytes) :=
  ((pieces.zipIdx number).map fun (piece, number) ↦
    (number, (piece.dropWhile Bytes.isBlank).rdropWhile Bytes.isBlank)).filter (!·.2.isEmpty)

theorem numbered_cons_of_blank {number : Nat} {piece : Bytes}
    (h : (Bytes.trim piece).isEmpty = true) (pieces : List Bytes) :
    numbered number (piece :: pieces) = numbered (number + 1) pieces := by
  rw [numbered, List.zipIdx_cons, List.map_cons, List.filter_cons_of_neg]
  · rfl
  · simpa [Bytes.trim, List.rdropWhile] using h

theorem numbered_cons {number : Nat} {piece : Bytes} (h : (Bytes.trim piece).isEmpty = false)
    (pieces : List Bytes) :
    numbered number (piece :: pieces)
      = (number, Bytes.trim piece) :: numbered (number + 1) pieces := by
  rw [numbered, List.zipIdx_cons, List.map_cons, List.filter_cons_of_pos]
  · rfl
  · simpa [Bytes.trim, List.rdropWhile] using h

/-- The empty piece behind the last line feed does not count. -/
theorem numbered_splitOn (number : Nat) (s : Bytes) :
    numbered number (s.splitOn '\n'.toUInt8) = numbered number (Bytes.lines s) := by
  rcases Bytes.splitOn_eq_lines s with h | h
  · rw [h]
  · rw [h, numbered, List.zipIdx_append, List.map_append, List.filter_append]
    exact List.append_nil _

/-! ### Records -/

/-- The record of a numbered line whose evaluation came to something. -/
inductive IsRecordOf (number : Nat) (line : Bytes) : Except Session.Failure Bytes → Record → Prop
  | success (text : Bytes) :
    IsRecordOf number line (.ok text) ⟨number, line, utf8 "success", text, []⟩
  | reading (e : Line.Error) :
    IsRecordOf number line (.error (.reading e)) ⟨number, line, utf8 "error", [], e.fault.message⟩
  | evaluating (e : Evaluation.Error) :
    IsRecordOf number line (.error (.evaluating e))
      ⟨number, line, utf8 "error", [], e.fault.message⟩

theorem success_ne_failure : Report.success ≠ Report.failure := by decide

theorem IsRecordOf.status_eq {number : Nat} {line : Bytes} {answer : Except Session.Failure Bytes}
    {record : Record} (h : IsRecordOf number line answer record) :
    record.status = Report.success ∧ (∃ text, answer = .ok text)
      ∨ record.status = Report.failure ∧ ∃ e, answer = .error e := by
  cases h with
  | success text => exact .inl ⟨rfl, text, rfl⟩
  | reading e => exact .inr ⟨rfl, _, rfl⟩
  | evaluating e => exact .inr ⟨rfl, _, rfl⟩

theorem IsRecordOf.unique {number : Nat} {line : Bytes}
    {answer answer' : Except Session.Failure Bytes} {record record' : Record}
    (h : IsRecordOf number line answer record)
    (h' : IsRecordOf number line answer' record') (heq : answer = answer') : record = record' := by
  subst heq
  cases h with
  | success | reading | evaluating =>
    cases h'
    rfl

variable {τ : Type} [ProfileStorage τ] {commit : Bool}

/-- The records of numbered lines that are evaluated one after the other. -/
inductive Reports (commit : Bool) : Session τ → List (Nat × Bytes) → List Record → Prop where
  | nil (s : Session τ) : Reports commit s [] []
  | cons {s : Session τ} {number : Nat} {line : Bytes} {lines : List (Nat × Bytes)}
      {record : Record} {records : List Record}
      (h : IsRecordOf number line (Action.run (Session.evaluate line commit) s).1 record)
      (hrest : Reports commit (Action.run (Session.evaluate line commit) s).2 lines records) :
    Reports commit s ((number, line) :: lines) (record :: records)

namespace Reports

variable {s : Session τ} {lines : List (Nat × Bytes)} {records : List Record}

theorem length_eq (h : Reports commit s lines records) : records.length = lines.length := by
  induction h with
  | nil => rfl
  | cons _ _ ih => exact congrArg (· + 1) ih

/-- Each record is one of its line, evaluated behind the lines before it. -/
theorem isRecordOf (h : Reports commit s lines records) {k number : Nat} {line : Bytes}
    {record : Record} (hline : lines[k]? = some (number, line))
    (hrecord : records[k]? = some record) :
    IsRecordOf number line (Action.run (Session.evaluate line commit)
      (s.run ((lines.take k).map fun p ↦ .line p.2 commit))).1 record := by
  induction h generalizing k with
  | nil => cases hline
  | @cons s number' line' lines record' records h hrest ih =>
    cases k with
    | zero =>
      cases hline
      cases hrecord
      exact h
    | succ k =>
      have hstep : (s.step (.line line' commit)).2
          = (Action.run (Session.evaluate line' commit) s).2 := by
        rw [Session.step, Session.take, Session.Action.run_map]
      have hrun := ih hline hrecord
      rw [← hstep] at hrun
      exact hrun

theorem status_eq (h : Reports commit s lines records) :
    ∀ r ∈ records, r.status = Report.success ∨ r.status = Report.failure := by
  induction h with
  | nil => nofun
  | cons h _ ih =>
    intro r hr
    rcases List.mem_cons.mp hr with rfl | hr
    · exact h.status_eq.imp And.left And.left
    · exact ih r hr

end Reports

/-! ### The loop -/

theorem process_cons_of_blank (o : Options) (s : Session Folder) (number : Nat) {raw : Bytes}
    (h : (Bytes.trim raw).isEmpty = true) (rest : List Bytes) :
    process o s number (raw :: rest) = process o s (number + 1) rest := by
  rw [process]
  exact if_pos h

/-- A line that does not break the storage down is recorded, and the next line finds the session as
the line leaves it. -/
theorem process_cons (o : Options) (s : Session Folder) (number : Nat) {raw : Bytes}
    (h : (Bytes.trim raw).isEmpty = false)
    (hbroken : ∀ b, (Action.run (Session.evaluate (Bytes.trim raw) (!o.dryRun)) s).1
      ≠ .error (.broken b)) (rest : List Bytes) :
    ∃ turn record,
      IsRecordOf number (Bytes.trim raw)
        (Action.run (Session.evaluate (Bytes.trim raw) (!o.dryRun)) s).1 record
      ∧ process o s number (raw :: rest)
        = (process o (Action.run (Session.evaluate (Bytes.trim raw) (!o.dryRun)) s).2 (number + 1)
          rest).before turn record := by
  rw [process]
  dsimp only
  rw [if_neg (by rw [h]; exact Bool.false_ne_true)]
  unfold Turn.evaluate
  rcases hrun : Action.run (Session.evaluate (Bytes.trim raw) (!o.dryRun)) s with ⟨answer, s'⟩
  rw [hrun] at hbroken
  dsimp only at hbroken ⊢
  cases answer with
  | ok text => exact ⟨_, _, .success text, rfl⟩
  | error e =>
    cases e with
    | reading e => exact ⟨_, _, .reading e, rfl⟩
    | evaluating e => exact ⟨_, _, .evaluating e, rfl⟩
    | broken b => exact absurd rfl (hbroken b)

/-- Where no line asks for a profile, the loop comes to its end, the storage stays as it is, and the
records are those of any evaluator that starts with the same variables. -/
theorem reports_process (o : Options) {raws : List Bytes} {number : Nat}
    (hlines : ∀ p ∈ numbered number raws, ∀ c ∈ Command.ofNodes? (Line.read p.2).nodes, c = .clear)
    {s : Session Folder} {s' : Session τ} (hstore : s'.store = s.store) :
    Reports (!o.dryRun) s' (numbered number raws) (process o s number raws).records
      ∧ (process o s number raws).session.storage = s.storage
      ∧ (process o s number raws).breakdown = none := by
  induction raws generalizing number s s' with
  | nil => exact ⟨.nil s', rfl, rfl⟩
  | cons raw raws ih =>
    cases hblank : (Bytes.trim raw).isEmpty with
    | true =>
      rw [numbered_cons_of_blank hblank] at hlines ⊢
      rw [process_cons_of_blank o s number hblank]
      exact ih hlines hstore
    | false =>
      rw [numbered_cons hblank] at hlines ⊢
      obtain ⟨hline, hrest⟩ := List.forall_mem_cons.mp hlines
      -- both evaluators come to what one function says of their common variables
      obtain ⟨reply, hbroken, hreply⟩ := Session.exists_reply_of_evaluate hline (!o.dryRun)
      have hs := hreply Folder s
      have hs' := hreply τ s'
      rw [hstore] at hs'
      obtain ⟨turn, record, hrecord, hprocess⟩ :=
        process_cons o s number hblank (fun b ↦ by rw [hs]; exact hbroken s.store b) raws
      have hstore' : (Action.run (Session.evaluate (Bytes.trim raw) (!o.dryRun)) s').2.store
          = (Action.run (Session.evaluate (Bytes.trim raw) (!o.dryRun)) s).2.store := by
        rw [hs, hs']
      obtain ⟨hreports, hstorage, hend⟩ := ih hrest hstore'
      rw [hs] at hrecord
      rw [hprocess]
      refine ⟨.cons (by rwa [hs']) hreports, hstorage.trans (by rw [hs]), hend⟩

/-- Showing tokens and nodes changes nothing but what is shown. -/
theorem evaluate_trace (o : Options) (trace : Bool) (s : Session Folder) (line : Bytes) :
    (Turn.evaluate { o with trace } s line).outcome = (Turn.evaluate o s line).outcome
      ∧ (Turn.evaluate { o with trace } s line).session = (Turn.evaluate o s line).session := by
  unfold Turn.evaluate
  dsimp only
  rcases Action.run (Session.evaluate line (!o.dryRun)) s with ⟨_ | _, _⟩
  · exact ⟨rfl, rfl⟩
  · exact ⟨rfl, rfl⟩

theorem process_trace (o : Options) (trace : Bool) (s : Session Folder) (number : Nat)
    (raws : List Bytes) :
    (process { o with trace } s number raws).records = (process o s number raws).records
      ∧ (process { o with trace } s number raws).session = (process o s number raws).session
      ∧ (process { o with trace } s number raws).breakdown
        = (process o s number raws).breakdown := by
  induction raws generalizing s number with
  | nil => exact ⟨rfl, rfl, rfl⟩
  | cons raw raws ih =>
    cases hblank : (Bytes.trim raw).isEmpty with
    | true =>
      rw [process_cons_of_blank _ s number hblank, process_cons_of_blank _ s number hblank]
      exact ih s (number + 1)
    | false =>
      obtain ⟨houtcome, hsession⟩ := evaluate_trace o trace s (Bytes.trim raw)
      obtain ⟨hrecords, hbehind, hbreakdown⟩ :=
        ih (Turn.evaluate o s (Bytes.trim raw)).session (number + 1)
      rw [process, process]
      simp only [hblank, houtcome, hsession, Bool.false_eq_true, if_false]
      split
      · exact ⟨congrArg (_ :: ·) hrecords, hbehind, hbreakdown⟩
      · exact ⟨congrArg (_ :: ·) hrecords, hbehind, hbreakdown⟩
      · exact ⟨rfl, rfl, rfl⟩

/-! ### Rows and totals -/

theorem rows?_write_of_status {records : List Record}
    (h : ∀ r ∈ records, r.status = Report.success ∨ r.status = Report.failure) :
    Table.rows? (Report.write records)
      = some ([utf8 "line", utf8 "expression", utf8 "status", utf8 "result", utf8 "message"]
        :: records.map fun r ↦
          [utf8 (toString r.line), r.expression, r.status, r.result, r.message]) := by
  have hbare : ∀ r ∈ records, Table.IsBare r.status := by
    intro r hr
    rcases h r hr with h | h
    · rw [h]
      decide +kernel
    · rw [h]
      decide +kernel
  have hfields : ∀ r : Record,
      r.fields = [utf8 (toString r.line), r.expression, r.status, r.result, r.message] :=
    fun r ↦ by rw [Record.fields, Digits.utf8_toString]
  rw [Report.rows?_of_isBare hbare, funext hfields]
  rfl

theorem successes_add_failures {records : List Record}
    (h : ∀ r ∈ records, r.status = Report.success ∨ r.status = Report.failure) :
    successes records + failures records = records.length := by
  have hfailures : failures records
      = records.countP fun r ↦ ¬decide (r.status = Report.success) = true := by
    refine List.countP_congr fun r hr ↦ ?_
    rcases h r hr with hr | hr
    · simp [hr, success_ne_failure]
    · simp [hr, success_ne_failure.symm]
  rw [hfailures, successes]
  exact (List.length_eq_countP_add_countP _).symm

theorem failures_eq_zero_iff {records : List Record} :
    failures records = 0 ↔ ∀ r ∈ records, r.status ≠ Report.failure := by
  simp [failures, List.countP_eq_zero]

/-- The totals of some records, as they are shown after a run. -/
def totals (records : List Record) : Bytes :=
  let successes := records.countP (·.status = utf8 "success")
  let failures := records.countP (·.status = utf8 "error")
  utf8 "  Всего выражений:  \x1b[36m" ++ utf8 (toString records.length) ++ utf8 "\x1b[0m\n"
    ++ (utf8 "  Успешно:          \x1b[32m" ++ utf8 (toString successes) ++ utf8 "\x1b[0m\n")
    ++ if failures = 0 then []
      else utf8 "  Ошибок:           \x1b[31m" ++ utf8 (toString failures) ++ utf8 "\x1b[0m\n"

theorem countLine_eq (opened : String) {label : String} {style : Terminal.Style}
    (h : utf8 opened = utf8 label ++ style.code) (count : Nat) :
    countLine label style count = utf8 opened ++ utf8 (toString count) ++ utf8 "\x1b[0m\n" := by
  have hclosed : utf8 "\x1b[0m\n" = Terminal.reset ++ Terminal.newline := by decide +kernel
  rw [h, hclosed, Digits.utf8_toString, countLine, Terminal.styled]
  simp only [List.flatMap_cons, List.flatMap_nil, List.append_nil, List.append_assoc]

theorem totals_eq (records : List Record) : totals records
    = countLine "  Всего выражений:  " .cyan records.length
      ++ countLine "  Успешно:          " .green (successes records)
      ++ if failures records = 0 then []
        else countLine "  Ошибок:           " .red (failures records) := by
  rw [countLine_eq "  Всего выражений:  \x1b[36m" (by decide +kernel),
    countLine_eq "  Успешно:          \x1b[32m" (by decide +kernel),
    countLine_eq "  Ошибок:           \x1b[31m" (by decide +kernel)]
  rfl

theorem closing_eq {records : List Record}
    (h : ∀ r ∈ records, r.status = Report.success ∨ r.status = Report.failure) (output : Bytes) :
    closing records 0 output
      = utf8 "\x1b[1mСтатистика:\n\x1b[0m" ++ totals records
        ++ utf8 "  Время обработки:  0 мс\n\n\x1b[32mРезультаты сохранены в: "
        ++ Bytes.quoted output ++ utf8 "\x1b[0m\n\n" := by
  have hheading : utf8 "\x1b[1mСтатистика:\n\x1b[0m" = Terminal.heading "Статистика:" := by
    decide +kernel
  have htime : utf8 "  Время обработки:  0 мс\n\n\x1b[32mРезультаты сохранены в: "
      = utf8 "  Время обработки:  " ++ Digits.ofNat 10 0 ++ utf8 " мс" ++ Terminal.newline
        ++ Terminal.newline ++ Terminal.Style.green.code ++ utf8 "Результаты сохранены в: " := by
    rw [Digits.ofNat_of_lt (by decide)]
    decide +kernel
  have hend : utf8 "\x1b[0m\n\n" = Terminal.reset ++ Terminal.newline ++ Terminal.newline := by
    decide +kernel
  rw [hheading, htime, hend, totals_eq, closing, successes_add_failures h, Terminal.styled]
  simp only [List.flatMap_cons, List.flatMap_nil, List.append_nil, List.append_assoc]

/-! ### Whole runs -/

section

variable {d : Desk} {o : Options} {output : Bytes}

theorem run_outputPath (h : o.output = some output) (d : Desk) :
    (outputPath o : StateM Desk Bytes).run d = (output, d) := by
  unfold outputPath
  rw [h]
  rfl

/-- The report of a session that does nothing to the profiles of the disk. -/
theorem run_report {s : Session Folder} {root : Bytes} {r : Run}
    (hr : r = process o s 1 (Bytes.lines (d.disk.read o.input)))
    (hs : s.storage = some ⟨d.codec, root, d.disk⟩) (hstorage : r.session.storage = s.storage)
    (hbreakdown : r.breakdown = none) (output : Bytes) :
    (report o s output : StateM Desk _).run d = (.ok (exitCode r.records),
      { d with
        disk := d.disk.write output (Report.write r.records)
        stdout := d.stdout ++ r.shown ++ closing r.records 0 output }) := by
  have hkeep := Session.run_keep (d := { d with stdout := d.stdout ++ r.shown }) hs hstorage
  unfold report
  rw [Desk.run_bind (Desk.run_milliseconds d), Desk.run_bind (Desk.run_read o.input d), ← hr,
    Desk.run_bind (Desk.run_print r.shown d), Desk.run_bind hkeep,
    Desk.run_bind (Desk.run_write output _ _), hbreakdown]
  rfl

/-- A run that nothing stands in the way of and that does nothing to the profiles. -/
theorem run_run {disk : Disk} (houtput : o.output = some output) (hprofile : o.profile = none)
    (hinput : d.disk.canRead o.input = true) (hcreate : d.disk.create output = .ok disk)
    (hne : d.disk.aim o.input ≠ d.disk.aim output) {s : Session Folder} {r : Run}
    (hs : s = .start (some ⟨d.codec, Profile.root o.storage d.environment, disk⟩))
    (hr : r = process o s 1 (Bytes.lines (d.disk.read o.input)))
    (hstorage : r.session.storage = s.storage) (hbreakdown : r.breakdown = none) :
    (run o : StateM Desk _).run d = (.ok (exitCode r.records),
      { d with
        disk := disk.write output (Report.write r.records)
        stdout := d.stdout ++ opening o.input output ++ r.shown
          ++ closing r.records 0 output }) := by
  subst hs
  -- the input holds the same once the report was made empty
  rw [← Disk.read_of_create hcreate hinput hne] at hr
  have hmade :=
    Desk.run_create (d := { d with stdout := d.stdout ++ opening o.input output }) hcreate
  have hreport := run_report (d := { d with disk, stdout := d.stdout ++ opening o.input output }) hr
    rfl hstorage hbreakdown output
  unfold run
  rw [Desk.run_bind (Desk.run_canRead o.input d), hinput, if_pos rfl,
    Desk.run_bind (run_outputPath houtput d), Desk.run_bind (Desk.run_print _ d),
    Desk.run_bind (Session.run_openFor hprofile _)]
  dsimp only
  rw [Desk.run_bind hmade, if_pos rfl, Desk.run_bind (Session.run_lookAgain rfl _)]
  exact hreport

theorem run_of_batch {arguments : List Bytes} {code : UInt8} {d' : Desk}
    (harguments : Options.read arguments = .ok o) (hmode : o.mode = .batch)
    (h : (run o : StateM Desk _).run d = (.ok code, d')) (name typed : Bytes) :
    d.run name arguments typed = (code, d') := by
  unfold Desk.run Program.run
  rw [harguments]
  dsimp only
  rw [hmode]
  dsimp only
  rw [Desk.run_bind h]
  rfl

/-! ### The law -/

/-- **A batch reports every line once and in order.** A run over a file has a report at a path of
its own, which can be written, loads no profile first, and no line of the file asks for one. Then
the report is a table of one row for each line that is not blank, in the order of the file, with the
number of the line in the file and its text without the blanks at its ends. It says what an
evaluator of any kind comes to at the line, once it has evaluated the lines before; where that is an
error, the evaluator is left as it was. The totals that are shown are those of the records, and the
exit code tells whether one of them has an error. Whether tokens and nodes are shown changes neither
the exit code nor any file. -/
theorem run_reports {arguments : List Bytes} {disk : Disk}
    (harguments : Options.read arguments = .ok o) (hmode : o.mode = .batch)
    (houtput : o.output = some output) (hprofile : o.profile = none)
    (hinput : d.disk.canRead o.input = true) (hcreate : d.disk.create output = .ok disk)
    (hne : d.disk.aim o.input ≠ d.disk.aim output)
    (hlines : ∀ p ∈ numbered 1 ((d.disk.read o.input).splitOn '\n'.toUInt8),
      ∀ c ∈ Command.ofNodes? (Line.read p.2).nodes, c = .clear) (name typed : Bytes) :
    let lines := numbered 1 ((d.disk.read o.input).splitOn '\n'.toUInt8)
    let commit := !o.dryRun
    let code := (d.run name arguments typed).1
    let d' := (d.run name arguments typed).2
    ∃ records : List Record,
      Table.rows? (d'.disk.read output)
        = some ([utf8 "line", utf8 "expression", utf8 "status", utf8 "result", utf8 "message"]
          :: records.map fun r ↦
            [utf8 (toString r.line), r.expression, r.status, r.result, r.message])
      ∧ records.length = lines.length
      ∧ (∀ k number line record, lines[k]? = some (number, line) → records[k]? = some record →
        ∀ (τ : Type) [ProfileStorage τ] (storage : Option τ),
          let s := (Session.start storage).run ((lines.take k).map fun p ↦ .line p.2 commit)
          IsRecordOf number line (Action.run (Session.evaluate line commit) s).1 record
          ∧ (record.status = utf8 "error" →
            (Action.run (Session.evaluate line commit) s).2 = s))
      ∧ (∃ shown, d'.stdout = d.stdout ++ shown
        ++ (utf8 "\x1b[1mСтатистика:\n\x1b[0m" ++ totals records
          ++ utf8 "  Время обработки:  0 мс\n\n\x1b[32mРезультаты сохранены в: "
          ++ Bytes.quoted output ++ utf8 "\x1b[0m\n\n"))
      ∧ ((∀ r ∈ records, r.status = utf8 "success") → code = 0)
      ∧ ((∃ r ∈ records, r.status = utf8 "error") → code = 2)
      ∧ ∀ arguments' trace, Options.read arguments' = .ok { o with trace } →
        (d.run name arguments' typed).1 = code
          ∧ (d.run name arguments' typed).2.disk = d'.disk := by
  intro lines commit code d'
  obtain ⟨s, hs⟩ : ∃ s : Session Folder,
      s = .start (some ⟨d.codec, Profile.root o.storage d.environment, disk⟩) := ⟨_, rfl⟩
  obtain ⟨r, hr⟩ : ∃ r, r = process o s 1 (Bytes.lines (d.disk.read o.input)) := ⟨_, rfl⟩
  have hsplit := numbered_splitOn 1 (d.disk.read o.input)
  rw [hsplit] at hlines
  have hreports : ∀ (τ : Type) [ProfileStorage τ] (storage : Option τ),
      Reports commit (.start storage) lines r.records
        ∧ r.session.storage = s.storage ∧ r.breakdown = none := by
    intro τ _ storage
    rw [hr, show lines = _ from hsplit]
    exact reports_process o hlines (by rw [hs]; rfl)
  obtain ⟨hfolder, hstorage, hbreakdown⟩ := hreports Folder none
  have hstatus := hfolder.status_eq
  have hrun := run_of_batch harguments hmode
    (run_run houtput hprofile hinput hcreate hne hs hr hstorage hbreakdown) name typed
  refine ⟨r.records, ?_, hfolder.length_eq, ?_,
    ⟨opening o.input output ++ r.shown, ?_⟩, ?_, ?_, ?_⟩
  · simp only [d', hrun]
    rw [Disk.read_write_of_create hcreate, rows?_write_of_status hstatus]
  · intro k number line record hline hrecord τ _ storage t
    have hrecordOf := (hreports τ storage).1.isRecordOf hline hrecord
    refine ⟨hrecordOf, fun hfailure ↦ ?_⟩
    rcases hrecordOf.status_eq with ⟨hsuccess, -⟩ | ⟨-, e, he⟩
    · exact absurd (hsuccess.symm.trans hfailure) success_ne_failure
    · exact Session.failsClean_evaluate line commit t e _ (Prod.ext he rfl)
  · simp only [d', hrun]
    rw [closing_eq hstatus]
    simp only [List.append_assoc]
  · intro hall
    simp only [code, hrun]
    exact if_pos (failures_eq_zero_iff.mpr fun r hr ↦ (hall r hr).trans_ne success_ne_failure)
  · rintro ⟨r, hr, hfailure⟩
    simp only [code, hrun]
    exact if_neg fun hzero ↦ failures_eq_zero_iff.mp hzero r hr hfailure
  · intro arguments' trace harguments'
    obtain ⟨hrecords, hsession, hend⟩ :=
      process_trace o trace s 1 (Bytes.lines (d.disk.read o.input))
    rw [← hr] at hrecords hsession hend
    have hrun' := run_of_batch harguments' hmode (run_run (o := { o with trace }) houtput hprofile
      hinput hcreate hne hs rfl (hsession ▸ hstorage) (hend.trans hbreakdown)) name typed
    simp only [code, d', hrun, hrun']
    rw [hrecords]
    exact ⟨rfl, rfl⟩

end

/-- A file with a blank line, a line without a value, one that cannot be read, and a last line that
needs the first one and has no line feed. The exit code is that of a run with errors, also where
tokens and nodes are shown. -/
theorem run_reports_failure :
    let input := utf8 "in.txt"
    let output := utf8 "out.csv"
    let name := utf8 "zappac"
    let arguments := [utf8 "run", input, utf8 "-o", output]
    let o : Options := { mode := .batch, input, output := some output }
    let d : Desk := {
      codec := Profile.Layout.codec
      disk := ⟨[], [], [([input], utf8 "$x = 0x10 \r\n\n$y\n1 + ?\n$x * 2")]⟩
      environment := .empty
      moment := ⟨2024, 1, 1, 0, 0, 0⟩ }
    let lines := numbered 1 ((d.disk.read input).splitOn '\n'.toUInt8)
    let records : List Record :=
      [⟨1, utf8 "$x = 0x10", utf8 "success", utf8 "0x10", []⟩,
        ⟨3, utf8 "$y", utf8 "error", [], utf8 "неизвестная переменная $y"⟩,
        ⟨4, utf8 "1 + ?", utf8 "error", [], utf8 "неожиданный символ ? на позиции 4"⟩,
        ⟨5, utf8 "$x * 2", utf8 "success", utf8 "32", []⟩]
    Options.read arguments = .ok o
      ∧ d.disk.canRead input = true
      ∧ (d.disk.create output).isOk = true
      ∧ d.disk.aim input ≠ d.disk.aim output
      ∧ (∀ p ∈ lines, ∀ c ∈ Command.ofNodes? (Line.read p.2).nodes, c = .clear)
      ∧ lines = [(1, utf8 "$x = 0x10"), (3, utf8 "$y"), (4, utf8 "1 + ?"), (5, utf8 "$x * 2")]
      ∧ Table.rows? ((d.run name arguments []).2.disk.read output)
        = some ([utf8 "line", utf8 "expression", utf8 "status", utf8 "result", utf8 "message"]
          :: records.map fun r ↦
            [utf8 (toString r.line), r.expression, r.status, r.result, r.message])
      ∧ (∃ shown behind, (d.run name arguments []).2.stdout
        = shown ++ (utf8 "  Всего выражений:  \x1b[36m4\x1b[0m\n"
          ++ utf8 "  Успешно:          \x1b[32m2\x1b[0m\n"
          ++ utf8 "  Ошибок:           \x1b[31m2\x1b[0m\n") ++ behind)
      ∧ (d.run name arguments []).1 = 2
      ∧ (d.run name (arguments ++ [utf8 "--trace"]) []).1 = 2 := by
  intro input output name arguments o d lines records
  have harguments : Options.read arguments = .ok o := by decide +kernel
  have hinput : d.disk.canRead input = true := by decide +kernel
  have hcreate : (d.disk.create output).isOk = true := by decide +kernel
  have hne : d.disk.aim input ≠ d.disk.aim output := by decide +kernel
  have hlines : ∀ p ∈ lines, ∀ c ∈ Command.ofNodes? (Line.read p.2).nodes, c = .clear := by
    decide +kernel
  have heq :
      lines = [(1, utf8 "$x = 0x10"), (3, utf8 "$y"), (4, utf8 "1 + ?"), (5, utf8 "$x * 2")] := by
    decide +kernel
  obtain ⟨disk, hdisk⟩ : ∃ disk, d.disk.create output = .ok disk := by
    cases hdisk : d.disk.create output with
    | ok disk => exact ⟨disk, rfl⟩
    | error e =>
      rw [hdisk] at hcreate
      cases hcreate
  obtain ⟨records', htable, hlength, hrecords, ⟨shown, hshown⟩, -, hfailure, htrace⟩ :=
    run_reports harguments rfl rfl rfl hinput hdisk hne hlines name []
  -- what an evaluator without any storage comes to at each of the lines decides its record
  have hrecordOf : ∀ k number line record, lines[k]? = some (number, line) →
      records'[k]? = some record → IsRecordOf number line
        (Action.run (Session.evaluate line true) ((Session.start (none : Option Folder)).run
          ((lines.take k).map fun p ↦ .line p.2 true))).1 record :=
    fun k number line record hline hrecord ↦ (hrecords k number line record hline hrecord _ _).1
  obtain rfl : records' = records := by
    have hfour : records'.length = 4 := hlength.trans (congrArg List.length heq)
    rcases records' with _ | ⟨first, _ | ⟨second, _ | ⟨third, _ | ⟨fourth, _ | ⟨fifth, rest⟩⟩⟩⟩⟩
    · cases hfour
    · cases hfour
    · cases hfour
    · cases hfour
    · have hstray : (Line.Error.stray (utf8 "?") 4).fault.message
          = utf8 "неожиданный символ ? на позиции 4" := by decide +kernel
      have hfirst := hrecordOf 0 1 _ first (congrArg (·[0]?) heq) rfl
      have hsecond := hrecordOf 1 3 _ second (congrArg (·[1]?) heq) rfl
      have hthird := hrecordOf 2 4 _ third (congrArg (·[2]?) heq) rfl
      have hfourth := hrecordOf 3 5 _ fourth (congrArg (·[3]?) heq) rfl
      rw [hfirst.unique (.success (utf8 "0x10")) (by decide +kernel),
        hsecond.unique (.evaluating (.unknownVariable (utf8 "$y") 0)) (by decide +kernel),
        hthird.unique (.reading (.stray (utf8 "?") 4)) (by decide +kernel),
        hfourth.unique (.success (utf8 "32")) (by decide +kernel), hstray]
      rfl
    · cases hfour
  have hcode := hfailure ⟨_, List.mem_cons_of_mem _ List.mem_cons_self, rfl⟩
  refine ⟨harguments, hinput, hcreate, hne, hlines, heq, htable, ?_, hcode, ?_⟩
  · refine ⟨d.stdout ++ shown ++ utf8 "\x1b[1mСтатистика:\n\x1b[0m",
      utf8 "  Время обработки:  0 мс\n\n\x1b[32mРезультаты сохранены в: "
        ++ Bytes.quoted output ++ utf8 "\x1b[0m\n\n", ?_⟩
    have htotals : totals records = utf8 "  Всего выражений:  \x1b[36m4\x1b[0m\n"
        ++ utf8 "  Успешно:          \x1b[32m2\x1b[0m\n"
        ++ utf8 "  Ошибок:           \x1b[31m2\x1b[0m\n" := by decide +kernel
    rw [hshown, htotals]
    simp only [List.append_assoc]
  · exact (htrace _ true (Options.read_append_trace harguments)).1.trans hcode

end Batch

end Abacus
