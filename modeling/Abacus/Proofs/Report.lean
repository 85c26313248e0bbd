import Abacus.Program.Batch
import Abacus.Proofs.Bytes
import Mathlib.Data.List.Forall2

/-!
# Reports read back

A table of comma-separated values is read byte by byte (`Table.rows?`). What a byte means depends on
where in its field it stands: commas and line feeds separate outside quotation marks and are text
between them, and between them two quotation marks stand for one. Whatever a field in quotation
marks holds, behind it a reader stands outside of them again (`Table.reads_field`), so no text can
reach beyond its own field, and a report is read as its column names and its records.
-/

namespace Abacus

namespace Table

/-! ## Reading a table -/

/-- Where in a field a reader stands. -/
inductive Place where
  /-- In front of it. -/
  | front
  /-- In a field without quotation marks. -/
  | bare
  /-- Between quotation marks. -/
  | quoted
  /-- Behind a quotation mark that is the last byte of the field or the first of two. -/
  | closing
  deriving DecidableEq, Repr

/-- A table up to some byte of it. -/
structure Reader where
  /-- The rows in front of this one. -/
  rows : List (List Bytes)
  /-- The fields of this row in front of this one. -/
  fields : List Bytes
  /-- The text of this field so far. -/
  text : Bytes
  /-- Where in the field the reader stands. -/
  place : Place
  deriving DecidableEq, Repr

namespace Reader

/-- Nothing has been read. -/
def start : Reader := ⟨[], [], [], .front⟩

/-- The reader behind a comma. -/
def endField (r : Reader) : Reader := ⟨r.rows, r.fields ++ [r.text], [], .front⟩

/-- The reader behind a line feed. -/
def endRow (r : Reader) : Reader := ⟨r.rows ++ [r.fields ++ [r.text]], [], [], .front⟩

/-- The reader behind one more byte. A quotation mark opens a field in front of it, and nothing but
a separator follows the one that closes it. -/
def step (r : Reader) (b : UInt8) : Option Reader :=
  match r.place with
  | .quoted =>
    some (if b = Bytes.quote then { r with place := .closing }
      else { r with text := r.text ++ [b] })
  | place =>
    if b = ','.toUInt8 then some r.endField
    else if b = '\n'.toUInt8 then some r.endRow
    else if b = Bytes.quote then
      match place with
      | .front => some { r with place := .quoted }
      | .closing => some { r with text := r.text ++ [b], place := .quoted }
      | _ => none
    else if place = .closing then none
    else some { r with text := r.text ++ [b], place := .bare }

/-- The rows at the end of a table, whose last line feed may be missing. -/
def finish (r : Reader) : Option (List (List Bytes)) :=
  if r.place = .quoted then none
  else if r.fields = [] ∧ r.place = .front then some r.rows
  else some r.endRow.rows

end Reader

/-- The rows of a table, each with its fields. -/
def rows? (s : Bytes) : Option (List (List Bytes)) :=
  (s.foldlM Reader.step .start).bind Reader.finish

/-- A text that needs no quotation marks. -/
def IsBare (s : Bytes) : Prop := ∀ b ∈ s, b ≠ ','.toUInt8 ∧ b ≠ Bytes.quote ∧ b ≠ '\n'.toUInt8

instance : DecidablePred IsBare := fun s ↦
  inferInstanceAs (Decidable (∀ b ∈ s, b ≠ ','.toUInt8 ∧ b ≠ Bytes.quote ∧ b ≠ '\n'.toUInt8))

/-! ## Fields -/

/-- A field is read as a text, and behind it the reader is not between quotation marks. -/
def ReadsAs (s text : Bytes) : Prop :=
  ∀ rows fields, ∃ place, place ≠ .quoted
    ∧ s.foldlM Reader.step ⟨rows, fields, [], .front⟩ = some ⟨rows, fields, text, place⟩

variable {rows : List (List Bytes)} {fields : List Bytes} {text : Bytes} {place : Place}

theorem step_comma (h : place ≠ .quoted) : Reader.step ⟨rows, fields, text, place⟩ ','.toUInt8
    = some ⟨rows, fields ++ [text], [], .front⟩ := by
  cases place with
  | quoted => exact absurd rfl h
  | front | bare | closing => rfl

theorem step_newline (h : place ≠ .quoted) : Reader.step ⟨rows, fields, text, place⟩ '\n'.toUInt8
    = some ⟨rows ++ [fields ++ [text]], [], [], .front⟩ := by
  cases place with
  | quoted => exact absurd rfl h
  | front | bare | closing => rfl

theorem step_bare {b : UInt8} (hb : b ≠ ','.toUInt8 ∧ b ≠ Bytes.quote ∧ b ≠ '\n'.toUInt8)
    (h : place = .front ∨ place = .bare) : Reader.step ⟨rows, fields, text, place⟩ b
      = some ⟨rows, fields, text ++ [b], .bare⟩ := by
  obtain ⟨hcomma, hquote, hnewline⟩ := hb
  rcases h with rfl | rfl
  · simp [Reader.step, hcomma, hquote, hnewline]
  · simp [Reader.step, hcomma, hquote, hnewline]

theorem reads_bare {s : Bytes} (h : IsBare s) : ReadsAs s s := by
  intro rows fields
  -- the text in front of the rest of the field does not matter
  have key : ∀ text place, place = .front ∨ place = .bare → ∃ place', place' ≠ .quoted
      ∧ s.foldlM Reader.step ⟨rows, fields, text, place⟩
        = some ⟨rows, fields, text ++ s, place'⟩ := by
    induction s with
    | nil =>
      intro text place hplace
      refine ⟨place, ?_, by simp⟩
      rcases hplace with rfl | rfl
      · nofun
      · nofun
    | cons b s ih =>
      intro text place hplace
      obtain ⟨hb, hs⟩ := List.forall_mem_cons.mp h
      obtain ⟨place', hplace', hrest⟩ := ih hs (text ++ [b]) .bare (.inr rfl)
      refine ⟨place', hplace', ?_⟩
      rw [List.foldlM_cons, step_bare hb hplace]
      simpa using hrest
  exact key [] .front (.inl rfl)

/-- Between quotation marks every byte is text, and of two quotation marks one is. -/
theorem foldlM_quoted (s : Bytes) :
    (s.flatMap fun b ↦ if b = Bytes.quote then [b, b] else [b]).foldlM Reader.step
        ⟨rows, fields, text, .quoted⟩
      = some ⟨rows, fields, text ++ s, .quoted⟩ := by
  induction s generalizing text with
  | nil => simp
  | cons b s ih =>
    have hb : (if b = Bytes.quote then [b, b] else [b]).foldlM Reader.step
        ⟨rows, fields, text, .quoted⟩ = some ⟨rows, fields, text ++ [b], .quoted⟩ := by
      split
      · next hquote =>
        subst hquote
        rfl
      · next hquote => simp [Reader.step, hquote]
    rw [List.flatMap_cons, List.foldlM_append, hb]
    have hs := @ih (text ++ [b])
    simpa using hs

theorem reads_field (text : Bytes) : ReadsAs (Report.field text) text := by
  intro rows fields
  refine ⟨.closing, nofun, ?_⟩
  rw [Report.field, List.cons_append, List.foldlM_cons]
  show List.foldlM Reader.step ⟨rows, fields, [], .quoted⟩ _ = _
  rw [List.foldlM_append, foldlM_quoted]
  rfl

/-! ## Rows -/

/-- Fields with commas between them and a line feed behind them are read as one row. -/
theorem foldlM_row {written texts : List Bytes} (h : List.Forall₂ ReadsAs written texts)
    (hne : written ≠ []) :
    (Bytes.joinWith (utf8 ",") written ++ utf8 "\n").foldlM Reader.step ⟨rows, fields, [], .front⟩
      = some ⟨rows ++ [fields ++ texts], [], [], .front⟩ := by
  induction h generalizing fields with
  | nil => exact absurd rfl hne
  | @cons s text written texts hs hrest ih =>
    obtain ⟨place, hplace, hread⟩ := hs rows fields
    rcases hrest with _ | ⟨hs', hrest'⟩
    · rw [Bytes.joinWith, List.foldlM_append, hread]
      exact (bind_pure _).trans (step_newline hplace)
    · rw [Bytes.joinWith.eq_3 _ _ _ (List.cons_ne_nil _ _), List.append_assoc, List.append_assoc,
        List.foldlM_append, hread]
      show (Reader.step ⟨rows, fields, text, place⟩ ','.toUInt8).bind _ = _
      rw [step_comma hplace]
      have hrow := @ih (fields ++ [text]) (List.cons_ne_nil _ _)
      simpa using hrow

end Table

/-! ## Reports -/

/-- The texts of a record, in the order of the columns. -/
def Record.fields (r : Record) : List Bytes :=
  [Digits.ofNat 10 r.line, r.expression, r.status, r.result, r.message]

theorem Digits.ofNat_injective {base : Nat} (h2 : 2 ≤ base) (h16 : base ≤ 16) :
    Function.Injective (ofNat base) := by
  intro n n' h
  have hread := congrArg (toNat? base) h
  rw [toNat?_ofNat h2 h16, toNat?_ofNat h2 h16] at hread
  exact Option.some.inj hread

theorem Record.fields_injective : Function.Injective Record.fields := by
  rintro ⟨line, expression, status, result, message⟩ ⟨line', _, _, _, _⟩ h
  simp only [fields, List.cons.injEq, and_true] at h
  obtain ⟨hline, rfl, rfl, rfl, rfl⟩ := h
  obtain rfl := Digits.ofNat_injective (by decide) (by decide) hline
  rfl

namespace Report

open Table (IsBare Reader ReadsAs)

/-- The names of the columns. -/
def columns : List Bytes :=
  [utf8 "line", utf8 "expression", utf8 "status", utf8 "result", utf8 "message"]

theorem header_eq : header = Bytes.joinWith (utf8 ",") columns ++ utf8 "\n" := by decide +kernel

theorem isBare_ofNat (n : Nat) : IsBare (Digits.ofNat 10 n) := by
  intro b hb
  have hdigit := Digits.isDigit_of_mem_ofNat hb
  have hne : ∀ c : UInt8, Bytes.isDigit c = false → b ≠ c := by
    rintro c hc rfl
    rw [hdigit] at hc
    cases hc
  exact ⟨hne _ rfl, hne _ rfl, hne _ rfl⟩

variable {rows : List (List Bytes)}

theorem foldlM_header : header.foldlM Reader.step .start
    = some ⟨[columns], [], [], .front⟩ := by
  have hbare : ∀ name ∈ columns, ReadsAs name name := by
    have hall : ∀ name ∈ columns, IsBare name := by decide +kernel
    exact fun name hname ↦ Table.reads_bare (hall name hname)
  rw [header_eq]
  exact Table.foldlM_row (List.forall₂_same.mpr hbare) (List.cons_ne_nil _ _)

theorem foldlM_record {r : Record} (h : IsBare r.status) :
    (row r).foldlM Reader.step ⟨rows, [], [], .front⟩
      = some ⟨rows ++ [r.fields], [], [], .front⟩ := by
  have hfields : List.Forall₂ ReadsAs [Digits.ofNat 10 r.line, Report.field r.expression, r.status,
      Report.field r.result, Report.field r.message] r.fields := by
    refine .cons (Table.reads_bare (isBare_ofNat r.line)) (.cons (Table.reads_field _) ?_)
    exact .cons (Table.reads_bare h)
      (.cons (Table.reads_field _) (.cons (Table.reads_field _) .nil))
  exact Table.foldlM_row hfields (List.cons_ne_nil _ _)

theorem foldlM_records {records : List Record} (h : ∀ r ∈ records, IsBare r.status) :
    (records.flatMap row).foldlM Reader.step ⟨rows, [], [], .front⟩
      = some ⟨rows ++ records.map Record.fields, [], [], .front⟩ := by
  induction records generalizing rows with
  | nil => simp
  | cons r records ih =>
    obtain ⟨hr, hrest⟩ := List.forall_mem_cons.mp h
    rw [List.flatMap_cons, List.foldlM_append, foldlM_record hr]
    have hrecords := @ih (rows ++ [r.fields]) hrest
    simpa using hrecords

/-- A report is read as its column names and the texts of its records. -/
theorem rows?_of_isBare {records : List Record} (h : ∀ r ∈ records, IsBare r.status) :
    Table.rows? (write records) = some (columns :: records.map Record.fields) := by
  rw [Table.rows?, write, List.foldlM_append, foldlM_header]
  show ((records.flatMap row).foldlM Reader.step ⟨[columns], [], [], .front⟩).bind _ = _
  rw [foldlM_records h]
  rfl

/-- **Reports lose nothing.** Let no status have a comma, a quotation mark or a line feed in it; the
other texts may be anything. Then a report is read as its column names and, in their order and field
for field, its records. So no other records have the same report. -/
theorem rows?_write {records : List Record} (h : ∀ r ∈ records, IsBare r.status) :
    Table.rows? (write records) = some (columns :: records.map Record.fields)
    ∧ ∀ records' : List Record, (∀ r ∈ records', IsBare r.status) → write records' = write records →
      records' = records := by
  refine ⟨rows?_of_isBare h, fun records' h' heq ↦ ?_⟩
  have hrows := rows?_of_isBare h'
  rw [heq, rows?_of_isBare h, Option.some.injEq, List.cons.injEq] at hrows
  exact (List.map_injective_iff.mpr Record.fields_injective hrows.2).symm

/-- A line with separators and quotation marks in it, some of them as in the end of a row. -/
theorem rows?_write_forged :
    let forged := utf8 "\",success,\"\"\"\r\n2,\"\x00"
    let records : List Record :=
      [⟨1, forged, failure, [], utf8 ",\""⟩, ⟨3, [], success, forged, []⟩]
    (∀ r ∈ records, IsBare r.status)
      ∧ Table.rows? (write records) = some [columns,
        [utf8 "1", forged, utf8 "error", [], utf8 ",\""],
        [utf8 "3", [], utf8 "success", forged, []]] := by
  intro forged records
  have h : ∀ r ∈ records, IsBare r.status := by decide +kernel
  have hline : ∀ n, n < 10 → Digits.ofNat 10 n = [Digits.digit n] := fun n ↦ Digits.ofNat_of_lt
  refine ⟨h, (rows?_write h).1.trans ?_⟩
  simp only [records, List.map_cons, List.map_nil, Record.fields, hline 1 (by decide),
    hline 3 (by decide)]
  decide +kernel

end Report

end Abacus
