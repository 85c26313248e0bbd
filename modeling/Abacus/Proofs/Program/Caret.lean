import Abacus.Program.Turn
import Abacus.Proofs.Evaluation.Footprint
import Abacus.Proofs.Line.Prefixes
import Abacus.Proofs.Session.Outcomes

/-!
# The caret stands below the fault

A caret is put behind as many dots as the line has columns up to the offset of a fault, and an
offset counts bytes. The two agree because a fault never lies behind the place where the scan of the
line ended: up to there the line is lexemes, and every byte of a lexeme is a character of its own. A
line that is evaluated was scanned to its end, and the offsets of its nodes are those of its tokens.
-/

namespace Abacus

/-! ## Errors of reading -/

namespace Line

theorem Error.Arises.position_le {ending : Ending} {ts : List Token} {e : Error}
    (h : e.Arises ending ts) (hts : ∀ t ∈ ts, t.position ≤ ending.position) :
    e.fault.position ≤ ending.position := by
  cases h with
  | stray h | unclosed h | incomplete h =>
    rw [h]
    exact Nat.le_refl _
  | unexpected h => exact hts _ h

theorem position_le_of_mem_nodes {line : Bytes} (h : (read line).error = none) {n : Node}
    (hn : n ∈ (read line).nodes) : n.position ≤ line.length := by
  obtain ⟨hstray, ns, hns⟩ := sentence_of_read h
  rw [read_of_sentence hstray hns] at hn
  rcases List.mem_append.mp hn with hn | hn
  · obtain ⟨t, ht, hposition⟩ := List.mem_map.mp
      (hns.positions_sublist.subset (List.mem_map_of_mem hn))
    obtain ⟨front, last, hscanned⟩ := exists_scanned line
    have hmem := (List.mem_filter.mp ht).1
    rw [hscanned.scan_eq] at hmem
    rw [← hposition]
    rcases List.mem_append.mp hmem with hmem | hmem
    · exact (hscanned.cuts t hmem).2.le.trans hscanned.position_le
    · rw [List.mem_singleton.mp hmem]
      exact hscanned.position_le
  · rw [List.mem_singleton.mp hn]

end Line

/-! ## Errors of carrying out a line -/

namespace Session

open Evaluation Turn.Outcome

variable {σ : Type} [ProfileStorage σ] {P : Nat → Prop} {s s' : Session σ} {e : Failure} {f : Fault}

omit [ProfileStorage σ] in
theorem position_of_run_consult {α : Type} {Q : α → Prop}
    {evaluation : Store → Except Evaluation.Error α} (hreports : Reports P Q (evaluation s.store))
    (h : Action.run (consult evaluation) s = (.error e, s')) (hf : ofFailure e = .fault f) :
    P f.position := by
  rw [run_consult] at h
  obtain ⟨e', herror, rfl⟩ := mapError_eq_error_iff.mp (Prod.mk.inj h).1
  cases hf
  exact hreports.of_eq_error herror

theorem position_of_run_exec (hzero : P 0) (hstore : AllNumbers s.store) {nodes : List Node}
    (hnodes : ∀ n ∈ nodes, At P n) {commit : Bool}
    (h : Action.run (exec nodes commit) s = (.error e, s')) (hf : ofFailure e = .fault f) :
    P f.position := by
  rcases exec_cases (σ := σ) nodes commit with ⟨-, hexec⟩ | ⟨position, hstopped, hexec⟩
    | ⟨first, rest, rfl, -, -, hexec⟩
  · rw [hexec] at h
    cases h
  · rw [hexec] at h
    cases h
    cases hf
    obtain ⟨n, hn, rfl⟩ := Option.map_eq_some_iff.mp hstopped
    exact hnodes n (List.mem_of_getLast? (Option.filter_eq_some_iff.mp hn).1)
  rw [hexec] at h
  obtain ⟨hfirst, hrest⟩ := List.forall_mem_cons.mp hnodes
  unfold execFrom at h
  split at h
  · cases h
  · cases h
  · obtain ⟨b, rfl⟩ := exists_broken_of_run_load h
    cases hf
  · next radix _ =>
    exact position_of_run_consult (reports_answerIn hstore hzero hfirst hrest radix) h hf
  · -- an assignment fails where the expression behind it does
    rw [Action.run_bind] at h
    split at h
    · cases commit with
      | false | true => cases h
    · next hconsult =>
      cases h
      exact position_of_run_consult (reports_answer hstore hzero hrest) hconsult hf
  · exact position_of_run_consult (reports_answer hstore hzero hnodes) h hf

/-- Where all variables are numbers, a line has no fault behind the place where its scan ends. -/
theorem position_le_of_run_evaluate (hstore : AllNumbers s.store) {line : Bytes}
    {front : List Token} {last : Token} (hscanned : Line.Scanned line front last) {commit : Bool}
    (h : Action.run (evaluate line commit) s = (.error e, s')) (hf : ofFailure e = .fault f) :
    f.position ≤ last.position := by
  rw [hscanned.position_eq]
  unfold evaluate at h
  split at h
  · next hread =>
    cases h
    cases hf
    refine (Line.arises_of_read hread).position_le fun t ht ↦ ?_
    rw [← hscanned.position_eq]
    exact (hscanned.cuts t (hscanned.tokens t ht).1).2.le
  · next hread =>
    have hending : (Line.lexemes line).ending.position = line.length := by
      rw [Line.lexemes_of_no_stray (Line.sentence_of_read hread).1]
      rfl
    rw [hending]
    exact position_of_run_exec (P := (· ≤ line.length)) (Nat.zero_le _) hstore
      (fun n hn ↦ Line.position_le_of_mem_nodes hread hn) h hf

end Session

/-! ## The caret -/

namespace Turn

open Terminal

theorem columnsBefore_of_isAscii {line : Bytes} {position : Nat} (hle : position ≤ line.length)
    (h : ∀ b ∈ line.take position, Bytes.IsAscii b) : columnsBefore line position = position := by
  rw [columnsBefore, Bytes.columns_of_isAscii h, List.length_take, Nat.min_eq_left hle]

theorem caret_eq (line : Bytes) (position : Nat) :
    caret line position = utf8 "  " ++ line ++ utf8 "\n  \x1b[90m"
      ++ List.replicate (columnsBefore line position) '.'.toUInt8
      ++ utf8 "\x1b[0m\x1b[31m\x1b[1m^\x1b[0m\n" := by
  have hfront : newline ++ (utf8 "  " ++ Style.code .gray) = utf8 "\n  \x1b[90m" := by
    decide +kernel
  have hbehind :
      reset ++ (Style.code .red ++ (Style.code .bold ++ (utf8 "^" ++ (reset ++ newline))))
      = utf8 "\x1b[0m\x1b[31m\x1b[1m^\x1b[0m\n" := by
    decide +kernel
  rw [← hfront, ← hbehind]
  simp only [caret, styled, List.flatMap_cons, List.flatMap_nil, List.append_nil, List.append_assoc]

variable {σ : Type} [ProfileStorage σ]

/-- **The caret stands below the fault.** A session begins without variables and with a storage that
has no profiles of its own, or with none. After any lines, committed or not, and any requests to
forget, save and load the variables, let a line have a fault. Its offset lies in the line or at its
end, and all bytes in front of it are characters of their own. So there are as many dots in front of
the caret as the offset says, and if the line is a text, as many characters of the text in front of
the place at fault, whatever characters follow. The dots are gray and the caret is bold and red. -/
theorem caret_of_fault {storage : Option σ}
    (hstorage : ∀ given, storage = some given → ProfileStorage.Fresh given)
    {steps : List Session.Step} (hsteps : ∀ t ∈ steps, ∀ nodes commit, t ≠ .nodes nodes commit)
    {line : Bytes} {commit : Bool} {e : Session.Failure} {s : Session σ}
    (h : Session.Action.run (Session.evaluate line commit) ((Session.start storage).run steps)
      = (.error e, s)) {f : Fault} (hf : Outcome.ofFailure e = .fault f) :
    f.position ≤ line.length ∧ (∀ b ∈ line.take f.position, Bytes.IsAscii b)
      ∧ caret line f.position = utf8 "  " ++ line ++ utf8 "\n  \x1b[90m"
        ++ List.replicate f.position '.'.toUInt8 ++ utf8 "\x1b[0m\x1b[31m\x1b[1m^\x1b[0m\n"
      ∧ ∀ text : String, line = utf8 text → ∃ before after, text = before ++ after
        ∧ line.take f.position = utf8 before ∧ before.length = f.position := by
  have hstore : Evaluation.AllNumbers ((Session.start storage).run steps).store :=
    fun name v hv ↦ (Session.assigned_sound.every hstorage hsteps name v hv).2.valid.number?_ne_none
  obtain ⟨front, last, hscanned⟩ := Line.exists_scanned line
  have hle := Session.position_le_of_run_evaluate hstore hscanned h hf
  have hascii : ∀ b ∈ line.take f.position, Bytes.IsAscii b := fun b hb ↦
    Token.isAscii_of_mem_take hscanned.scan_eq b ((List.take_prefix_take_left hle).subset hb)
  have hlength := hle.trans hscanned.position_le
  have hcolumns := columnsBefore_of_isAscii hlength hascii
  refine ⟨hlength, hascii, by rw [caret_eq, hcolumns], fun text htext ↦ ?_⟩
  have hsplit : line.take f.position ++ line.drop f.position
      = text.toList.flatMap String.utf8EncodeChar := by
    rw [List.take_append_drop, htext, Bytes.utf8_eq_flatMap]
  obtain ⟨before, after, hchars, hbefore, -⟩ := Bytes.exists_split hascii hsplit
  have htake : line.take f.position = utf8 (.ofList before) := by
    rw [hbefore, Bytes.utf8_eq_flatMap, String.toList_ofList]
  refine ⟨.ofList before, .ofList after, ?_, htake, ?_⟩
  · rw [← String.toList_inj, hchars]
    simp
  · rw [← Bytes.columns_utf8, ← htake]
    exact hcolumns

/-- A character of two bytes where none can be read, behind an assignment. -/
theorem caret_of_fault_stray :
    let storage : Option Shelf := some ⟨.empty, false⟩
    let steps : List Session.Step := [.line (utf8 "$x = 1") true]
    let line := utf8 "$x + §3§"
    let e := Session.Failure.reading (.stray (utf8 "§") 5)
    let f := (Line.Error.stray (utf8 "§") 5).fault
    let run := Session.Action.run (Session.evaluate line true) ((Session.start storage).run steps)
    (∀ given, storage = some given → ProfileStorage.Fresh given)
      ∧ (∀ t ∈ steps, ∀ nodes commit, t ≠ .nodes nodes commit)
      ∧ run = (.error e, run.2) ∧ Outcome.ofFailure e = .fault f ∧ f.position = 5
      ∧ caret line f.position
        = utf8 "  $x + §3§\n  \x1b[90m.....\x1b[0m\x1b[31m\x1b[1m^\x1b[0m\n"
      ∧ ∃ before after, "$x + §3§" = before ++ after
        ∧ line.take f.position = utf8 before ∧ before.length = f.position := by
  intro storage steps line e f run
  have hstorage : ∀ given, storage = some given → ProfileStorage.Fresh given := by
    intro given hgiven
    obtain rfl := Option.some.inj hgiven
    exact Shelf.fresh_of_empty rfl
  have hsteps : ∀ t ∈ steps, ∀ nodes commit, t ≠ .nodes nodes commit := by
    intro t ht nodes commit
    obtain rfl := List.mem_singleton.mp ht
    nofun
  have hrun : run = (.error e, run.2) := Prod.ext (by decide +kernel) rfl
  obtain ⟨-, -, hcaret, htext⟩ := caret_of_fault hstorage hsteps hrun rfl
  exact ⟨hstorage, hsteps, hrun, rfl, rfl, hcaret.trans (by decide +kernel), htext _ rfl⟩

end Turn

end Abacus
