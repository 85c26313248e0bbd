import Abacus.Profile
import Abacus.Proofs.Session.Answers
import Abacus.Proofs.Session.Failure

/-!
# What lines change

What a line leaves of a session, and on what that depends.
-/

namespace Abacus

/-!
## What a line leaves of a session

Whatever a line says, the session behind it is the one before it, or the one that a command leaves,
or one with a variable set to the answer of an assignment. Laws about all histories of a session go
by these cases and do not look into lines again.
-/

namespace Session

variable {σ : Type} [ProfileStorage σ]

/-- What the evaluation of a line may leave of a session. -/
inductive Leaves (s : Session σ) (line : Bytes) (commit : Bool) : Session σ → Prop where
  | unchanged : Leaves s line commit s
  | cleared : Leaves s line commit s.clear
  | saved (name : Bytes) : Leaves s line commit (s.save name).2
  | loaded (name : Bytes) :
    Leaves s line commit (Action.run (ExceptT.adapt Failure.broken (load name)) s).2
  | assigned {target : Bytes} {position : Nat} {e : Expr} {text : Bytes}
      (hread : (Line.read line).error = none)
      (hof : (Statement.assign target position e).IsOf line)
      (hanswer : (Statement.assign target position e).passAnswer s.store = .ok text)
      (hcommit : commit = true) :
    Leaves s line commit (s.assign target position text)

theorem leaves_statement {statement : Statement} {line : Bytes}
    (hread : (Line.read line).error = none) (hof : statement.IsOf line) (commit : Bool)
    (s : Session σ) :
    Leaves s line commit (Action.run (exec (Line.read line).nodes commit) s).2 := by
  rw [hof.2, run_exec_statement hof.1]
  cases hanswer : statement.passAnswer s.store with
  | error e => exact .unchanged
  | ok text =>
    cases statement with
    | plain | output => exact .unchanged
    | assign target position e =>
      cases commit with
      | false => exact .unchanged
      | true => exact .assigned hread hof hanswer rfl

/-- The nodes of a line leave what the line does, even if it was not read to its end. -/
theorem leaves_exec_read (line : Bytes) (commit : Bool) (s : Session σ) :
    Leaves s line commit (Action.run (exec (Line.read line).nodes commit) s).2 := by
  by_cases hread : (Line.read line).error = none
  · obtain ⟨hstray, ns, hsentence⟩ := Line.sentence_of_read hread
    have hnodes : (Line.read line).nodes = ns ++ [⟨.endOfLine, line.length⟩] := by
      rw [Line.read_of_sentence hstray hsentence]
    rcases hsentence.cases with rfl | ⟨p, rfl⟩ | ⟨name, p, rfl⟩ | ⟨name, p, rfl⟩
      | ⟨statement, hgraded, rfl⟩
    · rw [hnodes]
      exact .unchanged
    · rw [hnodes]
      exact .cleared
    · rw [hnodes]
      exact .saved name
    · rw [hnodes]
      exact .loaded name
    · exact leaves_statement hread ⟨hgraded, hnodes⟩ commit s
  · obtain ⟨position, hexec⟩ := exec_read_eq_throw (σ := σ) hread commit
    rw [hexec, Action.run_throw]
    exact .unchanged

theorem leaves_evaluate (line : Bytes) (commit : Bool) (s : Session σ) :
    Leaves s line commit (Action.run (evaluate line commit) s).2 := by
  unfold evaluate
  split
  · exact .unchanged
  · exact leaves_exec_read line commit s

/-! ### Profiles in memory -/

section Shelf

variable {s : Session Shelf} {shelf : Shelf}

theorem save_shelf (hstorage : s.storage = some shelf) (name : Bytes) :
    s.save name = if shelf.readOnly then
        (utf8 "Не удалось сохранить профиль: " ++ StorageError.unavailable.message, s)
      else (profileAnswer name "сохранён" s.store.size,
        { s with
          storage := some { shelf with profiles := shelf.profiles.insert name s.store }
          saves := s.saves + 1 }) := by
  obtain ⟨store, storage, saves⟩ := s
  obtain rfl : storage = some shelf := hstorage
  by_cases hreadOnly : shelf.readOnly = true
  · simp [save, ProfileStorage.save, Shelf.save, hreadOnly]
  · simp [save, ProfileStorage.save, Shelf.save, hreadOnly]

theorem find?_of_load {name : Bytes} {profile : Store}
    (h : ProfileStorage.load shelf name = .ok (.ok profile)) :
    shelf.profiles.find? name = some profile := by
  simp only [ProfileStorage.load, Shelf.load, Except.ok.injEq] at h
  split at h
  · next hfind =>
    cases h
    exact hfind
  · cases h

theorem run_load_shelf (hstorage : s.storage = some shelf) (name : Bytes) :
    Action.run (ExceptT.adapt Failure.broken (load name)) s
      = match shelf.profiles.find? name with
        | none => (.ok (utf8 "Не удалось загрузить профиль: "
            ++ (StorageError.missingProfile name).message), s)
        | some profile => (.ok (profileAnswer name "загружен" profile.size),
            { s with store := s.store.overlay profile }) := by
  rw [run_load, hstorage]
  simp only [ProfileStorage.load, Shelf.load]
  cases shelf.profiles.find? name with
  | none | some => rfl

end Shelf

/-!
## What an assignment keeps

An assignment keeps the text of its value and nothing else: the radix of the variable that it sets
is found again from that text. This keeps the number that was computed, because whatever is computed
shows its radix, and so does a literal. Only a variable that is copied as it stands need not: a
profile may have given it a radix that its text does not show.
-/

/-- **Assignments keep their number.** When an assignment that is committed succeeds, in whatever
session, its expression evaluates to some number, and the variable is set to the text of the value
in the radix that the text shows. Unless the expression is a variable alone whose radix is not the
one that its text shows, the variable is that number. -/
theorem assign_keeps_number {line target text : Bytes} {position : Nat} {e : Expr}
    {s s' : Session σ} (hread : (Line.read line).error = none)
    (hof : (Statement.assign target position e).IsOf line)
    (hrun : Action.run (evaluate line true) s = (.ok text, s')) :
    ∃ n x, Evaluation.evaluate s.store (e.nodes ++ [⟨.endOfLine, line.length⟩]) = .ok (n, x)
      ∧ text = n.text
      ∧ s'.store.find? target = some ⟨.ofText text, position⟩
      ∧ ((∀ name p v, e = .var name p → s.store.find? name = some v →
          v.numeral.radix = Radix.detect v.numeral.text) →
        (Numeral.ofText text).number? = some x) := by
  have hexec : (evaluate line true : Action σ Bytes) = exec (Line.read line).nodes true := by
    rw [evaluate, hread]
  rw [hexec, hof.2, run_exec_statement hof.1] at hrun
  cases hanswer : (Statement.assign target position e).passAnswer s.store with
  | error =>
    rw [hanswer] at hrun
    cases hrun
  | ok answer =>
    rw [hanswer] at hrun
    cases hrun
    obtain ⟨v, hv, hanswer⟩ := bind_eq_ok_iff.mp hanswer
    obtain ⟨x, hx, hanswer⟩ := bind_eq_ok_iff.mp hanswer
    cases hanswer
    refine ⟨v.numeral, x, ?_, rfl, ?_, fun hvar ↦ ?_⟩
    · rw [Evaluation.evaluate_nodes (e := e) hof.1 (.inr ⟨_, rfl⟩), hv, ok_bind, hx, ok_bind]
    · show (s.store.insert target _).find? target = _
      rw [NameMap.find?_insert, if_pos rfl]
    · have hshows : v.numeral.ShowsRadix := by
        have he : e.ShowsRadix := Statement.showsRadix_of_isOf hread hof
        rcases Expr.showsRadix_or_of_passValue he hv with h | ⟨name, p, heq, hfind⟩
        · exact h
        · exact hvar name p v heq hfind
      rw [hshows.ofText_text, ← Expr.toOption_readNumber, hx]
      rfl

/-- A sum with a variable that a profile has in another radix than its text shows. -/
theorem assign_keeps_number_sum :
    let profile : Store := NameMap.empty.insert (utf8 "$x") ⟨.ofRadix (utf8 "010") .dec, 0⟩
    let s := (start (some (⟨NameMap.empty.insert (utf8 "p") profile, false⟩ : Shelf))).run
      [.load (utf8 "p")]
    let line := utf8 "$y = $x + 1"
    let e : Expr := .binary .add 8 (.var (utf8 "$x") 5) (.number (.ofText (utf8 "1")) 10)
    (Line.read line).error = none
      ∧ (Statement.assign (utf8 "$y") 0 e).IsOf line
      ∧ (Action.run (evaluate line true) s).1 = .ok (utf8 "11")
      ∧ (Action.run (evaluate line true) s).2.store.find? (utf8 "$y")
        = some ⟨.ofText (utf8 "11"), 0⟩
      ∧ (Numeral.ofText (utf8 "11")).number? = some (.ofInt 11) := by
  intro profile s line e
  have hread : (Line.read line).error = none := by decide +kernel
  have hgraded : e.Graded := ⟨by decide, by decide, trivial, trivial⟩
  have hof : (Statement.assign (utf8 "$y") 0 e).IsOf line := ⟨hgraded, by decide +kernel⟩
  have hrun : (Action.run (evaluate line true) s).1 = .ok (utf8 "11") := by decide +kernel
  have hvalue : Evaluation.evaluate s.store (e.nodes ++ [⟨.endOfLine, line.length⟩])
      = .ok (.ofNumber (.ofInt 11), .ofInt 11) := by decide +kernel
  obtain ⟨n, x, heval, -, hfind, hnumber⟩ := assign_keeps_number hread hof (Prod.ext hrun rfl)
  rw [hvalue] at heval
  cases heval
  exact ⟨hread, hof, hrun, hfind, hnumber nofun⟩

/-- A variable that is copied from a profile may change its number, or even be one no more: its text
is read in the radix that it shows. -/
theorem copy_changes_number :
    let profile : Store := (NameMap.empty.insert (utf8 "$x") ⟨.ofRadix (utf8 "010") .dec, 0⟩).insert
      (utf8 "$w") ⟨.ofRadix (utf8 "08") .dec, 0⟩
    let s := (start (some (⟨NameMap.empty.insert (utf8 "p") profile, false⟩ : Shelf))).run
      [.load (utf8 "p")]
    let copied := Action.run (evaluate (utf8 "$y = $x") true) s
    let spoilt := Action.run (evaluate (utf8 "$z = $w") true) s
    (Statement.assign (utf8 "$y") 0 (.var (utf8 "$x") 5)).IsOf (utf8 "$y = $x")
      ∧ copied.1 = .ok (utf8 "010")
      ∧ Evaluation.evaluate s.store [⟨.var (utf8 "$x"), 5⟩, ⟨.endOfLine, 7⟩]
        = .ok (.ofRadix (utf8 "010") .dec, .ofInt 10)
      ∧ (copied.2.store.find? (utf8 "$y")).bind (·.numeral.number?) = some (.ofInt 8)
      ∧ Binary64.ofInt 8 ≠ .ofInt 10
      ∧ (Statement.assign (utf8 "$z") 0 (.var (utf8 "$w") 5)).IsOf (utf8 "$z = $w")
      ∧ spoilt.1 = .ok (utf8 "08")
      ∧ Evaluation.evaluate s.store [⟨.var (utf8 "$w"), 5⟩, ⟨.endOfLine, 7⟩]
        = .ok (.ofRadix (utf8 "08") .dec, .ofInt 8)
      ∧ spoilt.2.store.find? (utf8 "$z") = some ⟨.ofText (utf8 "08"), 0⟩
      ∧ (Numeral.ofText (utf8 "08")).number? = none := by
  refine ⟨⟨trivial, ?_⟩, ?_, ?_, ?_, ?_, ⟨trivial, ?_⟩, ?_, ?_, ?_, ?_⟩
  · decide +kernel
  · decide +kernel
  · decide +kernel
  · decide +kernel
  · decide +kernel
  · decide +kernel
  · decide +kernel
  · decide +kernel
  · decide +kernel
  · decide +kernel

end Session

/-!
## What a line can read and write

A line with an expression depends on the variables that it names as operands, and on nothing else of
a session: not on its other variables, not on the previous value of the target, and not on whether
it is committed. All it can change is its target.
-/

section

open Evaluation (AgreeOn)

namespace Statement

theorem passAnswer_congr {statement : Statement} {line : Bytes}
    (hread : (Line.read line).error = none) (hof : statement.IsOf line) {store store' : Store}
    (h : AgreeOn (Line.operands line) store store') :
    statement.passAnswer store = statement.passAnswer store' := by
  have htail : Evaluation.IsTail [⟨.endOfLine, line.length⟩] := .inr ⟨line.length, rfl⟩
  rw [← Line.reads_read hread, hof.2] at h
  cases statement with
  | plain e =>
    rw [← Evaluation.answer_nodes store (e := e) hof.1 htail,
      ← Evaluation.answer_nodes store' (e := e) hof.1 htail]
    exact Evaluation.answer_congr h
  | output radix position e =>
    rw [← Evaluation.answerIn_nodes (e := e) hof.1 htail,
      ← Evaluation.answerIn_nodes (e := e) hof.1 htail]
    have hexpr : AgreeOn (Evaluation.reads (e.nodes ++ [⟨.endOfLine, line.length⟩])) store store' :=
      h
    exact Evaluation.answerIn_congr hexpr radix position
  | assign target position e =>
    -- the target is not read, so what is left is a plain line
    show (plain e).passAnswer store = (plain e).passAnswer store'
    rw [← Evaluation.answer_nodes store (e := e) hof.1 htail,
      ← Evaluation.answer_nodes store' (e := e) hof.1 htail]
    exact Evaluation.answer_congr h

end Statement

namespace Session

variable {σ τ : Type}

/-- What a line that is no command leaves of a session that it is answered in. -/
def written (line : Bytes) (commit : Bool) (text : Bytes) (s : Session σ) : Session σ :=
  match Line.target? (Line.significant line), commit with
  | some target, true => s.assign target.lexeme target.position text
  | _, _ => s

theorem written_of_none {line : Bytes} (h : Line.target? (Line.significant line) = none)
    (commit : Bool) (text : Bytes) (s : Session σ) : s.written line commit text = s := by
  unfold written
  rw [h]

@[simp] theorem written_false (line text : Bytes) (s : Session σ) :
    s.written line false text = s := by
  unfold written
  cases Line.target? (Line.significant line) with
  | none | some => rfl

theorem effect_eq_written {statement : Statement} {line : Bytes}
    (h : statement.target?
      = (Line.target? (Line.significant line)).map fun t ↦ (t.lexeme, t.position))
    (commit : Bool) (text : Bytes) (s : Session σ) :
    statement.effect commit text s = s.written line commit text := by
  unfold written
  cases htarget : Line.target? (Line.significant line) with
  | none =>
    rw [htarget] at h
    cases statement with
    | plain | output => rfl
    | assign => cases h
  | some t =>
    rw [htarget] at h
    cases statement with
    | plain | output => cases h
    | assign =>
      cases h
      cases commit with
      | false | true => rfl

@[simp] theorem storage_written (line : Bytes) (commit : Bool) (text : Bytes) (s : Session σ) :
    (s.written line commit text).storage = s.storage := by
  unfold written
  split
  · rfl
  · rfl

@[simp] theorem saves_written (line : Bytes) (commit : Bool) (text : Bytes) (s : Session σ) :
    (s.written line commit text).saves = s.saves := by
  unfold written
  split
  · rfl
  · rfl

theorem find?_written {line : Bytes} {target : Token}
    (h : Line.target? (Line.significant line) = some target) (text : Bytes) (s : Session σ)
    (name : Bytes) : (s.written line true text).store.find? name
      = if target.lexeme = name then some ⟨.ofText text, target.position⟩
        else s.store.find? name := by
  simp only [written, h]
  exact NameMap.find?_insert ..

section

variable [ProfileStorage σ] [ProfileStorage τ] {line : Bytes} {s : Session σ} {s' : Session τ}

theorem run_evaluate_blank (hread : (Line.read line).error = none)
    (hline : Line.significant line = []) (commit : Bool) (s : Session σ) :
    Action.run (evaluate line commit) s = (.ok [], s) := by
  obtain ⟨hstray, ns, hsentence⟩ := Line.sentence_of_read hread
  have hnodes : (Line.read line).nodes = ns ++ [⟨.endOfLine, line.length⟩] := by
    rw [Line.read_of_sentence hstray hsentence]
  rw [hline] at hsentence
  rw [evaluate, hread, hnodes, hsentence.eq_nil]
  rfl

/-- In two sessions that agree on the operands of a line it has one answer or one failure, and what
it leaves of each session is told by the answer. -/
theorem run_evaluate_congr (hread : (Line.read line).error = none)
    (hline : ∀ t ∈ (Line.significant line).head?, Line.Verb.ofKind? t.kind = none)
    (h : AgreeOn (Line.operands line) s.store s'.store) (commit commit' : Bool) :
    (∃ text, Action.run (evaluate line commit) s = (.ok text, s.written line commit text)
      ∧ Action.run (evaluate line commit') s' = (.ok text, s'.written line commit' text))
    ∨ ∃ e, Action.run (evaluate line commit) s = (.error e, s)
      ∧ Action.run (evaluate line commit') s' = (.error e, s') := by
  cases hts : Line.significant line with
  | nil =>
    have hnone : Line.target? (Line.significant line) = none := by rw [hts]; rfl
    refine .inl ⟨[], ?_, ?_⟩
    · rw [run_evaluate_blank hread hts, written_of_none hnone]
    · rw [run_evaluate_blank hread hts, written_of_none hnone]
  | cons t ts =>
    have hverb : ∃ t ∈ (Line.significant line).head?, Line.Verb.ofKind? t.kind = none :=
      ⟨t, by rw [hts]; rfl, hline t (by rw [hts]; rfl)⟩
    obtain ⟨statement, hof, htarget⟩ := Statement.exists_isOf_target? hread hverb
    rw [run_evaluate_statement hread hof, run_evaluate_statement hread hof,
      ← Statement.passAnswer_congr hread hof h]
    cases statement.passAnswer s.store with
    | error e => exact .inr ⟨.evaluating e, rfl, rfl⟩
    | ok text =>
      have heffect := effect_eq_written htarget commit text s
      have heffect' := effect_eq_written htarget commit' text s'
      exact .inl ⟨text, congrArg (Prod.mk _) heffect, congrArg (Prod.mk _) heffect'⟩

/-- **Lines read their operands and write their target.** Let a line be accepted that is no command,
and let two sessions give the same values to the variables that it reads; they may differ in all
else, and each may commit the line or not. Then the line has the same answer in both, or fails for
the same reason. It never changes the storage or the count of saves. It changes the variables only
where it is an assignment that succeeds and is committed, and then only the target, which is set to
the same value wherever the line is committed. -/
theorem evaluate_footprint (hread : (Line.read line).error = none)
    (hline : ∀ t ∈ (Line.significant line).head?, Line.Verb.ofKind? t.kind = none)
    (h : AgreeOn (Line.operands line) s.store s'.store) (commit commit' : Bool) :
    let r := Action.run (evaluate line commit) s
    let r' := Action.run (evaluate line commit') s'
    r.1 = r'.1
    ∧ r.2.storage = s.storage ∧ r.2.saves = s.saves
    ∧ (r.2.store ≠ s.store → commit = true
      ∧ ∃ target text, Line.target? (Line.significant line) = some target ∧ r.1 = .ok text
        ∧ ∀ name, name ≠ target.lexeme → r.2.store.find? name = s.store.find? name)
    ∧ ∀ target text, Line.target? (Line.significant line) = some target → r.1 = .ok text →
      (commit = true → r.2.store.find? target.lexeme = some ⟨.ofText text, target.position⟩)
      ∧ (commit' = true →
        r'.2.store.find? target.lexeme = some ⟨.ofText text, target.position⟩) := by
  rcases run_evaluate_congr hread hline h commit commit' with
    ⟨text, hrun, hrun'⟩ | ⟨e, hrun, hrun'⟩
  · rw [hrun, hrun']
    refine ⟨rfl, storage_written .., saves_written .., fun hne ↦ ?_, ?_⟩
    · cases htarget : Line.target? (Line.significant line) with
      | none => exact absurd (by rw [written_of_none htarget]) hne
      | some target =>
        cases commit with
        | false => exact absurd (by rw [written_false]) hne
        | true =>
          refine ⟨rfl, target, text, rfl, rfl, fun name hname ↦ ?_⟩
          rw [find?_written htarget, if_neg (Ne.symm hname)]
    · rintro target _ htarget ⟨⟩
      constructor
      · rintro rfl
        rw [find?_written htarget, if_pos rfl]
      · rintro rfl
        rw [find?_written htarget, if_pos rfl]
  · rw [hrun, hrun']
    exact ⟨rfl, rfl, rfl, fun hne ↦ absurd rfl hne, nofun⟩

end

/-- A variable is raised by another one, in a session where it has a value and a profile was saved,
and without being committed in a session that has neither. -/
theorem evaluate_footprint_raise :
    let line := utf8 "$x = $y + 1"
    let store : Store := NameMap.empty.insert (utf8 "$y") ⟨.ofText (utf8 "b11"), 5⟩
    let s : Session Shelf :=
      ⟨store.insert (utf8 "$x") ⟨.ofText (utf8 "7"), 0⟩, some ⟨.empty, false⟩, 1⟩
    let s' : Session Folder := ⟨store, none, 0⟩
    (Line.read line).error = none
      ∧ (∀ t ∈ (Line.significant line).head?, Line.Verb.ofKind? t.kind = none)
      ∧ AgreeOn (Line.operands line) s.store s'.store
      ∧ (Action.run (evaluate line true) s).1 = .ok (utf8 "4")
      ∧ (Action.run (evaluate line true) s).2.store.find? (utf8 "$x")
        = some ⟨.ofText (utf8 "4"), 0⟩
      ∧ (Action.run (evaluate line false) s').1 = .ok (utf8 "4")
      ∧ (Action.run (evaluate line false) s').2.store = store := by
  intro line store s s'
  have hread : (Line.read line).error = none := by decide +kernel
  have hline : ∀ t ∈ (Line.significant line).head?, Line.Verb.ofKind? t.kind = none := by
    decide +kernel
  have hagree : AgreeOn (Line.operands line) s.store s'.store := by decide +kernel
  have hanswer : (Action.run (evaluate line true) s).1 = .ok (utf8 "4") := by decide +kernel
  have htarget : ∃ target, Line.target? (Line.significant line) = some target
      ∧ target.lexeme = utf8 "$x" ∧ target.position = 0 := by decide +kernel
  obtain ⟨target, htarget, hname, hposition⟩ := htarget
  obtain ⟨hsame, -, -, -, hvalue⟩ := evaluate_footprint hread hline hagree true false
  obtain ⟨-, -, -, hchange, -⟩ := evaluate_footprint hread hline
    (fun name hname ↦ (hagree name hname).symm) false true
  have hset := (hvalue target (utf8 "4") htarget hanswer).1 rfl
  rw [hname, hposition] at hset
  refine ⟨hread, hline, hagree, hanswer, hset, hsame.symm.trans hanswer, ?_⟩
  by_contra hne
  cases (hchange hne).1

end Session

end

end Abacus
