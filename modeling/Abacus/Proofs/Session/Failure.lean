import Abacus.Profile
import Abacus.Proofs.Evaluation.InPlace
import Abacus.Proofs.Except
import Abacus.Session

/-!
# Actions of sessions

How the actions of a session are composed, what is left of one that fails, and that all of them end.
-/

namespace Abacus

/-!
## What actions do

Each kind of action, run in a session: what it answers and what it leaves behind. Later modules go
by these equations and do not look into the actions again.
-/

namespace Session

variable {σ α β : Type}

/-! ### Actions in general -/

namespace Action

@[simp] theorem run_throw (e : Failure) (s : Session σ) :
    run (throw e : Action σ α) s = (.error e, s) := rfl

@[simp] theorem run_get (s : Session σ) : run (get : Action σ (Session σ)) s = (.ok s, s) := rfl

theorem run_bind (a : Action σ α) (f : α → Action σ β) (s : Session σ) :
    run (a >>= f) s = match run a s with
      | (.ok x, s') => run (f x) s'
      | (.error e, s') => (.error e, s') := by
  show (match StateT.run (ExceptT.run a) s with
    | (r, s') => StateT.run (ExceptT.bindCont f r) s') = _
  rcases h : run a s with ⟨r, s'⟩
  rw [show StateT.run (ExceptT.run a) s = (r, s') from h]
  cases r with
  | error | ok => rfl

theorem run_map (f : α → β) (a : Action σ α) (s : Session σ) :
    run (f <$> a) s = ((run a s).1.map f, (run a s).2) := by
  rw [map_eq_pure_bind, run_bind]
  rcases run a s with ⟨_ | x, s'⟩
  · rfl
  · rfl

theorem run_adapt_get_bind {ε : Type} (f : ε → Failure)
    (a : Session σ → ExceptT ε (StateM (Session σ)) α) (s : Session σ) :
    run (ExceptT.adapt f (get >>= a)) s = run (ExceptT.adapt f (a s)) s := rfl

theorem run_adapt_mk_bind {ε : Type} (f : ε → Failure) (r : Except ε α)
    (a : α → ExceptT ε (StateM (Session σ)) β) (s : Session σ) :
    run (ExceptT.adapt f (ExceptT.mk (pure r) >>= a)) s = match r with
      | .ok x => run (ExceptT.adapt f (a x)) s
      | .error e => (.error (f e), s) := by
  cases r with
  | error | ok => rfl

end Action

/-! ### Actions of a session -/

theorem run_consult (evaluation : Store → Except Evaluation.Error α) (s : Session σ) :
    Action.run (consult evaluation) s
      = ((evaluation s.store).mapError Failure.evaluating, s) := by
  rw [consult, Action.run_bind, Action.run_get]
  dsimp only
  cases evaluation s.store with
  | error | ok => rfl

section

variable [ProfileStorage σ]

theorem run_load (name : Bytes) (s : Session σ) :
    Action.run (ExceptT.adapt Failure.broken (load name)) s
      = match s.storage with
        | none => (.ok noStorage, s)
        | some storage =>
          match ProfileStorage.load storage name with
          | .error b => (.error (.broken b), s)
          | .ok (.error e) => (.ok (utf8 "Не удалось загрузить профиль: " ++ e.message), s)
          | .ok (.ok loaded) => (.ok (profileAnswer name "загружен" loaded.size),
              { s with store := s.store.overlay loaded }) := by
  obtain ⟨store, storage, saves⟩ := s
  cases storage with
  | none => rfl
  | some storage =>
    rw [load, Action.run_adapt_get_bind]
    dsimp only
    rw [Action.run_adapt_mk_bind]
    rcases ProfileStorage.load storage name with b | e | loaded
    · rfl
    · rfl
    · rfl

theorem exists_broken_of_run_load {name : Bytes} {s s' : Session σ} {e : Failure}
    (h : Action.run (ExceptT.adapt Failure.broken (load name)) s = (.error e, s')) :
    ∃ b, e = .broken b := by
  rw [run_load] at h
  split at h
  · cases h
  · split at h
    · cases h
      exact ⟨_, rfl⟩
    · cases h
    · cases h

/-- A list of nodes is blank, or it was stopped, or it is carried out from its first node on. -/
theorem exec_cases (nodes : List Node) (commit : Bool) :
    (Evaluation.isBlank nodes = true ∧ (exec nodes commit : Action σ Bytes) = pure [])
      ∨ (∃ position, Evaluation.stopped? nodes = some position
        ∧ (exec nodes commit : Action σ Bytes) = throw (.evaluating (.stopped position)))
      ∨ (∃ first rest, nodes = first :: rest ∧ Evaluation.isBlank nodes = false
        ∧ Evaluation.stopped? nodes = none
        ∧ (exec nodes commit : Action σ Bytes) = execFrom first rest commit) := by
  unfold exec
  split
  · next h => exact .inl ⟨h, rfl⟩
  · next h =>
    refine .inr ?_
    split
    · next position hs => exact .inl ⟨position, hs, rfl⟩
    · next first rest hs => exact .inr ⟨first, rest, rfl, by simpa using h, hs, rfl⟩
    · exact absurd rfl h

end

/-!
## Failing without a trace

Whatever an action did before it fails stays done, so an action fails without a trace only if it
does nothing to the session before the last thing in it that can fail. Carrying out a line first
consults the variables, which can fail and changes nothing, and then at most changes the session,
which cannot fail any more.
-/

/-! ### Three kinds of actions -/

namespace Action

/-- The action only looks at the session. -/
def OnlyReads (a : Action σ α) : Prop := ∀ s, (a.run s).2 = s

/-- The action never fails. -/
def Succeeds (a : Action σ α) : Prop := ∀ s, ∃ x, (a.run s).1 = .ok x

/-- The action leaves the session as it was whenever it fails. -/
def FailsClean (a : Action σ α) : Prop := ∀ s e s', a.run s = (.error e, s') → s' = s

theorem OnlyReads.failsClean {a : Action σ α} (h : OnlyReads a) : FailsClean a := by
  intro s e s' hrun
  rw [← h s, hrun]

theorem Succeeds.failsClean {a : Action σ α} (h : Succeeds a) : FailsClean a := by
  intro s e s' hrun
  obtain ⟨x, hx⟩ := h s
  rw [hrun] at hx
  cases hx

/-- Nothing has been done yet when the second action fails. -/
theorem OnlyReads.bind_failsClean {a : Action σ α} {f : α → Action σ β} (h : OnlyReads a)
    (hf : ∀ x, FailsClean (f x)) : FailsClean (a >>= f) := by
  intro s e s' hrun
  have ha := h s
  rw [run_bind] at hrun
  rcases hr : a.run s with ⟨r, s₁⟩
  rw [hr] at hrun ha
  obtain rfl : s₁ = s := ha
  -- the second action starts in the session that the first one found
  cases r with
  | ok x => exact hf x s₁ e s' hrun
  | error e' =>
    cases hrun
    rfl

theorem Succeeds.bind {a : Action σ α} {f : α → Action σ β} (h : Succeeds a)
    (hf : ∀ x, Succeeds (f x)) : Succeeds (a >>= f) := by
  intro s
  obtain ⟨x, hx⟩ := h s
  rw [run_bind]
  rcases hr : a.run s with ⟨r, s₁⟩
  rw [hr] at hx
  obtain rfl : r = .ok x := hx
  exact hf x s₁

theorem onlyReads_throw (e : Failure) : OnlyReads (throw e : Action σ α) := fun _ ↦ rfl

theorem succeeds_pure (a : α) : Succeeds (pure a : Action σ α) := fun _ ↦ ⟨a, rfl⟩

theorem succeeds_modify (f : Session σ → Session σ) : Succeeds (modify f : Action σ PUnit) :=
  fun _ ↦ ⟨⟨⟩, rfl⟩

theorem succeeds_modifyGet (f : Session σ → α × Session σ) :
    Succeeds (modifyGet f : Action σ α) := fun s ↦ ⟨(f s).1, rfl⟩

end Action

open Abacus.Session.Action

theorem onlyReads_consult (evaluation : Store → Except Evaluation.Error α) :
    OnlyReads (consult evaluation : Action σ α) := fun s ↦ by rw [run_consult]

theorem succeeds_commit (target : Bytes) (position : Nat) (text : Bytes) (commit : Bool) :
    Succeeds (do
      if commit then modify (assign target position text)
      return text : Action σ Bytes) := by
  cases commit with
  | true => exact (succeeds_modify (assign target position text)).bind fun _ ↦ succeeds_pure text
  | false => exact succeeds_pure text

/-- An assignment sets its variable only once the value is known. -/
theorem failsClean_assign (target : Bytes) (position : Nat) (rest : List Node) (commit : Bool) :
    FailsClean (do
      let text ← consult (Evaluation.answer · rest)
      if commit then modify (assign target position text)
      return text : Action σ Bytes) :=
  (onlyReads_consult _).bind_failsClean fun text ↦
    (succeeds_commit target position text commit).failsClean

/-! ### Lists of nodes -/

section

variable [ProfileStorage σ]

theorem failsClean_load (name : Bytes) :
    FailsClean (σ := σ) (ExceptT.adapt Failure.broken (load name)) := by
  intro s e s' hrun
  rw [run_load] at hrun
  split at hrun
  · cases hrun
  · split at hrun
    · cases hrun
      rfl
    · cases hrun
    · cases hrun

theorem failsClean_execFrom (first : Node) (rest : List Node) (commit : Bool) :
    FailsClean (execFrom first rest commit : Action σ Bytes) := by
  unfold execFrom
  split
  · exact ((succeeds_modify clear).bind fun _ ↦ succeeds_pure _).failsClean
  · exact (succeeds_modifyGet _).failsClean
  · exact failsClean_load _
  · exact (onlyReads_consult _).failsClean
  · exact failsClean_assign _ _ _ _
  · exact (onlyReads_consult _).failsClean

theorem failsClean_exec (nodes : List Node) (commit : Bool) :
    FailsClean (exec nodes commit : Action σ Bytes) := by
  rcases exec_cases (σ := σ) nodes commit with
    ⟨-, h⟩ | ⟨position, -, h⟩ | ⟨first, rest, -, -, -, h⟩
  · rw [h]
    exact (succeeds_pure _).failsClean
  · rw [h]
    exact (onlyReads_throw _).failsClean
  · rw [h]
    exact failsClean_execFrom first rest commit

theorem failsClean_evaluate (line : Bytes) (commit : Bool) :
    FailsClean (evaluate line commit : Action σ Bytes) := by
  unfold evaluate
  split
  · exact (onlyReads_throw _).failsClean
  · exact failsClean_exec _ commit

/-! ### Lines that were not read to their end -/

theorem stopped?_read {line : Bytes} (h : (Line.read line).error ≠ none) :
    Evaluation.isBlank (Line.read line).nodes = false
      ∧ ∃ position, Evaluation.stopped? (Line.read line).nodes = some position := by
  have hnodes : ∃ front position,
      (Line.read line).nodes = front ++ [⟨.stopped, position⟩] := by
    simp only [Line.read, Line.Outcome.nodes] at h ⊢
    split
    · next herror => exact absurd herror h
    · exact ⟨_, _, rfl⟩
  obtain ⟨front, position, hnodes⟩ := hnodes
  rw [hnodes]
  refine ⟨?_, position, by rw [Evaluation.stopped?, List.getLast?_concat]; rfl⟩
  rcases front with _ | ⟨n, _ | ⟨m, front⟩⟩
  · rfl
  · rfl
  · rfl

/-- The nodes of a line that is not read to its end are refused, whatever they begin with. -/
theorem exec_read_eq_throw {line : Bytes} (h : (Line.read line).error ≠ none) (commit : Bool) :
    ∃ position, (exec (Line.read line).nodes commit : Action σ Bytes)
      = throw (.evaluating (.stopped position)) := by
  obtain ⟨hblank, position, hstopped⟩ := stopped?_read h
  rcases exec_cases (σ := σ) (Line.read line).nodes commit with
    ⟨h, -⟩ | ⟨position, -, h⟩ | ⟨_, _, -, -, h, -⟩
  · rw [hblank] at h
    cases h
  · exact ⟨position, h⟩
  · rw [hstopped] at h
    cases h

/-! ### The law -/

/-- **Nothing changes when a line fails.** Whichever nodes are carried out, if that fails then the
variables, the profiles and the count of saves are what they were. The nodes of a line that is not
read to its end always fail, and a line that fails changes nothing either. -/
theorem eq_of_run_eq_error (nodes : List Node) (line : Bytes) (commit : Bool) (s : Session σ) :
    (∀ e s', Action.run (exec nodes commit) s = (.error e, s') → s' = s)
      ∧ ((Line.read line).error ≠ none →
        ∃ e, Action.run (exec (Line.read line).nodes commit) s = (.error e, s))
      ∧ ∀ e s', Action.run (evaluate line commit) s = (.error e, s') → s' = s := by
  refine ⟨failsClean_exec nodes commit s, fun h ↦ ?_, failsClean_evaluate line commit s⟩
  obtain ⟨position, hexec⟩ := exec_read_eq_throw (σ := σ) h commit
  exact ⟨_, by rw [hexec, run_throw]⟩

end

/-- A target without an expression, and a parenthesis that is not closed behind a target. -/
theorem run_unfinished_assignment :
    let s := start (some (⟨.empty, false⟩ : Shelf))
    let line := utf8 "$x = (1"
    Action.run (exec [⟨.assign (utf8 "$x"), 0⟩] true) s = (.error (.evaluating .empty), s)
      ∧ (Line.read line).error ≠ none
      ∧ (∃ e, Action.run (exec (Line.read line).nodes true) s = (.error e, s))
      ∧ ∃ e, Action.run (evaluate line true) s = (.error e, s) := by
  intro s line
  have hexec : (Action.run (exec [⟨.assign (utf8 "$x"), 0⟩] true) s).1
      = .error (.evaluating .empty) := by
    decide +kernel
  have hread : (Line.read line).error ≠ none := by decide +kernel
  have hline : (Action.run (evaluate line true) s).1 = .error (.reading (.unclosed 7)) := by
    decide +kernel
  obtain ⟨hsame, hstopped, hsame'⟩ :=
    eq_of_run_eq_error [⟨.assign (utf8 "$x"), 0⟩] line true s
  exact ⟨Prod.ext hexec (hsame _ _ (Prod.ext hexec rfl)), hread, hstopped hread,
    _, Prod.ext hline (hsame' _ _ (Prod.ext hline rfl))⟩

/-!
## Every list of nodes comes to an end

A session can be given any list of nodes, and most lists are not those of a line: parentheses that
do not match, an `abs` in front of a number, operators without operands, marks in the middle. Each
of them is answered, or has no value. The reduction runs out of neither nodes nor passes on the way;
of all that is done to a session, only consulting the variables can fail, apart from a storage that
breaks down.
-/

/-! ### Failing for want of a value -/

namespace Action

/-- When the action fails, something in the session has no value. -/
def FailsByValue (a : Action σ α) : Prop :=
  ∀ s failure, (a.run s).1 = .error failure → ∃ e, failure = .evaluating e

theorem Succeeds.failsByValue {a : Action σ α} (h : Succeeds a) : FailsByValue a := by
  intro s failure hrun
  obtain ⟨x, hx⟩ := h s
  rw [hx] at hrun
  cases hrun

theorem FailsByValue.bind {a : Action σ α} {f : α → Action σ β} (h : FailsByValue a)
    (hf : ∀ x, FailsByValue (f x)) : FailsByValue (a >>= f) := by
  intro s failure hrun
  have ha := h s
  rw [run_bind] at hrun
  rcases hr : a.run s with ⟨_ | x, s'⟩
  · rw [hr] at hrun ha
    cases hrun
    exact ha _ rfl
  · rw [hr] at hrun
    exact hf x s' failure hrun

end Action

theorem failsByValue_consult (evaluation : Store → Except Evaluation.Error α) :
    FailsByValue (consult evaluation : Action σ α) := by
  intro s failure hrun
  rw [run_consult] at hrun
  obtain ⟨e, -, rfl⟩ := mapError_eq_error_iff.mp hrun
  exact ⟨e, rfl⟩

theorem failsByValue_assign (target : Bytes) (position : Nat) (rest : List Node) (commit : Bool) :
    FailsByValue (do
      let text ← consult (Evaluation.answer · rest)
      if commit then modify (assign target position text)
      return text : Action σ Bytes) :=
  (failsByValue_consult _).bind fun text ↦
    (succeeds_commit target position text commit).failsByValue

/-! ### Ends of lists -/

section

variable [ProfileStorage σ]

/-- The storage of a session breaks down on the profile that a list of nodes asks for first, where
it should tell what is wrong with it. -/
def BreaksDown (s : Session σ) (nodes : List Node) (b : Breakdown) : Prop :=
  ∃ name position rest storage, nodes = ⟨.load name, position⟩ :: rest
    ∧ s.storage = some storage ∧ ProfileStorage.load storage name = .error b

/-- Apart from a storage that breaks down, only the evaluation of an expression can fail. -/
theorem execFrom_failure {first : Node} {rest : List Node} {commit : Bool} {s : Session σ}
    {failure : Failure}
    (hrun : ((execFrom first rest commit : Action σ Bytes).run s).1 = .error failure) :
    (∃ e, failure = .evaluating e)
      ∨ ∃ b, failure = .broken b ∧ BreaksDown s (first :: rest) b := by
  obtain ⟨shape, position⟩ := first
  cases shape with
  | clear =>
    exact .inl (((succeeds_modify clear).bind fun _ ↦ succeeds_pure _).failsByValue s failure hrun)
  | save profile => exact .inl ((succeeds_modifyGet (save profile)).failsByValue s failure hrun)
  | load profile =>
    have hload : (Action.run (ExceptT.adapt Failure.broken (load profile)) s).1 = .error failure :=
      hrun
    rw [run_load] at hload
    split at hload
    · cases hload
    · next storage hstorage =>
      split at hload
      · next b hb =>
        cases hload
        exact .inr ⟨b, rfl, profile, position, rest, storage, rfl, hstorage, hb⟩
      · cases hload
      · cases hload
  | setOutput radix => exact .inl (failsByValue_consult _ s failure hrun)
  | assign target =>
    exact .inl (failsByValue_assign target position rest commit s failure hrun)
  | _ => exact .inl (failsByValue_consult _ s failure hrun)

theorem exec_failure {nodes : List Node} {commit : Bool} {s : Session σ} {failure : Failure}
    (hrun : ((exec nodes commit : Action σ Bytes).run s).1 = .error failure) :
    (∃ e, failure = .evaluating e) ∨ ∃ b, failure = .broken b ∧ BreaksDown s nodes b := by
  rcases exec_cases (σ := σ) nodes commit with
    ⟨-, h⟩ | ⟨position, -, h⟩ | ⟨first, rest, rfl, -, -, h⟩
  · rw [h] at hrun
    cases hrun
  · rw [h] at hrun
    cases hrun
    exact .inl ⟨.stopped position, rfl⟩
  · rw [h] at hrun
    exact execFrom_failure hrun

/-- **Reduction ends on every list of nodes.** In place, a pass over any list of at least two nodes
leaves a shorter list or fails with an error of the evaluation, and the only list whose reduction it
asks for is shorter too. So passes come to an end, and what they come to is what the list is reduced
to: no place is ever looked at that is not there. Therefore whatever is given to a session is
answered or fails with an error of the evaluation, but for a storage that itself breaks down on the
profile it is asked for. -/
theorem exec_ends (s : Session σ) (nodes : List Node) (commit : Bool) :
    (∀ l, 1 < l.length →
      Evaluation.InPlace.Depends l (Evaluation.InPlace.pass s.store · l))
    ∧ (∀ rounds l, l.length < rounds →
      Evaluation.InPlace.loop s.store rounds l = (Evaluation.reduce s.store l).mapError .failed)
    ∧ ((∃ text, (Action.run (exec nodes commit) s).1 = .ok text)
      ∨ (∃ e, (Action.run (exec nodes commit) s).1 = .error (.evaluating e))
      ∨ ∃ b, (Action.run (exec nodes commit) s).1 = .error (.broken b)
        ∧ BreaksDown s nodes b) := by
  refine ⟨fun l hlength ↦ Evaluation.InPlace.depends_pass s.store hlength,
    fun rounds l hrounds ↦ Evaluation.InPlace.loop_eq_reduced s.store hrounds, ?_⟩
  cases hrun : (Action.run (exec nodes commit) s).1 with
  | ok text => exact .inl ⟨text, rfl⟩
  | error failure =>
    rcases exec_failure hrun with ⟨e, rfl⟩ | ⟨b, rfl, hbreaks⟩
    · exact .inr (.inl ⟨e, rfl⟩)
    · exact .inr (.inr ⟨b, rfl, hbreaks⟩)

/-- A power in front of an `abs` in front of a number, which no line has. -/
theorem exec_ends_stray_abs :
    let s := start (some (⟨.empty, false⟩ : Shelf))
    let nodes : List Node := [⟨.number (.ofText (utf8 "2")), 0⟩, ⟨.operator .pow, 2⟩, ⟨.abs, 5⟩,
      ⟨.number (.ofText (utf8 "3")), 9⟩]
    1 < nodes.length
      ∧ Evaluation.InPlace.Depends nodes (Evaluation.InPlace.pass s.store · nodes)
      ∧ Evaluation.InPlace.loop s.store 5 nodes
        = (Evaluation.reduce s.store nodes).mapError .failed
      ∧ Evaluation.reduce s.store nodes = .error (.unmatched nodes)
      ∧ (Action.run (exec nodes true) s).1 = .error (.evaluating (.unmatched nodes)) := by
  intro s nodes
  obtain ⟨hpass, hloop, -⟩ := exec_ends s nodes true
  exact ⟨by decide, hpass nodes (by decide), hloop 5 nodes (by decide), by decide +kernel,
    by decide +kernel⟩

end

end Session

end Abacus
