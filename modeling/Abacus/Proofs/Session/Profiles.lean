import Abacus.Proofs.Session.Changes

/-!
# Profiles over whole sessions

A step saves, loads or forgets variables if it is a request for that or if its nodes begin with the
command. A profile is written by a save under its name and by nothing else, so it is found again
however much happens in between.
-/

namespace Abacus

theorem NameMap.overlay_empty {α : Type} (m : NameMap α) : NameMap.empty.overlay m = m :=
  NameMap.ext_find? fun name ↦ by
    rw [NameMap.find?_overlay, NameMap.find?_empty, Option.or_none]

namespace Session

/-! ## Commands -/

/-- A command that a step may carry out. -/
inductive Command where
  | clear
  | save (name : Bytes)
  | load (name : Bytes)
  deriving DecidableEq

namespace Command

/-- The command that a node is. -/
def ofShape? : Node.Shape → Option Command
  | .clear => some .clear
  | .save name => some (.save name)
  | .load name => some (.load name)
  | _ => none

/-- The command that a list of nodes begins with, unless it says that reading was stopped. -/
def ofNodes? (nodes : List Node) : Option Command :=
  if (Evaluation.stopped? nodes).isSome then none
  else nodes.head?.bind fun first ↦ ofShape? first.shape

/-- What a command does and answers in a line. -/
def action {σ : Type} [ProfileStorage σ] : Command → Action σ Bytes
  | clear => do
    modify Session.clear
    return utf8 "Переменные очищены"
  | save name => modifyGet (Session.save name)
  | load name => ExceptT.adapt .broken (Session.load name)

theorem ofNodes?_of_isBlank {nodes : List Node} (h : Evaluation.isBlank nodes = true) :
    ofNodes? nodes = none := by
  unfold Evaluation.isBlank at h
  split at h
  · rfl
  · next first =>
    obtain ⟨shape, position⟩ := first
    obtain rfl : shape = .endOfLine := by simpa using h
    rfl
  · cases h

theorem ofNodes?_of_stopped {nodes : List Node} {position : Nat}
    (h : Evaluation.stopped? nodes = some position) : ofNodes? nodes = none := by
  rw [ofNodes?, h]
  rfl

theorem ofNodes?_cons {first : Node} {rest : List Node}
    (h : Evaluation.stopped? (first :: rest) = none) :
    ofNodes? (first :: rest) = ofShape? first.shape := by
  rw [ofNodes?, h]
  rfl

theorem error_of_ofNodes? {line : Bytes} {c : Command}
    (h : ofNodes? (Line.read line).nodes = some c) : (Line.read line).error = none := by
  by_contra herror
  obtain ⟨-, position, hstopped⟩ := stopped?_read herror
  rw [ofNodes?_of_stopped hstopped] at h
  cases h

end Command

/-- The command that a step carries out. -/
def Step.command? : Step → Option Command
  | .line text _ => Command.ofNodes? (Line.read text).nodes
  | .nodes given _ => Command.ofNodes? given
  | .nodesOf text _ => Command.ofNodes? (Line.read text).nodes
  | .clear => some .clear
  | .save name => some (.save name)
  | .load name => some (.load name)

/-! ## Single steps -/

section

variable {σ : Type} [ProfileStorage σ]

theorem exec_of_command {nodes : List Node} {c : Command} (h : Command.ofNodes? nodes = some c)
    (commit : Bool) : (exec nodes commit : Action σ Bytes) = c.action := by
  rcases exec_cases (σ := σ) nodes commit with
    ⟨hblank, -⟩ | ⟨_, hstopped, -⟩ | ⟨first, rest, rfl, -, hstopped, hexec⟩
  · rw [Command.ofNodes?_of_isBlank hblank] at h
    cases h
  · rw [Command.ofNodes?_of_stopped hstopped] at h
    cases h
  · rw [Command.ofNodes?_cons hstopped] at h
    rw [hexec]
    obtain ⟨shape, position⟩ := first
    cases shape with
    | save | load | clear =>
      cases h
      rfl
    | _ => cases h

/-- Nodes that begin with no request for a profile are carried out by a function of the variables,
which is the same for sessions of all kinds. -/
theorem exists_reply_of_exec {nodes : List Node}
    (h : ∀ c ∈ Command.ofNodes? nodes, c = .clear) (commit : Bool) :
    ∃ reply : Store → Except Evaluation.Error Bytes × Store,
      ∀ (σ : Type) [ProfileStorage σ] (s : Session σ), Action.run (exec nodes commit) s
        = ((reply s.store).1.mapError .evaluating, { s with store := (reply s.store).2 }) := by
  have hconsult : ∀ evaluation : Store → Except Evaluation.Error Bytes,
      ∃ reply : Store → Except Evaluation.Error Bytes × Store,
        ∀ (σ : Type) [ProfileStorage σ] (s : Session σ), Action.run (consult evaluation) s
          = ((reply s.store).1.mapError .evaluating, { s with store := (reply s.store).2 }) :=
    fun evaluation ↦ ⟨fun store ↦ (evaluation store, store), fun _ _ s ↦ run_consult evaluation s⟩
  unfold exec
  split
  · exact ⟨fun store ↦ (.ok [], store), fun _ _ _ ↦ rfl⟩
  · next hblank =>
    split
    · next position _ => exact ⟨fun store ↦ (.error (.stopped position), store), fun _ _ _ ↦ rfl⟩
    · next first rest hstopped =>
      rw [Command.ofNodes?_cons hstopped] at h
      obtain ⟨shape, position⟩ := first
      cases shape with
      | clear => exact ⟨fun _ ↦ (.ok (utf8 "Переменные очищены"), .empty), fun _ _ _ ↦ rfl⟩
      | save name | load name => cases h _ rfl
      | setOutput radix => exact hconsult (Evaluation.answerIn radix position · rest)
      | assign target =>
        refine ⟨fun store ↦ (Evaluation.answer store rest,
          (Evaluation.answer store rest).toOption.elim store fun text ↦
            if commit then store.insert target ⟨.ofText text, position⟩ else store), fun σ _ s ↦ ?_⟩
        rw [execFrom, Action.run_bind, run_consult]
        dsimp only
        cases Evaluation.answer s.store rest with
        | error => rfl
        | ok text =>
          cases commit with
          | false | true => rfl
      | _ => exact hconsult (Evaluation.answer · (_ :: rest))
    · exact ⟨fun store ↦ (.ok [], store), fun _ _ _ ↦ rfl⟩

/-- A line without a request for a profile is a function of the variables, which fails for no fault
of a storage. -/
theorem exists_reply_of_evaluate {line : Bytes}
    (h : ∀ c ∈ Command.ofNodes? (Line.read line).nodes, c = .clear) (commit : Bool) :
    ∃ reply : Store → Except Failure Bytes × Store,
      (∀ store b, (reply store).1 ≠ .error (.broken b))
      ∧ ∀ (σ : Type) [ProfileStorage σ] (s : Session σ), Action.run (evaluate line commit) s
        = ((reply s.store).1, { s with store := (reply s.store).2 }) := by
  unfold evaluate
  split
  · next e _ => exact ⟨fun store ↦ (.error (.reading e), store), nofun, fun _ _ _ ↦ rfl⟩
  · obtain ⟨reply, hreply⟩ := exists_reply_of_exec h commit
    refine ⟨fun store ↦ ((reply store).1.mapError .evaluating, (reply store).2), ?_, hreply⟩
    intro store b hbroken
    obtain ⟨e, -, heq⟩ := mapError_eq_error_iff.mp hbroken
    cases heq

theorem exists_store_of_exec {nodes : List Node} (h : Command.ofNodes? nodes = none)
    (commit : Bool) (s : Session σ) :
    ∃ store, (Action.run (exec nodes commit) s).2 = { s with store := store } := by
  obtain ⟨reply, hreply⟩ := exists_reply_of_exec (fun c hc ↦ by rw [h] at hc; cases hc) commit
  exact ⟨_, congrArg Prod.snd (hreply σ s)⟩

/-- A step leaves what its command leaves. Only a request to forget the variables, which has no
answer, may answer anything else than its command. -/
theorem step_of_command {t : Step} {c : Command} (h : t.command? = some c) (s : Session σ) :
    (s.step t).2 = (Action.run c.action s).2
      ∧ (c ≠ .clear → (s.step t).1 = (Action.run c.action s).1.map some) := by
  rw [step]
  cases t with
  | line text commit =>
    rw [Step.command?] at h
    rw [take, Action.run_map, evaluate, Command.error_of_ofNodes? h]
    dsimp only
    rw [exec_of_command h]
    exact ⟨rfl, fun _ ↦ rfl⟩
  | nodes nodes commit | nodesOf text commit =>
    rw [Step.command?] at h
    rw [take, Action.run_map, exec_of_command h]
    exact ⟨rfl, fun _ ↦ rfl⟩
  | clear =>
    cases h
    exact ⟨rfl, fun hne ↦ absurd rfl hne⟩
  | save name | load name =>
    cases h
    rw [take, Action.run_map]
    exact ⟨rfl, fun _ ↦ rfl⟩

theorem exists_store_of_step {t : Step} (h : t.command? = none) (s : Session σ) :
    ∃ store, (s.step t).2 = { s with store := store } := by
  rw [step]
  cases t with
  | line text commit =>
    rw [Step.command?] at h
    rw [take, Action.run_map, evaluate]
    split
    · exact ⟨s.store, rfl⟩
    · exact exists_store_of_exec h commit s
  | nodes nodes commit | nodesOf text commit =>
    rw [Step.command?] at h
    rw [take, Action.run_map]
    exact exists_store_of_exec h commit s
  | clear | save | load => cases h

theorem exists_store_of_load (name : Bytes) (s : Session σ) :
    ∃ store, (Action.run (ExceptT.adapt Failure.broken (load name)) s).2
      = { s with store := store } := by
  rw [run_load]
  split
  · exact ⟨s.store, rfl⟩
  · split
    · exact ⟨s.store, rfl⟩
    · exact ⟨s.store, rfl⟩
    · exact ⟨_, rfl⟩

theorem exists_store_of_ne_save {t : Step} (h : ∀ name, t.command? ≠ some (.save name))
    (s : Session σ) : ∃ store, (s.step t).2 = { s with store := store } := by
  cases hc : t.command? with
  | none => exact exists_store_of_step hc s
  | some c =>
    rw [(step_of_command hc s).1]
    cases c with
    | clear => exact ⟨.empty, rfl⟩
    | save name => exact absurd hc (h name)
    | load name => exact exists_store_of_load name s

/-! ## Saves that succeed -/

/-- The name that a step saves the variables under, if it is a save that succeeds. -/
def saved? (s : Session σ) (t : Step) : Option Bytes :=
  match s.storage, t.command? with
  | some storage, some (.save name) =>
    if (ProfileStorage.save storage name s.store).1.isNone then some name else none
  | _, _ => none

/-- The names that some steps save the variables under, in the order of the saves. -/
def savedNames (s : Session σ) : List Step → List Bytes
  | [] => []
  | t :: steps => (s.saved? t).toList ++ savedNames (s.step t).2 steps

theorem saved?_of_ne_save {t : Step} (h : ∀ name, t.command? ≠ some (.save name))
    (s : Session σ) : s.saved? t = none := by
  unfold saved?
  split
  · next hsave => exact absurd hsave (h _)
  · rfl

theorem saves_step (s : Session σ) (t : Step) :
    (s.step t).2.saves = s.saves + (s.saved? t).toList.length := by
  by_cases h : ∃ name, t.command? = some (.save name)
  · obtain ⟨name, h⟩ := h
    rw [(step_of_command h s).1, saved?, h]
    show (s.save name).2.saves = _
    rw [save]
    cases s.storage with
    | none => rfl
    | some storage =>
      dsimp only
      rcases ProfileStorage.save storage name s.store with ⟨_ | e, storage'⟩
      · rfl
      · rfl
  · have h : ∀ name, t.command? ≠ some (.save name) := not_exists.mp h
    obtain ⟨store, hstep⟩ := exists_store_of_ne_save h s
    rw [hstep, saved?_of_ne_save h]
    rfl

theorem saves_run (s : Session σ) (steps : List Step) :
    (s.run steps).saves = s.saves + (s.savedNames steps).length := by
  induction steps generalizing s with
  | nil => rfl
  | cons t steps ih =>
    show ((s.step t).2.run steps).saves = _
    rw [ih, saves_step, savedNames, List.length_append]
    omega

end

/-! ## Profiles in memory -/

section Shelf

variable {s : Session Shelf} {shelf : Shelf}

/-- Profiles are in memory, and these variables are saved under this name. -/
def Holds (s : Session Shelf) (name : Bytes) (profile : Store) : Prop :=
  ∃ shelf, s.storage = some shelf ∧ shelf.profiles.find? name = some profile

theorem saved?_shelf (hstorage : s.storage = some shelf) {t : Step} {name : Bytes}
    (h : t.command? = some (.save name)) :
    s.saved? t = if shelf.readOnly then none else some name := by
  rw [saved?, hstorage, h]
  by_cases hreadOnly : shelf.readOnly = true
  · simp [ProfileStorage.save, Shelf.save, hreadOnly]
  · simp [ProfileStorage.save, Shelf.save, hreadOnly]

/-- A save under a name replaces the profile of that name alone, and only if it succeeds. -/
theorem storage_step (hstorage : s.storage = some shelf) (t : Step) :
    (s.step t).2.storage = some (match s.saved? t with
      | some name => { shelf with profiles := shelf.profiles.insert name s.store }
      | none => shelf) := by
  by_cases h : ∃ name, t.command? = some (.save name)
  · obtain ⟨name, h⟩ := h
    rw [(step_of_command h s).1, saved?_shelf hstorage h]
    show (s.save name).2.storage = _
    rw [save_shelf hstorage]
    by_cases hreadOnly : shelf.readOnly = true
    · rw [if_pos hreadOnly, if_pos hreadOnly]
      exact hstorage
    · rw [if_neg hreadOnly, if_neg hreadOnly]
  · have h : ∀ name, t.command? ≠ some (.save name) := not_exists.mp h
    obtain ⟨store, hstep⟩ := exists_store_of_ne_save h s
    rw [hstep, saved?_of_ne_save h]
    exact hstorage

theorem storage_eq_of_saved? {t : Step} {name : Bytes} (h : s.saved? t = some name) :
    ∃ shelf, s.storage = some shelf := by
  unfold saved? at h
  split at h
  · exact ⟨_, by assumption⟩
  · cases h

theorem holds_of_saved? {t : Step} {name : Bytes} (h : s.saved? t = some name) :
    (s.step t).2.Holds name s.store := by
  obtain ⟨shelf, hstorage⟩ := storage_eq_of_saved? h
  refine ⟨_, storage_step hstorage t, ?_⟩
  rw [h, NameMap.find?_insert, if_pos rfl]

/-- A profile stays as it is unless a step saves the variables under its name. -/
theorem Holds.step {name : Bytes} {profile : Store} (h : s.Holds name profile) {t : Step}
    (ht : s.saved? t ≠ some name) : (s.step t).2.Holds name profile := by
  obtain ⟨shelf, hstorage, hprofile⟩ := h
  refine ⟨_, storage_step hstorage t, ?_⟩
  cases hsaved : s.saved? t with
  | none => exact hprofile
  | some other =>
    have hne : other ≠ name := fun heq ↦ ht (by rw [hsaved, heq])
    rw [NameMap.find?_insert, if_neg hne]
    exact hprofile

theorem Holds.run {name : Bytes} {profile : Store} (h : s.Holds name profile) {steps : List Step}
    (hsteps : name ∉ s.savedNames steps) : (s.run steps).Holds name profile := by
  induction steps generalizing s with
  | nil => exact h
  | cons t steps ih =>
    rw [savedNames, List.mem_append, Option.mem_toList, not_or] at hsteps
    exact ih (h.step hsteps.1) hsteps.2

theorem Holds.store_load {name : Bytes} {profile : Store} (h : s.Holds name profile) {t : Step}
    (ht : t.command? = some (.load name)) : (s.step t).2.store = s.store.overlay profile := by
  obtain ⟨shelf, hstorage, hprofile⟩ := h
  rw [(step_of_command ht s).1]
  show (Action.run (ExceptT.adapt Failure.broken (load name)) s).2.store = _
  rw [run_load_shelf hstorage, hprofile]

theorem step_clear {t : Step} (ht : t.command? = some .clear) (s : Session Shelf) :
    (s.step t).2 = s.clear := (step_of_command ht s).1

theorem step_save_readOnly (hstorage : s.storage = some shelf) (hreadOnly : shelf.readOnly = true)
    {t : Step} {name : Bytes} (ht : t.command? = some (.save name)) :
    ∃ text, s.step t = (.ok (some text), s) := by
  obtain ⟨hbehind, hanswer⟩ := step_of_command ht s
  have hrun : Action.run (Command.save name).action s = (.ok (s.save name).1, (s.save name).2) :=
    rfl
  rw [hrun, save_shelf hstorage, if_pos hreadOnly] at hbehind hanswer
  exact ⟨_, Prod.ext (hanswer nofun) hbehind⟩

theorem step_load_missing (hstorage : s.storage = some shelf) {t : Step} {name : Bytes}
    (ht : t.command? = some (.load name)) (hmissing : shelf.profiles.find? name = none) :
    ∃ text, s.step t = (.ok (some text), s) := by
  obtain ⟨hbehind, hanswer⟩ := step_of_command ht s
  rw [Command.action, run_load_shelf hstorage, hmissing] at hbehind hanswer
  exact ⟨_, Prod.ext (hanswer nofun) hbehind⟩

/-- **Profiles come back as they were saved.** With profiles in memory, let a step save the
variables under a name, and let any steps follow, of which none saves under that name again. Then
forgetting the variables and loading the name brings back exactly the variables that were saved, and
loading it alone sets these and keeps the others. A save that nothing can be written for and a load
of an unknown name are answered and change nothing; only a save that succeeds changes a profile; and
as many saves are counted as have succeeded. -/
theorem saved_profile_returns (hstorage : s.storage = some shelf) :
    (∀ keep name steps, s.saved? keep = some name → name ∉ (s.step keep).2.savedNames steps →
      ∀ forget restore, Step.command? forget = some .clear →
        Step.command? restore = some (.load name) →
        let s' := (s.step keep).2.run steps
        ((s'.step forget).2.step restore).2.store = s.store
          ∧ ∀ other, (s'.step restore).2.store.find? other
            = (s.store.find? other).or (s'.store.find? other))
    ∧ (∀ t name, Step.command? t = some (.save name) → shelf.readOnly = true →
      ∃ text, s.step t = (.ok (some text), s))
    ∧ (∀ t name, Step.command? t = some (.load name) → shelf.profiles.find? name = none →
      ∃ text, s.step t = (.ok (some text), s))
    ∧ (∀ t, s.saved? t = none → (s.step t).2.storage = s.storage)
    ∧ ∀ steps, (s.run steps).saves = s.saves + (s.savedNames steps).length := by
  refine ⟨?_, ?_, ?_, ?_, saves_run s⟩
  · intro keep name steps hkeep hsteps forget restore hforget hrestore s'
    have hholds : s'.Holds name s.store := (holds_of_saved? hkeep).run hsteps
    refine ⟨?_, fun other ↦ ?_⟩
    · have hclear : s'.clear.Holds name s.store := hholds
      rw [step_clear hforget, hclear.store_load hrestore]
      exact NameMap.overlay_empty s.store
    · rw [hholds.store_load hrestore, NameMap.find?_overlay]
  · exact fun t name ht hreadOnly ↦ step_save_readOnly hstorage hreadOnly ht
  · exact fun t name ht hmissing ↦ step_load_missing hstorage ht hmissing
  · intro t ht
    rw [storage_step hstorage, ht, hstorage]

/-- A line that saves, and behind it assignments, a line that fails, one that is not committed, a
save under another name, a save behind which something is left over, and a load of an unknown name.
-/
theorem saved_profile_returns_interleaved :
    let one : Value := ⟨.ofText (utf8 "1"), 0⟩
    let shelf : Shelf := ⟨.empty, false⟩
    let s : Session Shelf :=
      { start (some shelf) with store := NameMap.empty.insert (utf8 "$x") one }
    let keep : Step := .line (utf8 "save(p)") true
    let restore : Step := .line (utf8 "load( p )") false
    let steps : List Step := [.line (utf8 "$x = 0xff") true, .line (utf8 "$y = 2") true,
      .line (utf8 "$x = 1 +") true, .line (utf8 "$x = 7") false, .save (utf8 "q"),
      .nodesOf (utf8 "save(p) )") true, .load (utf8 "r")]
    let s' := (s.step keep).2.run steps
    s.storage = some shelf ∧ s.saved? keep = some (utf8 "p")
      ∧ utf8 "p" ∉ (s.step keep).2.savedNames steps
      ∧ Step.command? .clear = some .clear ∧ restore.command? = some (.load (utf8 "p"))
      ∧ s'.store.find? (utf8 "$x") = some ⟨.ofText (utf8 "0xff"), 0⟩
      ∧ ((s'.step .clear).2.step restore).2.store = s.store
      ∧ (s'.step restore).2.store.find? (utf8 "$x") = some one
      ∧ (s'.step restore).2.store.find? (utf8 "$y") = s'.store.find? (utf8 "$y")
      ∧ s'.store.find? (utf8 "$y") = some ⟨.ofText (utf8 "2"), 0⟩
      ∧ (s.run (keep :: steps)).saves = 2 := by
  intro one shelf s keep restore steps s'
  have hstorage : s.storage = some shelf := rfl
  have hkeep : s.saved? keep = some (utf8 "p") := by decide +kernel
  have hsteps : utf8 "p" ∉ (s.step keep).2.savedNames steps := by decide +kernel
  have hrestore : restore.command? = some (.load (utf8 "p")) := by decide +kernel
  obtain ⟨hreturns, -, -, -, hsaves⟩ := saved_profile_returns hstorage
  obtain ⟨hall, hset⟩ := hreturns keep _ steps hkeep hsteps .clear restore rfl hrestore
  refine ⟨hstorage, hkeep, hsteps, rfl, hrestore, ?_, hall, ?_, ?_, ?_, ?_⟩
  · decide +kernel
  · rw [hset]
    rfl
  · rw [hset]
    rfl
  · decide +kernel
  · rw [hsaves]
    decide +kernel

end Shelf

end Session

end Abacus
