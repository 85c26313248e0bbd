import Abacus.Program.Options
import Abacus.Proofs.Except
import Mathlib.Data.List.Induction

/-!
# Arguments of the program

Which arguments are in order, and what they ask for.
-/

namespace Abacus

/-!
## The language of arguments

Which arguments are in order, said without reading them from left to right: perhaps the word `run`
and a file come first, and then come settings, each spelt as its name or as one of its two names,
with a value behind the name of an option (`CommandLine`). Reading accepts these arguments unless a
report is asked for where none is written, and each option then has the value that is given last,
whatever other settings stand in between (`requested`).
-/

namespace Options

/-! ### Spelling -/

/-- The names of a flag. -/
def Flag.names : Flag → List Bytes
  | .dryRun => [utf8 "--dry-run"]
  | .trace => [utf8 "--trace"]
  | .help => [utf8 "-h", utf8 "--help"]

/-- The names of a key. -/
def Key.names : Key → List Bytes
  | .output => [utf8 "-o", utf8 "--output"]
  | .storage => [utf8 "--storage"]
  | .profile => [utf8 "--profile"]

/-- Settings and the arguments that spell them. A value may look like anything. -/
inductive Spells : List Setting → List Bytes → Prop where
  | nil : Spells [] []
  | flag {flag : Flag} {name : Bytes} {settings : List Setting} {arguments : List Bytes}
      (h : name ∈ flag.names) (hrest : Spells settings arguments) :
    Spells (.flag flag :: settings) (name :: arguments)
  | value {key : Key} {name : Bytes} (value : Bytes) {settings : List Setting}
      {arguments : List Bytes} (h : name ∈ key.names) (hrest : Spells settings arguments) :
    Spells (.value key value :: settings) (name :: value :: arguments)

/-- A file to run, if there is one, and settings, and the arguments that spell them. -/
inductive CommandLine : Option Bytes → List Setting → List Bytes → Prop where
  | plain {settings : List Setting} {arguments : List Bytes} (h : Spells settings arguments) :
    CommandLine none settings arguments
  | run (file : Bytes) {settings : List Setting} {arguments : List Bytes}
      (h : Spells settings arguments) :
    CommandLine (some file) settings (utf8 "run" :: file :: arguments)

theorem Flag.ofName?_of_mem (flag : Flag) : ∀ name ∈ flag.names, ofName? name = some flag := by
  cases flag with
  | dryRun | trace | help => decide +kernel

/-- No key has the name of a flag. -/
theorem Key.ofName?_of_mem (key : Key) :
    ∀ name ∈ key.names, Flag.ofName? name = none ∧ ofName? name = some key := by
  cases key with
  | output | storage | profile => decide +kernel

theorem Flag.mem_names_of_ofName? {name : Bytes} {flag : Flag} (h : ofName? name = some flag) :
    name ∈ flag.names := by
  unfold ofName? at h
  split at h
  · next hname =>
    cases h
    simpa [names] using hname
  split at h
  · next hname =>
    cases h
    simpa [names] using hname
  split at h
  · next hname =>
    cases h
    simpa [names] using hname
  · cases h

theorem Key.mem_names_of_ofName? {name : Bytes} {key : Key} (h : ofName? name = some key) :
    name ∈ key.names := by
  unfold ofName? at h
  split at h
  · next hname =>
    cases h
    simpa [names] using hname
  split at h
  · next hname =>
    cases h
    simpa [names] using hname
  split at h
  · next hname =>
    cases h
    simpa [names] using hname
  · cases h

theorem readSettings_eq_ok_iff {arguments : List Bytes} {settings : List Setting} :
    readSettings arguments = .ok settings ↔ Spells settings arguments := by
  constructor
  · intro h
    fun_induction readSettings arguments generalizing settings with
    | case1 =>
      cases h
      exact .nil
    | case2 name flag rest hflag ih =>
      obtain ⟨found, hrest, rfl⟩ := map_eq_ok_iff.mp h
      exact .flag (Flag.mem_names_of_ofName? hflag) (ih hrest)
    | case3 name key value rest hkey hflag ih =>
      obtain ⟨found, hrest, rfl⟩ := map_eq_ok_iff.mp h
      exact .value value (Key.mem_names_of_ofName? hkey) (ih hrest)
    | case4 | case5 => cases h
  · intro h
    induction h with
    | nil => rfl
    | flag h _ ih =>
      rw [readSettings.eq_def]
      simp only [Flag.ofName?_of_mem _ _ h, ih]
      rfl
    | value value h _ ih =>
      obtain ⟨hflag, hkey⟩ := Key.ofName?_of_mem _ _ h
      rw [readSettings.eq_def]
      simp only [hflag, hkey, ih]
      rfl

theorem Spells.head_ne_run {settings : List Setting} {first : Bytes} {rest : List Bytes}
    (h : Spells settings (first :: rest)) : first ≠ utf8 "run" := by
  have hflag : ∀ flag : Flag, utf8 "run" ∉ flag.names := by
    intro flag
    cases flag with
    | dryRun | trace | help => decide +kernel
  have hkey : ∀ key : Key, utf8 "run" ∉ key.names := by
    intro key
    cases key with
    | output | storage | profile => decide +kernel
  rintro rfl
  rcases h with _ | hname | ⟨_, hname⟩
  · exact hflag _ hname
  · exact hkey _ hname

/-! ### What settings ask for -/

/-- The value that a setting gives to a key. -/
def Setting.value? (key : Key) : Setting → Option Bytes
  | .flag _ => none
  | .value key' v => if key' = key then some v else none

/-- The last value that some settings give to a key. -/
def lastValue? (key : Key) (settings : List Setting) : Option Bytes :=
  (settings.filterMap (Setting.value? key)).getLast?

/-- What settings ask for, where `file` is the file to run. -/
def requested (file : Option Bytes) (settings : List Setting) : Options where
  mode := if .flag .help ∈ settings then .help else if file.isSome then .batch else .interactive
  input := file.getD []
  output := lastValue? .output settings
  storage := lastValue? .storage settings
  profile := lastValue? .profile settings
  dryRun := decide (.flag .dryRun ∈ settings)
  trace := decide (.flag .trace ∈ settings)

/-- A report is asked for only where a file is run. -/
def Allowed (file : Option Bytes) (settings : List Setting) : Prop :=
  (∀ path, .value .output path ∉ settings) ∨ (file.isSome ∧ .flag .help ∉ settings)

theorem lastValue?_concat (key : Key) (settings : List Setting) (setting : Setting) :
    lastValue? key (settings ++ [setting]) = (setting.value? key).or (lastValue? key settings) := by
  rw [lastValue?, List.filterMap_append, List.getLast?_append]
  cases h : setting.value? key with
  | none => simp [h, lastValue?]
  | some v => simp [h, lastValue?]

theorem Setting.value?_eq_some_iff {key : Key} {setting : Setting} {v : Bytes} :
    setting.value? key = some v ↔ setting = .value key v := by
  cases setting with
  | flag => simp [value?]
  | value key' w => simp [value?]

theorem lastValue?_isSome_iff {key : Key} {settings : List Setting} :
    (lastValue? key settings).isSome = true ↔ ∃ v, .value key v ∈ settings := by
  have hmem : ∀ v, v ∈ settings.filterMap (Setting.value? key) ↔ .value key v ∈ settings := by
    simp only [List.mem_filterMap, Setting.value?_eq_some_iff, exists_eq_right, implies_true]
  rw [lastValue?, List.getLast?_isSome]
  constructor
  · intro h
    obtain ⟨v, hv⟩ := List.exists_mem_of_ne_nil _ h
    exact ⟨v, (hmem v).mp hv⟩
  · rintro ⟨v, hv⟩
    exact List.ne_nil_of_mem ((hmem v).mpr hv)

theorem requested_concat (file : Option Bytes) (settings : List Setting) (setting : Setting) :
    requested file (settings ++ [setting]) = (requested file settings).set setting := by
  cases setting with
  | flag flag =>
    cases flag with
    | dryRun | trace | help => simp [requested, set, lastValue?_concat, Setting.value?]
  | value key value =>
    cases key with
    | output | storage | profile => simp [requested, set, lastValue?_concat, Setting.value?]

theorem foldl_set_requested (file : Option Bytes) (settings : List Setting) :
    settings.foldl set (requested file []) = requested file settings := by
  induction settings using List.reverseRecOn with
  | nil => rfl
  | append_singleton settings setting ih =>
    rw [List.foldl_append, ih, requested_concat]
    rfl

theorem check_requested (file : Option Bytes) (settings : List Setting) :
    check (requested file settings) = .ok (requested file settings) ↔ Allowed file settings := by
  have hmode : (requested file settings).mode ≠ .batch
      ↔ file.isSome = false ∨ .flag .help ∈ settings := by
    simp only [requested]
    split_ifs with hhelp hfile
    · simp [hhelp]
    · simp [hhelp, hfile]
    · simp [hfile]
  have houtput : (requested file settings).output.isSome = true
      ↔ ∃ path, .value .output path ∈ settings := lastValue?_isSome_iff
  have hallowed : Allowed file settings ↔ ¬((requested file settings).output.isSome = true
      ∧ (requested file settings).mode ≠ .batch) := by
    rw [houtput, hmode, not_and_or, not_exists, not_or, Bool.not_eq_false, Allowed]
  rw [hallowed, check]
  split
  · next hfails => exact ⟨nofun, fun h ↦ absurd hfails h⟩
  · next hholds => exact ⟨fun _ ↦ hholds, fun _ ↦ rfl⟩

/-! ### Reading -/

theorem read_of_commandLine {file : Option Bytes} {settings : List Setting}
    {arguments : List Bytes} (h : CommandLine file settings arguments) :
    read arguments = check (requested file settings) := by
  have hfrom : ∀ file, ∀ {settings} {arguments : List Bytes}, Spells settings arguments →
      readFrom (requested file []) arguments = check (requested file settings) := by
    intro file settings arguments hspells
    rw [readFrom, readSettings_eq_ok_iff.mpr hspells, ok_bind, foldl_set_requested]
  rcases h with h | ⟨file, h⟩
  · rcases arguments with _ | ⟨first, rest⟩
    · cases h
      rfl
    · rw [read.eq_def]
      dsimp only
      rw [if_neg h.head_ne_run]
      exact hfrom none h
  · rw [read, if_pos rfl]
    exact hfrom (some file) h

theorem exists_commandLine_of_read {arguments : List Bytes} {o : Options}
    (h : read arguments = .ok o) : ∃ file settings, CommandLine file settings arguments := by
  have hfrom : ∀ {start} {arguments : List Bytes}, readFrom start arguments = .ok o →
      ∃ settings, Spells settings arguments := by
    intro start arguments h
    obtain ⟨settings, hsettings, -⟩ := bind_eq_ok_iff.mp h
    exact ⟨settings, readSettings_eq_ok_iff.mp hsettings⟩
  unfold read at h
  split at h
  · exact ⟨none, [], .plain .nil⟩
  · next first rest =>
    split at h
    · next hrun =>
      subst hrun
      split at h
      · cases h
      · next file arguments =>
        obtain ⟨settings, hspells⟩ := hfrom h
        exact ⟨some file, settings, .run file hspells⟩
    · obtain ⟨settings, hspells⟩ := hfrom h
      exact ⟨none, settings, .plain hspells⟩

/-! ### The order of settings -/

/-- The option that a setting is made of, apart from its value. -/
def Setting.option : Setting → Flag ⊕ Key
  | .flag f => .inl f
  | .value key _ => .inr key

/-- The settings of each option are the same, in the same order; settings of different options may
stand in any order. -/
def SameForEach (settings settings' : List Setting) : Prop :=
  ∀ option, settings'.filter (·.option = option) = settings.filter (·.option = option)

theorem SameForEach.flag_mem_iff {settings settings' : List Setting}
    (h : SameForEach settings settings') (flag : Flag) :
    .flag flag ∈ settings' ↔ .flag flag ∈ settings := by
  have hmem : ∀ settings : List Setting, .flag flag ∈ settings
      ↔ .flag flag ∈ settings.filter (·.option = .inl flag) := by
    simp [List.mem_filter, Setting.option]
  rw [hmem, h, ← hmem]

theorem SameForEach.lastValue?_eq {settings settings' : List Setting}
    (h : SameForEach settings settings') (key : Key) :
    lastValue? key settings' = lastValue? key settings := by
  have hfilter : ∀ settings : List Setting, lastValue? key settings
      = lastValue? key (settings.filter (·.option = .inr key)) := by
    intro settings
    rw [lastValue?, lastValue?, List.filterMap_filter]
    congr 2
    funext setting
    cases setting with
    | flag => rfl
    | value key' value => simp [Setting.value?, Setting.option]
  rw [hfilter, h, ← hfilter]

theorem SameForEach.requested_eq {settings settings' : List Setting}
    (h : SameForEach settings settings') (file : Option Bytes) :
    requested file settings' = requested file settings := by
  simp only [requested, h.flag_mem_iff, h.lastValue?_eq]

/-- **The language of arguments.** Arguments ask for something exactly if they spell settings,
perhaps behind `run` and a file, and a report is asked for, if at all, where a file is run and not
only explained. They ask for help if there is a flag for it, else for a run if there is a file, else
for an interactive session; an option has its last value, and a flag is set if it is there. All
other arguments are refused. So the order of settings of different options does not matter. -/
theorem read_iff_commandLine (arguments : List Bytes) :
    (∀ o, read arguments = .ok o ↔ ∃ file settings, CommandLine file settings arguments
      ∧ Allowed file settings ∧ o = requested file settings)
    ∧ ((∃ e, read arguments = .error e) ↔
      ¬∃ file settings, CommandLine file settings arguments ∧ Allowed file settings)
    ∧ ∀ file settings settings' arguments', CommandLine file settings arguments →
      CommandLine file settings' arguments' → SameForEach settings settings' →
      read arguments' = read arguments := by
  have hok : ∀ o, read arguments = .ok o ↔ ∃ file settings, CommandLine file settings arguments
      ∧ Allowed file settings ∧ o = requested file settings := by
    intro o
    constructor
    · intro h
      obtain ⟨file, settings, hline⟩ := exists_commandLine_of_read h
      have hcheck := read_of_commandLine hline ▸ h
      obtain rfl : requested file settings = o := by
        unfold check at hcheck
        split at hcheck
        · cases hcheck
        · exact Except.ok.inj hcheck
      exact ⟨file, settings, hline, (check_requested file settings).mp hcheck, rfl⟩
    · rintro ⟨file, settings, hline, hallowed, rfl⟩
      rw [read_of_commandLine hline, (check_requested file settings).mpr hallowed]
  refine ⟨hok, ⟨?_, fun hnone ↦ ?_⟩, ?_⟩
  · rintro ⟨e, herror⟩ ⟨file, settings, hline, hallowed⟩
    rw [(hok _).mpr ⟨file, settings, hline, hallowed, rfl⟩] at herror
    cases herror
  · cases hread : read arguments with
    | error e => exact ⟨e, rfl⟩
    | ok o =>
      obtain ⟨file, settings, hline, hallowed, -⟩ := (hok o).mp hread
      exact absurd ⟨file, settings, hline, hallowed⟩ hnone
  · intro file settings settings' arguments' hline hline' hsame
    rw [read_of_commandLine hline, read_of_commandLine hline', hsame.requested_eq file]

/-- A file and values that look like settings. -/
example : read [utf8 "run", utf8 "--help", utf8 "-o", utf8 "--trace", utf8 "--storage", utf8 "-h",
    utf8 "--output", utf8 "run"]
      = .ok { mode := .batch, input := utf8 "--help", output := some (utf8 "run"),
              storage := some (utf8 "-h") } := by
  decide +kernel

/-!
## Settings behind settings

Arguments are read from left to right, and a setting behind others is made last. So a flag at the
end of arguments that are in order adds what it asks for, and nothing else.
-/

theorem readSettings_append {arguments arguments' : List Bytes} {settings settings' : List Setting}
    (h : readSettings arguments = .ok settings) (h' : readSettings arguments' = .ok settings') :
    readSettings (arguments ++ arguments') = .ok (settings ++ settings') := by
  fun_induction readSettings arguments generalizing settings with
  | case1 =>
    cases h
    exact h'
  | case2 name flag rest hflag ih =>
    obtain ⟨found, hrest, rfl⟩ := map_eq_ok_iff.mp h
    rw [List.cons_append, readSettings.eq_def]
    simp only [hflag, ih hrest]
    rfl
  | case3 name key value rest hkey hflag ih =>
    obtain ⟨found, hrest, rfl⟩ := map_eq_ok_iff.mp h
    rw [List.cons_append, List.cons_append, readSettings.eq_def]
    simp only [hflag, hkey, ih hrest]
    rfl
  | case4 | case5 => cases h

/-- With `--trace` at their end, arguments ask for the same, and for tokens and nodes to be shown.
-/
theorem read_append_trace {arguments : List Bytes} {o : Options} (h : read arguments = .ok o) :
    read (arguments ++ [utf8 "--trace"]) = .ok { o with trace := true } := by
  have hflag : readSettings [utf8 "--trace"] = .ok [.flag .trace] := by decide +kernel
  have hfrom : ∀ start settings, readFrom start settings = .ok o →
      readFrom start (settings ++ [utf8 "--trace"]) = .ok { o with trace := true } := by
    intro start settings h
    obtain ⟨found, hfound, hcheck⟩ := bind_eq_ok_iff.mp h
    rw [readFrom, readSettings_append hfound hflag, ok_bind, List.foldl_append]
    unfold check at hcheck ⊢
    split at hcheck
    · cases hcheck
    · next hne =>
      cases hcheck
      exact if_neg hne
  unfold read at h
  split at h
  · cases h
    decide +kernel
  · next first rest =>
    rw [List.cons_append, read.eq_def]
    dsimp only
    split at h
    · next hrun =>
      rw [if_pos hrun]
      split at h
      · cases h
      · next input settings => exact hfrom _ settings h
    · next hrun =>
      rw [if_neg hrun]
      exact hfrom _ (first :: rest) h

end Options

end Abacus
