import Abacus.Proofs.Expression.Value
import Abacus.Proofs.Line.Literals
import Abacus.Proofs.Radix.Texts
import Abacus.Proofs.Session.Changes

/-!
# What sessions keep

Properties that all variables of a session have, whatever lines it has evaluated.
-/

namespace Abacus

/-!
## Invariants of sessions

Assignments alone bring new variables into a session; saving and loading carry them to and fro. So
what every variable has that an assignment sets, and what the storage keeps, all variables have at
all times (`Every.run`). Where this is asked for, a property of variables comes with one of storages
that says as much of the profiles in them.
-/

/-- Every variable has a property. -/
def Store.Every (P : Bytes → Value → Prop) (store : Store) : Prop :=
  ∀ name v, store.find? name = some v → P name v

namespace Store

variable {P : Bytes → Value → Prop} {store : Store}

theorem every_empty : Every P .empty := nofun

theorem Every.insert (h : store.Every P) {name : Bytes} {v : Value} (hv : P name v) :
    Every P (store.insert name v) := by
  intro other w hw
  rw [NameMap.find?_insert] at hw
  split at hw
  · next heq =>
    cases hw
    exact heq ▸ hv
  · exact h other w hw

theorem Every.overlay (h : store.Every P) {other : Store} (hother : other.Every P) :
    Every P (store.overlay other) := by
  intro name v hv
  rw [NameMap.find?_overlay] at hv
  rcases Option.or_eq_some_iff.mp hv with hv | ⟨-, hv⟩
  · exact hother name v hv
  · exact h name v hv

end Store

namespace Session

variable {σ : Type} [ProfileStorage σ] {P : Bytes → Value → Prop} {I : σ → Prop}

/-- A property of variables that assignments establish and that a storage keeps, which is said by a
property of storages. -/
structure Invariant (P : Bytes → Value → Prop) (I : σ → Prop) : Prop where
  assign {store : Store} {line target text : Bytes} {position : Nat} {e : Expr} :
    store.Every P → (Line.read line).error = none →
      (Statement.assign target position e).IsOf line →
      (Statement.assign target position e).passAnswer store = .ok text →
      P target ⟨.ofText text, position⟩
  load {storage : σ} {name : Bytes} {loaded : Store} :
    I storage → ProfileStorage.load storage name = .ok (.ok loaded) → loaded.Every P
  save {storage : σ} {profile : Store} (name : Bytes) :
    I storage → profile.Every P → I (ProfileStorage.save storage name profile).2

/-- Every variable of a session has a property, and its storage, if it has one, another. -/
structure Every (P : Bytes → Value → Prop) (I : σ → Prop) (s : Session σ) : Prop where
  store : s.store.Every P
  storage : ∀ storage, s.storage = some storage → I storage

namespace Every

variable {s : Session σ}

theorem save (hinv : Invariant P I) (h : s.Every P I) (name : Bytes) :
    (s.save name).2.Every P I := by
  cases hstorage : s.storage with
  | none =>
    rw [Session.save, hstorage]
    exact h
  | some storage =>
    have hsave := hinv.save name (h.storage storage hstorage) h.store
    rw [Session.save, hstorage]
    dsimp only
    -- a save that fails may have changed the storage as well
    rcases hsaved : ProfileStorage.save storage name s.store with ⟨_ | e, storage'⟩
    · rw [hsaved] at hsave
      refine ⟨h.store, ?_⟩
      rintro _ ⟨⟩
      exact hsave
    · rw [hsaved] at hsave
      refine ⟨h.store, ?_⟩
      rintro _ ⟨⟩
      exact hsave

theorem load (hinv : Invariant P I) (h : s.Every P I) (name : Bytes) :
    (Action.run (ExceptT.adapt Failure.broken (load name)) s).2.Every P I := by
  rw [run_load]
  cases hstorage : s.storage with
  | none => exact h
  | some storage =>
    dsimp only
    rcases hload : ProfileStorage.load storage name with b | e | loaded
    · exact h
    · exact h
    · refine ⟨h.store.overlay (hinv.load (h.storage storage hstorage) hload), ?_⟩
      rintro _ ⟨⟩
      exact h.storage storage hstorage

/-- Whatever a line does, it keeps an invariant. -/
theorem leaves (hinv : Invariant P I) (h : s.Every P I) {line : Bytes} {commit : Bool}
    {s' : Session σ} (hleaves : Leaves s line commit s') : s'.Every P I := by
  cases hleaves with
  | unchanged => exact h
  | cleared => exact ⟨Store.every_empty, h.storage⟩
  | saved name => exact h.save hinv name
  | loaded name => exact h.load hinv name
  | assigned hread hof hanswer _ =>
    exact ⟨h.store.insert (hinv.assign h.store hread hof hanswer), h.storage⟩

/-- A step keeps an invariant, unless it hands over nodes that no line was read into. -/
theorem step (hinv : Invariant P I) (h : s.Every P I) {t : Step}
    (ht : ∀ nodes commit, t ≠ .nodes nodes commit) : (s.step t).2.Every P I := by
  rw [Session.step]
  cases t with
  | line text commit =>
    rw [take, Action.run_map]
    exact h.leaves hinv (leaves_evaluate text commit s)
  | nodes nodes commit => exact absurd rfl (ht nodes commit)
  | nodesOf text commit =>
    rw [take, Action.run_map]
    exact h.leaves hinv (leaves_exec_read text commit s)
  | clear => exact ⟨Store.every_empty, h.storage⟩
  | save name => exact h.save hinv name
  | load name =>
    rw [take, Action.run_map]
    exact h.load hinv name

theorem run (hinv : Invariant P I) (h : s.Every P I) {steps : List Step}
    (hsteps : ∀ t ∈ steps, ∀ nodes commit, t ≠ .nodes nodes commit) : (s.run steps).Every P I := by
  induction steps generalizing s with
  | nil => exact h
  | cons t steps ih =>
    exact ih (h.step hinv (hsteps t List.mem_cons_self)) fun t' ht' ↦
      hsteps t' (List.mem_cons_of_mem t ht')

end Every

end Session

/-!
## What is ever stored

In a session that begins with nothing, every variable and every variable of a saved profile is at
all times a number that its text makes known. Assignments alone bring in new numerals; saving and
loading carry them to and fro.
-/

namespace Session

/-- Every variable of a session and of its profiles has a sound numeral. -/
structure Sound (s : Session Shelf) : Prop where
  store : s.store.Sound
  profiles : ∀ shelf, s.storage = some shelf →
    ∀ name profile, shelf.profiles.find? name = some profile → Store.Sound profile

/-- A value that a variable has in a session or in one of its profiles. -/
inductive Stores (s : Session Shelf) (v : Value) : Prop where
  | store {name : Bytes} (h : s.store.find? name = some v)
  | profile {shelf : Shelf} {key name : Bytes} {profile : Store} (hshelf : s.storage = some shelf)
      (hprofile : shelf.profiles.find? key = some profile) (h : profile.find? name = some v)

variable {s : Session Shelf}

theorem Sound.of_stores (h : s.Sound) {v : Value} (hv : s.Stores v) : v.numeral.Sound := by
  rcases hv with hv | ⟨hshelf, hprofile, hv⟩
  · exact h.store _ v hv
  · exact h.profiles _ hshelf _ _ hprofile _ v hv

/-! ### Assignments and shelves -/

/-- The profiles of a shelf have sound variables. -/
def SoundShelf (shelf : Shelf) : Prop :=
  ∀ name profile, shelf.profiles.find? name = some profile → Store.Sound profile

theorem sound_assigned {store : Store} (h : store.Sound) {line target : Bytes} {position : Nat}
    {e : Expr} {text : Bytes} (hread : (Line.read line).error = none)
    (hof : (Statement.assign target position e).IsOf line)
    (hanswer : (Statement.assign target position e).passAnswer store = .ok text) :
    (Numeral.ofText text).Sound := by
  have hstore : ∀ name v, store.find? name = some v → v.numeral.ShowsRadix :=
    fun name v hv ↦ (h name v hv).showsRadix
  obtain ⟨q, hq, -, htext⟩ := Statement.exists_value_of_passAnswer hstore hof.1
    (Statement.showsRadix_of_isOf hread hof) hanswer 0
  cases htext
  have hsound : q.numeral.Sound := by
    refine Expr.sound_of_value h (fun numeral p hmem ↦ ?_) hq
    have hliteral := Statement.literal_of_isOf hread hof hmem
    exact ⟨hliteral.showsRadix, hliteral.number?_ne_nan⟩
  -- the numeral is found again from its text
  have htext : Numeral.ofText q.numeral.text = q.numeral :=
    Numeral.ShowsRadix.ofText_text hsound.showsRadix
  rwa [htext]

/-- Assignments set sound variables, and a shelf gives back what it was given. -/
theorem invariant_sound : Invariant (fun _ v ↦ v.numeral.Sound) SoundShelf where
  assign hstore hread hof hanswer := sound_assigned hstore hread hof hanswer
  load hshelf hload := hshelf _ _ (find?_of_load hload)
  save {shelf profile} name hshelf hprofile := by
    simp only [ProfileStorage.save, Shelf.save]
    split
    · exact hshelf
    · intro other saved hsaved
      rw [NameMap.find?_insert] at hsaved
      split at hsaved
      · cases hsaved
        exact hprofile
      · exact hshelf other saved hsaved

/-! ### Histories -/

theorem Sound.run (h : s.Sound) {steps : List Step}
    (hsteps : ∀ t ∈ steps, ∀ nodes commit, t ≠ .nodes nodes commit) : (s.run steps).Sound := by
  have hevery : s.Every (fun _ v ↦ v.numeral.Sound) SoundShelf := ⟨h.store, h.profiles⟩
  obtain ⟨hstore, hstorage⟩ := hevery.run invariant_sound hsteps
  exact ⟨hstore, hstorage⟩

theorem sound_start {storage : Option Shelf}
    (h : ∀ shelf, storage = some shelf → shelf.profiles = .empty) : (start storage).Sound := by
  refine ⟨Store.every_empty, fun shelf hshelf name profile hprofile ↦ ?_⟩
  rw [h shelf hshelf, NameMap.find?_empty] at hprofile
  cases hprofile

/-- **Only numbers are stored.** A session begins without variables and, if it keeps profiles in
memory, without profiles. After any lines, committed or not, and any requests to forget, save and
load the variables, each variable of the session and of every profile is in lower case, shows the
radix it is read in, and is a number and no NaN. So a text that is no number in the radix it shows
is nowhere stored. -/
theorem stored_are_numbers {storage : Option Shelf}
    (hempty : ∀ shelf, storage = some shelf → shelf.profiles = .empty) {steps : List Step}
    (hsteps : ∀ t ∈ steps, ∀ nodes commit, t ≠ .nodes nodes commit) :
    ∀ v, ((start storage).run steps).Stores v → v.numeral.Sound
      ∧ ∀ text, (Numeral.ofText text).number? = none → v.numeral.text ≠ text := by
  intro v hv
  have hsound : v.numeral.Sound := ((sound_start hempty).run hsteps).of_stores hv
  refine ⟨hsound, ?_⟩
  rintro _ hnone rfl
  obtain ⟨x, hx, -⟩ := hsound.exists_number
  rw [Numeral.ShowsRadix.ofText_text hsound.showsRadix, hx] at hnone
  cases hnone

/-- A variable that was saved and loaded, next to an assignment that failed. -/
theorem stored_are_numbers_loaded :
    let storage : Option Shelf := some ⟨.empty, false⟩
    let steps : List Step := [.line (utf8 "$x = 0XFF") true, .line (utf8 "$y = 08") true,
      .save (utf8 "p"), .clear, .load (utf8 "p")]
    let s := (start storage).run steps
    let v : Value := ⟨.ofText (utf8 "0xff"), 0⟩
    (∀ shelf, storage = some shelf → shelf.profiles = .empty)
      ∧ (∀ t ∈ steps, ∀ nodes commit, t ≠ .nodes nodes commit)
      ∧ s.store.find? (utf8 "$x") = some v ∧ v.numeral.Sound
      ∧ (Numeral.ofText (utf8 "08")).number? = none ∧ v.numeral.text ≠ utf8 "08" := by
  intro storage steps s v
  have hempty : ∀ shelf, storage = some shelf → shelf.profiles = .empty := by
    intro shelf hshelf
    obtain rfl := Option.some.inj hshelf
    rfl
  have hsteps : ∀ t ∈ steps, ∀ nodes commit, t ≠ .nodes nodes commit := by
    intro t ht nodes commit
    simp only [steps, List.mem_cons, List.not_mem_nil, or_false] at ht
    rcases ht with rfl | rfl | rfl | rfl | rfl
    · nofun
    · nofun
    · nofun
    · nofun
    · nofun
  have hfind : s.store.find? (utf8 "$x") = some v := by decide +kernel
  have hnone : (Numeral.ofText (utf8 "08")).number? = none := by decide +kernel
  obtain ⟨hsound, htext⟩ := stored_are_numbers hempty hsteps v (.store hfind)
  exact ⟨hempty, hsteps, hfind, hsound, hnone, htext _ hnone⟩

end Session

/-!
## Storages without profiles of their own

A session that begins with nothing should not find variables that nobody has set. This is a matter
of its storage, which may lie anywhere and keep profiles in any form: all that is asked of a fresh
storage is that it gives back no numeral that it was not given. In a session with a fresh storage,
or with none, every variable was set by some line.
-/

/-- A variable as a line can set it: by a name of a line, to a numeral that a value can have. -/
def Settable (name : Bytes) (v : Value) : Prop :=
  Token.Lexeme name .var ∧ v.numeral.Presentable

namespace ProfileStorage

variable {σ : Type} [ProfileStorage σ]

/-- The storage behind some attempts to save profiles under names. -/
def saved (storage : σ) (saves : List (Bytes × Store)) : σ :=
  saves.foldl (fun storage p ↦ (save storage p.1 p.2).2) storage

/-- A storage without profiles of its own. What it gives back has the numerals of what it was given,
as long as it is given variables that lines can set. -/
def Fresh (storage : σ) : Prop :=
  ∀ saves : List (Bytes × Store), (∀ p ∈ saves, p.2.Every Settable) →
    ∀ name loaded, load (saved storage saves) name = .ok (.ok loaded) →
      ∀ x v, loaded.find? x = some v →
        ∃ p ∈ saves, ∃ w, p.2.find? x = some w ∧ w.numeral = v.numeral

/-- A storage that was fresh and has been given only variables with a property. -/
def IsSaved (P : Bytes → Value → Prop) (storage storage' : σ) : Prop :=
  ∃ saves, storage' = saved storage saves ∧ ∀ p ∈ saves, p.2.Every P

end ProfileStorage

namespace Session

variable {σ : Type} [ProfileStorage σ]

theorem settable_assigned {store : Store} (h : store.Every Settable) {line target : Bytes}
    {position : Nat} {e : Expr} {text : Bytes} (hread : (Line.read line).error = none)
    (hof : (Statement.assign target position e).IsOf line)
    (hanswer : (Statement.assign target position e).passAnswer store = .ok text) :
    Settable target ⟨.ofText text, position⟩ := by
  have hstore : ∀ name v, store.find? name = some v → v.numeral.Presentable :=
    fun name v hv ↦ (h name v hv).2
  obtain ⟨q, hq, -, htext⟩ := Statement.exists_value_of_passAnswer
    (fun name v hv ↦ (hstore name v hv).showsRadix) hof.1 (Statement.showsRadix_of_isOf hread hof)
    hanswer 0
  cases htext
  have hvalue : q.numeral.Presentable :=
    Expr.presentable_of_value hstore (fun _ _ ↦ Statement.literal_of_isOf hread hof) hq
  refine ⟨Statement.lexeme_target_of_isOf hread hof, ?_⟩
  show (Numeral.ofText q.numeral.text).Presentable
  rwa [hvalue.showsRadix.ofText_text]

/-- A property of numerals is that of whatever an assignment sets, where all variables have it. -/
def Assigned (Q : Numeral → Prop) : Prop :=
  ∀ {store : Store} {line target : Bytes} {position : Nat} {e : Expr} {text : Bytes},
    (store.Every fun _ v ↦ Q v.numeral) → (Line.read line).error = none →
    (Statement.assign target position e).IsOf line →
    (Statement.assign target position e).passAnswer store = .ok text → Q (.ofText text)

theorem Assigned.settable {Q : Numeral → Prop} (hQ : Assigned Q) {store : Store}
    (h : store.Every fun name v ↦ Settable name v ∧ Q v.numeral) {line target : Bytes}
    {position : Nat} {e : Expr} {text : Bytes} (hread : (Line.read line).error = none)
    (hof : (Statement.assign target position e).IsOf line)
    (hanswer : (Statement.assign target position e).passAnswer store = .ok text) :
    Settable target ⟨.ofText text, position⟩ ∧ Q (.ofText text) :=
  ⟨settable_assigned (fun name v hv ↦ (h name v hv).1) hread hof hanswer,
    hQ (fun name v hv ↦ (h name v hv).2) hread hof hanswer⟩

theorem Assigned.invariant {Q : Numeral → Prop} (hQ : Assigned Q) {storage : σ}
    (h : ProfileStorage.Fresh storage) :
    Invariant (fun name v ↦ Settable name v ∧ Q v.numeral)
      (ProfileStorage.IsSaved (fun name v ↦ Settable name v ∧ Q v.numeral) storage) where
  assign hstore hread hof hanswer := hQ.settable hstore hread hof hanswer
  load := by
    rintro _ name loaded ⟨saves, rfl, hsaves⟩ hload x v hv
    obtain ⟨p, hp, w, hw, hnumeral⟩ :=
      h saves (fun p hp x v hv ↦ (hsaves p hp x v hv).1) name loaded hload x v hv
    obtain ⟨hsettable, hQw⟩ := hsaves p hp x w hw
    exact ⟨⟨hsettable.1, hnumeral ▸ hsettable.2⟩, hnumeral ▸ hQw⟩
  save := by
    rintro _ profile name ⟨saves, rfl, hsaves⟩ hprofile
    refine ⟨saves ++ [(name, profile)], ?_, ?_⟩
    · simp [ProfileStorage.saved]
    · intro p hp
      rcases List.mem_append.mp hp with hp | hp
      · exact hsaves p hp
      · rw [List.mem_singleton.mp hp]
        exact hprofile

/-- After lines and requests to forget, save and load the variables, every variable of a session
that began with nothing is one that a line can set, and has whatever assignments bring about. -/
theorem Assigned.every {Q : Numeral → Prop} (hQ : Assigned Q) {storage : Option σ}
    (hstorage : ∀ given, storage = some given → ProfileStorage.Fresh given) {steps : List Step}
    (hsteps : ∀ t ∈ steps, ∀ nodes commit, t ≠ .nodes nodes commit) :
    ((start storage).run steps).store.Every fun name v ↦ Settable name v ∧ Q v.numeral := by
  cases storage with
  | none =>
    -- without a storage nothing is ever loaded, and any invariant of storages will do
    have hnone : Invariant (fun name v ↦ Settable name v ∧ Q v.numeral) (fun _ : σ ↦ False) :=
      ⟨fun hstore hread hof hanswer ↦ hQ.settable hstore hread hof hanswer,
        fun h _ ↦ h.elim, fun _ h _ ↦ h⟩
    have hstart : (start none : Session σ).Every (fun name v ↦ Settable name v ∧ Q v.numeral)
        (fun _ ↦ False) := ⟨Store.every_empty, nofun⟩
    exact (hstart.run hnone hsteps).store
  | some given =>
    have hstart : (start (some given)).Every (fun name v ↦ Settable name v ∧ Q v.numeral)
        (ProfileStorage.IsSaved (fun name v ↦ Settable name v ∧ Q v.numeral) given) := by
      refine ⟨Store.every_empty, ?_⟩
      rintro _ ⟨⟩
      exact ⟨[], rfl, nofun⟩
    exact (hstart.run (hQ.invariant (hstorage given rfl)) hsteps).store

theorem every_settable {storage : Option σ}
    (hstorage : ∀ given, storage = some given → ProfileStorage.Fresh given) {steps : List Step}
    (hsteps : ∀ t ∈ steps, ∀ nodes commit, t ≠ .nodes nodes commit) :
    ((start storage).run steps).store.Every Settable := by
  have hany : Assigned fun _ ↦ True := fun _ _ _ _ ↦ trivial
  exact fun name v hv ↦ (hany.every hstorage hsteps name v hv).1

end Session

/-! ### Profiles in memory -/

namespace Shelf

theorem find?_saved {shelf : Shelf} {saves : List (Bytes × Store)} {name : Bytes} {profile : Store}
    (h : (ProfileStorage.saved shelf saves).profiles.find? name = some profile) :
    shelf.profiles.find? name = some profile ∨ ∃ p ∈ saves, p.2 = profile := by
  induction saves generalizing shelf with
  | nil => exact .inl h
  | cons p saves ih =>
    rcases ih h with hbefore | ⟨p', hp', heq⟩
    · simp only [ProfileStorage.save, save] at hbefore
      split at hbefore
      · exact .inl hbefore
      · rw [NameMap.find?_insert] at hbefore
        split at hbefore
        · exact .inr ⟨p, List.mem_cons_self, Option.some.inj hbefore⟩
        · exact .inl hbefore
    · exact .inr ⟨p', List.mem_cons_of_mem p hp', heq⟩

theorem fresh_of_empty {shelf : Shelf} (h : shelf.profiles = .empty) :
    ProfileStorage.Fresh shelf := by
  intro saves _ name loaded hload x v hv
  rcases find?_saved (Session.find?_of_load hload) with hnone | ⟨p, hp, rfl⟩
  · rw [h, NameMap.find?_empty] at hnone
    cases hnone
  · exact ⟨p, hp, v, hv, rfl⟩

end Shelf

/-!
## Answers typed back

The answer of a line is the text of a literal, whether it is a literal of the line itself, or was
stored in some variable by an earlier line, or was computed and written in the radix that was asked
for. So it is a line of its own, which answers with itself.
-/

namespace Statement

/-- The radix that a statement is answered in when its expression has some numeral. -/
def answerRadix (n : Numeral) : Statement → Radix
  | output radix _ _ => radix
  | plain _ | assign _ _ _ => n.radix

/-- A text of a finite value is the text of a literal in the radix it should have, with the same
whole part. -/
theorem exists_literal_of_textOf? {statement : Statement} {q : Quantity} {text : Bytes}
    (hq : q.numeral.Presentable) (h : statement.textOf? q = some text) {negative : Bool}
    {quanta : Nat} {hquanta : Quanta.Representable quanta}
    (hfinite : q.number = .finite negative quanta hquanta) :
    ∃ n y, Line.Literal n ∧ n.text = text ∧ n.radix = statement.answerRadix q.numeral
      ∧ n.number? = some y ∧ y.truncate = q.number.truncate ∧ (n.radix = .dec → y = q.number) := by
  have hnumber := q.number?_numeral
  cases statement with
  | plain | assign =>
    cases h
    exact ⟨q.numeral, q.number, hq.literal_of_finite (hfinite ▸ hnumber), rfl, rfl, hnumber, rfl,
      fun _ ↦ rfl⟩
  | output radix _ _ =>
    by_cases hradix : radix = .dec
    · subst hradix
      cases h
      refine ⟨.ofNumber q.number, q.number, ?_, Numeral.text_ofNumber _, rfl,
        Numeral.number?_ofNumber _, rfl, fun _ ↦ rfl⟩
      rw [hfinite]
      exact Numeral.literal_ofNumber negative quanta hquanta
    · rw [textOf?, Radix.write?_eq_map_signed hradix] at h
      obtain ⟨n, hn, rfl⟩ := Option.map_eq_some_iff.mp h
      obtain ⟨htruncate, hrange⟩ := Option.filter_eq_some_iff.mp hn
      refine ⟨_, .ofInt n, Radix.literal_signed hradix n, rfl, rfl,
        Radix.read?_signed hradix (of_decide_eq_true hrange), ?_, fun h ↦ absurd h hradix⟩
      rw [Binary64.truncate_ofInt (Binary64.representable_of_truncate htruncate), htruncate]

end Statement

namespace Session

/-- A literal that is a number is answered with itself, in whatever session. -/
theorem run_evaluate_literal {τ : Type} [ProfileStorage τ] {n : Numeral} {y : Binary64}
    (h : Line.Literal n) (hy : n.number? = some y) (commit : Bool) (t : Session τ) :
    Action.run (evaluate n.text commit) t = (.ok n.text, t) := by
  have hread := Line.read_of_literal h
  have hof : (Statement.plain (.number n 0)).IsOf n.text := ⟨trivial, by rw [hread]; rfl⟩
  have hnumber : Evaluation.readNumber ⟨n, 0⟩ = .ok y := by
    refine toOption_eq_some_iff.mp ?_
    rw [Expr.toOption_readNumber, hy]
  have hanswer : (Statement.plain (.number n 0)).passAnswer t.store = .ok n.text := by
    show (Evaluation.readNumber ⟨n, 0⟩ >>= fun _ ↦ .ok n.text) = .ok n.text
    rw [hnumber, ok_bind]
  rw [run_evaluate_statement (by rw [hread]) hof, hanswer]
  rfl

variable {σ : Type} [ProfileStorage σ]

/-- **Answers are their own values.** A session begins without variables and with a storage that has
no profiles of its own, or with none. After any lines, committed or not, and any requests to forget,
save and load the variables, let a line with an expression be answered, and let the value of its
expression be finite. Then the answer is a line of one number, with the same text, in the radix that
the line asked for or else in the radix of the value. The number has the same whole part as the
value, and in decimal it is the value. In any session at all the answer is answered with itself, and
changes nothing. -/
theorem evaluate_answer {storage : Option σ}
    (hstorage : ∀ given, storage = some given → ProfileStorage.Fresh given) {steps : List Step}
    (hsteps : ∀ t ∈ steps, ∀ nodes commit, t ≠ .nodes nodes commit) {line text : Bytes}
    {statement : Statement} (hof : statement.IsOf line) {commit : Bool} {s : Session σ}
    (hrun : Action.run (evaluate line commit) ((start storage).run steps) = (.ok text, s)) :
    ∃ n x, Evaluation.evaluate ((start storage).run steps).store
        (statement.expr.nodes ++ [⟨.endOfLine, line.length⟩]) = .ok (n, x)
      ∧ ∀ negative quanta hquanta, x = .finite negative quanta hquanta →
        ∃ numeral y, Line.read text = ⟨[⟨.number numeral, 0⟩, ⟨.endOfLine, text.length⟩], none⟩
          ∧ numeral.text = text ∧ numeral.radix = statement.answerRadix n
          ∧ numeral.number? = some y ∧ y.truncate = x.truncate ∧ (numeral.radix = .dec → y = x)
          ∧ ∀ (τ : Type) [ProfileStorage τ] (t : Session τ) (commit' : Bool),
            Action.run (evaluate text commit') t = (.ok text, t) := by
  have hread := read_of_run_evaluate hrun
  have hsettable := every_settable hstorage hsteps
  have hstore : ∀ name v, ((start storage).run steps).store.find? name = some v →
      v.numeral.Presentable := fun name v hv ↦ (hsettable name v hv).2
  have hanswer : statement.passAnswer ((start storage).run steps).store = .ok text := by
    rw [run_evaluate_statement hread hof] at hrun
    split at hrun
    · next hanswer =>
      cases hrun
      exact hanswer
    · cases hrun
  obtain ⟨q, hq, hvalue, htext⟩ := Statement.exists_value_of_passAnswer
    (fun name v hv ↦ (hstore name v hv).showsRadix) hof.1 (Statement.showsRadix_of_isOf hread hof)
    hanswer line.length
  refine ⟨q.numeral, q.number, hvalue, ?_⟩
  rintro negative quanta hquanta hfinite
  have hpresentable : q.numeral.Presentable :=
    Expr.presentable_of_value hstore (fun _ _ ↦ Statement.literal_of_isOf hread hof) hq
  -- an infinity is the only numeral here that is no literal, and the value is finite
  obtain ⟨n, y, hliteral, rfl, hradix, hy, htruncate, hdecimal⟩ :=
    Statement.exists_literal_of_textOf? hpresentable htext hfinite
  exact ⟨n, y, Line.read_of_literal hliteral, rfl, hradix, hy, htruncate, hdecimal,
    fun τ _ t commit' ↦ run_evaluate_literal hliteral hy commit' t⟩

/-- A negative number in hexadecimal that was stored, saved and loaded, and is then asked for in
octal; the answer is typed into a session that has nothing. -/
theorem evaluate_answer_octal :
    let storage : Option Shelf := some ⟨.empty, false⟩
    let steps : List Step :=
      [.line (utf8 "$x = - 0XFF") true, .save (utf8 "p"), .clear, .load (utf8 "p")]
    let line := utf8 "oct $x"
    let statement := Statement.output .oct 0 (.var (utf8 "$x") 4)
    let s := (Action.run (evaluate line true) ((start storage).run steps)).2
    (∀ given, storage = some given → ProfileStorage.Fresh given)
      ∧ (∀ t ∈ steps, ∀ nodes commit, t ≠ .nodes nodes commit)
      ∧ statement.IsOf line
      ∧ Action.run (evaluate line true) ((start storage).run steps) = (.ok (utf8 "-0377"), s)
      ∧ ∀ t : Session Shelf,
        Action.run (evaluate (utf8 "-0377") false) t = (.ok (utf8 "-0377"), t) := by
  intro storage steps line statement s
  have hstorage : ∀ given, storage = some given → ProfileStorage.Fresh given := by
    intro given hgiven
    obtain rfl := Option.some.inj hgiven
    exact Shelf.fresh_of_empty rfl
  have hsteps : ∀ t ∈ steps, ∀ nodes commit, t ≠ .nodes nodes commit := by
    intro t ht nodes commit
    simp only [steps, List.mem_cons, List.not_mem_nil, or_false] at ht
    rcases ht with rfl | rfl | rfl | rfl
    · nofun
    · nofun
    · nofun
    · nofun
  have hof : statement.IsOf line := ⟨trivial, by decide +kernel⟩
  have hrun : Action.run (evaluate line true) ((start storage).run steps)
      = (.ok (utf8 "-0377"), s) := Prod.ext (by decide +kernel) rfl
  have hvalue : Evaluation.evaluate ((start storage).run steps).store
      (statement.expr.nodes ++ [⟨.endOfLine, line.length⟩])
        = .ok (.ofText (utf8 "-0xff"), .ofInt (-255)) := by decide +kernel
  obtain ⟨n, x, heval, hfinite⟩ := evaluate_answer hstorage hsteps hof hrun
  rw [hvalue] at heval
  cases heval
  have hnumber : Binary64.ofInt (-255) = .finite true (255 * Quanta.one) (by decide +kernel) := by
    decide +kernel
  obtain ⟨numeral, y, -, -, -, -, -, -, hown⟩ := hfinite _ _ _ hnumber
  exact ⟨hstorage, hsteps, hof, hrun, fun t ↦ hown Shelf t false⟩

end Session

end Abacus
