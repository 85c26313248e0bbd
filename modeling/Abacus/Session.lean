import Abacus.Evaluation
import Abacus.Line
import Abacus.Profile

/-!
# Sessions

A session is what lives from line to line: the variables, perhaps a storage of profiles, and how
often a profile has been saved. What a line does is done to the session step by step: when a step
fails, whatever was done before it stays done. A storage that fails is answered with a text, so it
does not make a line fail unless it breaks down.
-/

namespace Abacus

/-- The state of a calculator between two lines. -/
structure Session (σ : Type) where
  /-- The variables. -/
  store : Store
  /-- Where profiles are kept, if anywhere. -/
  storage : Option σ
  /-- How many times a profile has been saved. -/
  saves : Nat

namespace Session

variable {σ : Type}

/-- A session without variables. -/
def start (storage : Option σ) : Session σ := ⟨.empty, storage, 0⟩

/-- Why a line has no answer. -/
inductive Failure where
  /-- The line cannot be read. -/
  | reading (e : Line.Error)
  /-- The line has no value. -/
  | evaluating (e : Evaluation.Error)
  /-- The storage broke down. -/
  | broken (b : Breakdown)
  deriving DecidableEq

/-! ## Single actions -/

/-- The answer to a request for profiles where there is no storage. -/
def noStorage : Bytes := utf8 "Хранилище профилей не настроено"

/-- The answer to a profile that was saved or loaded. -/
def profileAnswer (name : Bytes) (done : String) (count : Nat) : Bytes :=
  utf8 "Профиль " ++ name ++ utf8 " " ++ utf8 done ++ utf8 ", переменных: " ++ Digits.ofNat 10 count

/-- The session without its variables. -/
def clear (s : Session σ) : Session σ := { s with store := .empty }

/-- The session with a variable set to the number of a text, in the radix that the text shows. -/
def assign (name : Bytes) (position : Nat) (text : Bytes) (s : Session σ) : Session σ :=
  { s with store := s.store.insert name ⟨.ofText text, position⟩ }

/-- Saves the variables under a name. -/
def save [ProfileStorage σ] (name : Bytes) (s : Session σ) : Bytes × Session σ :=
  match s.storage with
  | none => (noStorage, s)
  | some storage =>
    match ProfileStorage.save storage name s.store with
    | (some e, storage') =>
      (utf8 "Не удалось сохранить профиль: " ++ e.message, { s with storage := some storage' })
    | (none, storage') =>
      (profileAnswer name "сохранён" s.store.size,
        { s with storage := some storage', saves := s.saves + 1 })

/-- Sets the variables that were saved under a name. -/
def load [ProfileStorage σ] (name : Bytes) : ExceptT Breakdown (StateM (Session σ)) Bytes := do
  match (← get).storage with
  | none => return noStorage
  | some storage =>
    match ← ExceptT.mk (pure (ProfileStorage.load storage name)) with
    | .error e => return utf8 "Не удалось загрузить профиль: " ++ e.message
    | .ok loaded =>
      modify fun s ↦ { s with store := s.store.overlay loaded }
      return profileAnswer name "загружен" loaded.size

/-! ## Lines -/

/-- Something that a session does, which may fail. -/
abbrev Action (σ α : Type) := ExceptT Failure (StateM (Session σ)) α

/-- What an action comes to in a session, and the session behind it. -/
def Action.run {α : Type} (a : Action σ α) (s : Session σ) : Except Failure α × Session σ :=
  StateT.run (ExceptT.run a) s

/-- What an evaluation with the variables as they are comes to. -/
def consult {α : Type} (evaluation : Store → Except Evaluation.Error α) : Action σ α := do
  match evaluation (← get).store with
  | .ok a => return a
  | .error e => throw (.evaluating e)

/-- Carries out the nodes of a line. Unless it is committed, an assignment sets no variable. -/
def execFrom [ProfileStorage σ] (first : Node) (rest : List Node) (commit : Bool) :
    Action σ Bytes :=
  match first.shape with
  | .clear => do
    modify clear
    return utf8 "Переменные очищены"
  | .save profile => modifyGet (save profile)
  | .load profile => ExceptT.adapt .broken (load profile)
  | .setOutput radix => consult (Evaluation.answerIn radix first.position · rest)
  | .assign target => do
    let text ← consult (Evaluation.answer · rest)
    if commit then modify (assign target first.position text)
    return text
  | _ => consult (Evaluation.answer · (first :: rest))

/-- Carries out a list of nodes, unless it says that reading was stopped. -/
def exec [ProfileStorage σ] (nodes : List Node) (commit : Bool) : Action σ Bytes :=
  if Evaluation.isBlank nodes then return []
  else match Evaluation.stopped? nodes, nodes with
    | some position, _ => throw (.evaluating (.stopped position))
    | none, first :: rest => execFrom first rest commit
    | none, [] => return []

/-- Reads a line and carries out its nodes. -/
def evaluate [ProfileStorage σ] (line : Bytes) (commit : Bool) : Action σ Bytes :=
  match (Line.read line).error with
  | some e => throw (.reading e)
  | none => exec (Line.read line).nodes commit

/-! ## Histories -/

/-- One thing that can happen in a session. -/
inductive Step where
  /-- A line is evaluated. -/
  | line (text : Bytes) (commit : Bool)
  /-- A list of nodes is evaluated. -/
  | nodes (nodes : List Node) (commit : Bool)
  /-- The nodes of a line are evaluated, even when reading it was stopped. -/
  | nodesOf (text : Bytes) (commit : Bool)
  /-- Every variable is forgotten. -/
  | clear
  /-- The variables are saved. -/
  | save (name : Bytes)
  /-- Saved variables are set. -/
  | load (name : Bytes)
  deriving DecidableEq

/-- Takes a step, which may have an answer. -/
def take [ProfileStorage σ] : Step → Action σ (Option Bytes)
  | .line text commit => some <$> evaluate text commit
  | .nodes nodes commit => some <$> exec nodes commit
  | .nodesOf text commit => some <$> exec (Line.read text).nodes commit
  | .clear => do
    modify clear
    return none
  | .save name => some <$> modifyGet (save name)
  | .load name => some <$> ExceptT.adapt .broken (load name)

/-- What a step answers, and the session behind it. -/
def step [ProfileStorage σ] (s : Session σ) (t : Step) :
    Except Failure (Option Bytes) × Session σ :=
  (take t).run s

/-- The session behind some steps. -/
def run [ProfileStorage σ] (s : Session σ) (steps : List Step) : Session σ :=
  steps.foldl (fun s t ↦ (s.step t).2) s

end Session

end Abacus
