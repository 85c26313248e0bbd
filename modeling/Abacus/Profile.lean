import Abacus.Disk
import Abacus.Evaluation

/-!
# Profiles

Variables that are saved under names, in memory or in the files of a folder.
-/

namespace Abacus

/-!
## Profiles

A profile is a set of variables saved under a name. Where profiles are kept is open: a type of
storages says how one is loaded and how one is saved. Either may fail, and a failure is answered
with its message, which ends at its first NUL byte. Only a breakdown is not answered: it ends
whatever was going on.
-/

/-- Why a profile cannot be loaded or saved. -/
inductive StorageError where
  /-- The name is no file name. -/
  | invalidName (name : Bytes)
  /-- There is no profile at this path. -/
  | missingFile (path : Bytes)
  /-- The file at this path cannot be read as a document, for the reason that its reader gives. -/
  | unreadableFile (path complaint : Bytes)
  /-- The document at this path gives no map of variables. -/
  | malformedFile (path : Bytes)
  /-- The document at this path names a radix for a variable that there is not. -/
  | unknownRadix (name path : Bytes)
  /-- The folder of the profiles cannot be made. -/
  | noFolder (path : Bytes) (e : Disk.Error)
  /-- The profile cannot be written as a document, for the reason that its writer gives. -/
  | unwritableProfile (complaint : Bytes)
  /-- The file at this path cannot be written. -/
  | unwritableFile (path : Bytes)
  /-- There is no profile of this name. -/
  | missingProfile (name : Bytes)
  /-- Nothing can be written. -/
  | unavailable
  deriving DecidableEq, Repr

/-- The message of a storage error. -/
def StorageError.message (e : StorageError) : Bytes := Bytes.untilNul <|
  match e with
  | .invalidName name => utf8 "Недопустимое имя профиля: '" ++ name ++ utf8 "'"
  | .missingFile path => utf8 "Профиль не найден: " ++ path
  | .unreadableFile path complaint =>
    utf8 "Не удалось прочитать профиль " ++ path ++ utf8 ": " ++ complaint
  | .malformedFile path =>
    utf8 "Некорректный профиль " ++ path ++ utf8 ": variables должен быть словарём"
  | .unknownRadix name path =>
    utf8 "Некорректная система счисления у " ++ name ++ utf8 " в " ++ path
  | .noFolder path e => utf8 "Не удалось создать каталог " ++ path ++ utf8 ": " ++ e.message
  | .unwritableProfile complaint => utf8 "Не удалось сериализовать профиль: " ++ complaint
  | .unwritableFile path => utf8 "Не удалось открыть файл " ++ path
  | .missingProfile name => utf8 "нет профиля " ++ name
  | .unavailable => utf8 "диск недоступен"

/-- The system does not even tell whether anything lies at a path. -/
structure Breakdown where
  /-- The path. -/
  path : Bytes
  /-- What the system tells instead. -/
  error : Disk.Error
  deriving DecidableEq, Repr

/-- The message of a breakdown. -/
def Breakdown.message (b : Breakdown) : Bytes := Bytes.untilNul <|
  utf8 "filesystem error: status: " ++ b.error.message ++ utf8 " [" ++ b.path ++ utf8 "]"

/-- A type of storages that profiles are kept in. -/
class ProfileStorage (σ : Type) where
  /-- The profile of a name. -/
  load : σ → Bytes → Except Breakdown (Except StorageError Store)
  /-- What stands in the way of saving a profile under a name, if anything, and the storage behind
  the attempt. -/
  save : σ → Bytes → Store → Option StorageError × σ

/-!
## Profiles in memory

A shelf keeps profiles as they are, under any name. It may refuse to be written to.
-/

/-- Profiles in memory. -/
structure Shelf where
  /-- The profiles. -/
  profiles : NameMap Store
  /-- Saving fails. -/
  readOnly : Bool

namespace Shelf

/-- The profile of a name. -/
def load (s : Shelf) (name : Bytes) : Except StorageError Store :=
  match s.profiles.find? name with
  | some profile => .ok profile
  | none => .error (.missingProfile name)

/-- The shelf with the profile of a name replaced. -/
def save (s : Shelf) (name : Bytes) (profile : Store) : Option StorageError × Shelf :=
  if s.readOnly then (some .unavailable, s)
  else (none, { s with profiles := s.profiles.insert name profile })

instance : ProfileStorage Shelf where
  load s name := .ok (s.load name)
  save := save

end Shelf

/-!
## Profiles in a folder

Each profile is a file of one folder. The name of a profile has to be a plain file name, so that no
profile lies outside the folder and no two of them share a file. The folder itself, and those above
it, are made when a profile is saved; what was made stays also if saving fails afterwards.

A file is a document with an entry for each variable: its name, the text of its value and the name
of its radix. How documents are written and read is left to a codec, of which nothing is known here;
whoever relies on it says so (`Profile.Codec.Lawful`).
-/

namespace Profile

/-! ### Paths -/

/-- A name that is a file name: it is not empty, holds no separator of any system, and is neither of
the two names that lead elsewhere. -/
def isFileName (name : Bytes) : Bool :=
  !name.isEmpty && !name.contains Path.separator && !name.contains Bytes.backslash
    && name != utf8 "." && name != utf8 ".."

/-- The file of a profile. -/
def fileOf (name : Bytes) : Bytes := name ++ utf8 ".yaml"

/-- The path of a profile in the folder at a root. -/
def path (root name : Bytes) : Except StorageError Bytes :=
  if isFileName name then .ok (Path.join root (fileOf name)) else .error (.invalidName name)

/-- Where profiles are kept: in the folder that was asked for, else in the one that the environment
names, else in the place for settings at home, else right here. An empty text asks for nothing. -/
def root (asked : Option Bytes) (environment : NameMap Bytes) : Bytes :=
  let named (key : String) : Option Bytes := (environment.find? (utf8 key)).filter (!·.isEmpty)
  match asked.filter (!·.isEmpty), named "ZAPPAC_HOME", named "HOME" with
  | some folder, _, _ => folder
  | none, some folder, _ => folder
  | none, none, some home => Path.join (Path.join home (utf8 ".config")) (utf8 "zappac")
  | none, none, none => utf8 "."

/-! ### Documents -/

/-- A variable as a document has it. -/
structure Entry where
  /-- The name. -/
  name : Bytes
  /-- The text of the value. -/
  text : Bytes
  /-- The name of the radix; a document need not say it. -/
  radix : Option Bytes
  deriving DecidableEq, Repr

/-- What a reader makes of the contents of a file. -/
inductive Document where
  /-- It is no document, for the reason that is given. -/
  | unreadable (complaint : Bytes)
  /-- It says nothing of variables. -/
  | silent
  /-- What it says of variables is no map. -/
  | noMap
  /-- It has entries, each as far as it can be read. -/
  | entries (entries : List (Except Bytes Entry))

/-- A way to write and to read documents. -/
structure Codec where
  /-- The document of some entries, or why there is none. -/
  write : List Entry → Except Bytes Bytes
  /-- What the contents of a file are read as. -/
  read : Bytes → Document
  /-- What is said of a path where no file lies. -/
  noFile : Bytes → Bytes

/-- The numeral of an entry. Where no radix is named, it is the one that the text shows. -/
def Entry.numeral? (e : Entry) : Option Numeral :=
  match e.radix with
  | some name => (Radix.ofName? name).map (.ofRadix e.text)
  | none => some (.ofText e.text)

/-- Some variables, and the one of an entry in a document at a path. -/
def withEntry (path : Bytes) (store : Store) : Except Bytes Entry → Except StorageError Store
  | .error complaint => .error (.unreadableFile path complaint)
  | .ok e =>
    match e.numeral? with
    | some n => .ok (store.insert e.name ⟨n, 0⟩)
    | none => .error (.unknownRadix e.name path)

/-- The variables of a document at a path. -/
def ofDocument (path : Bytes) : Document → Except StorageError Store
  | .unreadable complaint => .error (.unreadableFile path complaint)
  | .silent => .ok .empty
  | .noMap => .error (.malformedFile path)
  | .entries entries => entries.foldlM (withEntry path) .empty

/-- The entries of some variables. -/
def entriesOf (profile : Store) : List Entry :=
  profile.entries.map fun (name, v) ↦ ⟨name, v.numeral.text, some v.numeral.radix.name⟩

end Profile

/-! ### Folders -/

/-- The folder of the profiles on a disk. -/
structure Folder where
  /-- How profiles are written and read. -/
  codec : Profile.Codec
  /-- The path of the folder, where there need not be one yet. -/
  root : Bytes
  /-- The disk. -/
  disk : Disk

namespace Folder

/-- The profile in the file at a path. -/
def loadFrom (f : Folder) (path : Bytes) : Except Breakdown (Except StorageError Store) :=
  match f.disk.status path with
  | .ok .file => .ok (Profile.ofDocument path (f.codec.read (f.disk.read path)))
  | .ok .folder => .ok (.error (.unreadableFile path (f.codec.noFile path)))
  | .error e => if e.isAbsence then .ok (.error (.missingFile path)) else .error ⟨path, e⟩

/-- The profile of a name. -/
def load (f : Folder) (name : Bytes) : Except Breakdown (Except StorageError Store) :=
  match Profile.path f.root name with
  | .ok path => f.loadFrom path
  | .error e => .ok (.error e)

/-- Writes a profile to the file at a path. -/
def saveTo (f : Folder) (path : Bytes) (profile : Store) : Option StorageError × Folder :=
  match f.codec.write (Profile.entriesOf profile), f.disk.create path with
  | .error complaint, _ => (some (.unwritableProfile complaint), f)
  | .ok _, .error _ => (some (.unwritableFile path), f)
  | .ok document, .ok disk =>
    (none, { f with disk := disk.write path (document ++ utf8 "\n") })

/-- Saves a profile under a name. -/
def save (f : Folder) (name : Bytes) (profile : Store) : Option StorageError × Folder :=
  match Profile.path f.root name, f.disk.makeFolders f.root with
  | .error e, _ => (some e, f)
  | .ok _, (some e, disk) => (some (.noFolder f.root e), { f with disk })
  | .ok path, (none, disk) => saveTo { f with disk } path profile

instance : ProfileStorage Folder := ⟨load, save⟩

end Folder

end Abacus
