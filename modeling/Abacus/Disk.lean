import Abacus.Bytes

/-!
# Files and folders

As much of a file system as the program has to do with.
-/

namespace Abacus

/-!
## Paths

A path is a byte string with `/` between its components, as it was written: nothing is resolved or
normalised here. The functions follow the usual rules of a POSIX file system for joining paths and
for taking them apart.
-/

namespace Path

/-- The separator of components. -/
def separator : UInt8 := '/'.toUInt8

/-- A path that starts at the root. -/
def isAbsolute (path : Bytes) : Bool := path.head? = some separator

/-- A path and a component behind it, with a separator between them unless the path is empty or
ends in one. An absolute second path stands alone. -/
def join (path name : Bytes) : Bytes :=
  if isAbsolute name then name
  else if path.isEmpty ∨ path.getLast? = some separator then path ++ name
  else path ++ separator :: name

/-- The last component; a path that ends in a separator has an empty one. -/
def fileName (path : Bytes) : Bytes := (path.reverse.takeWhile (· ≠ separator)).reverse

/-- What stands before the last component, the separators included. -/
def beforeName (path : Bytes) : Bytes := (path.reverse.dropWhile (· ≠ separator)).reverse

/-- A path of separators alone, such as the top of a disk; the empty path is one too. -/
def isTop (path : Bytes) : Bool := path.all (· = separator)

/-- The path without its last component and the separators before that; the root stays. A path of
separators alone is its own parent. -/
def parent (path : Bytes) : Bytes :=
  if isTop path then path
  else
    let shorter := ((beforeName path).reverse.dropWhile (· = separator)).reverse
    if shorter.isEmpty then (beforeName path).take 1 else shorter

private theorem length_dropWhile_le (p : UInt8 → Bool) (s : Bytes) :
    (s.dropWhile p).length ≤ s.length :=
  (List.dropWhile_suffix p).length_le

private theorem dropWhile_ne_nil {p : UInt8 → Bool} {s : Bytes} {b : UInt8} (hb : b ∈ s)
    (hp : p b = false) : s.dropWhile p ≠ [] := by
  induction s with
  | nil => cases hb
  | cons c rest ih =>
    rcases List.mem_cons.mp hb with rfl | hb
    · simp [hp]
    · rw [List.dropWhile_cons]
      split
      · exact ih hb
      · exact List.cons_ne_nil c rest

theorem length_parent_lt {path : Bytes} (h : isTop path = false) :
    (parent path).length < path.length := by
  obtain ⟨r, rfl⟩ : ∃ r : Bytes, path = r.reverse := ⟨path.reverse, by simp⟩
  have hr : r.all (· = separator) = false := by simpa [isTop] using h
  simp only [parent, beforeName, h, Bool.false_eq_true, if_false, List.reverse_reverse,
    List.length_reverse]
  cases r with
  | nil => simp at hr
  | cons b rest =>
    by_cases hb : b = separator
    · subst hb
      obtain ⟨c, hc, hcs⟩ : ∃ c ∈ rest, c ≠ separator := by simpa using hr
      have hne : rest.dropWhile (· = separator) ≠ [] := dropWhile_ne_nil hc (by simpa using hcs)
      have := length_dropWhile_le (· = separator) rest
      simp [hne]
      omega
    · have h1 := length_dropWhile_le (· ≠ separator) rest
      have h2 := length_dropWhile_le (· = separator) (rest.dropWhile (· ≠ separator))
      simp only [List.dropWhile_cons, hb, not_false_eq_true, decide_true, if_true, ne_eq]
      split
      · simp only [List.length_take, List.length_reverse, List.length_cons]
        simp only [ne_eq] at h1
        omega
      · simp only [List.length_reverse, List.length_cons]
        simp only [ne_eq] at h1 h2
        omega

/-- A path, the path above it, and so on, up to the top or to a single component. -/
def ancestry (path : Bytes) : List Bytes :=
  if isTop path then (if path.isEmpty then [] else [path])
  else path :: ancestry (parent path)
termination_by path.length
decreasing_by exact length_parent_lt (Bool.eq_false_iff.mpr ‹_›)

/-- The last component without its extension: what stands before its last dot, unless the dot comes
first. The components `.` and `..` have no extension. -/
def stem (path : Bytes) : Bytes :=
  let name := fileName path
  let front := (name.reverse.dropWhile (· ≠ '.'.toUInt8)).reverse.dropLast
  if name = utf8 ".." ∨ front.isEmpty then name else front

/-- What stands between the separators of a path, the empty pieces included. -/
def pieces : Bytes → List Bytes
  | [] => [[]]
  | b :: rest => if b = separator then [] :: pieces rest else Bytes.consHead b (pieces rest)

end Path

/-!
## Disks

Files and folders by their places, as far as a program sees them. There are no links, and nobody is
refused anything. A path is followed from the left, piece by piece: each piece has to be left from a
folder, and a name has to be short enough to be looked up. So the first piece that goes wrong says
why a path leads nowhere.
-/

/-- The names of the folders from the top down to a file or a folder, its own name last. -/
abbrev Location := List Bytes

/-- The files and folders of a disk. -/
structure Disk where
  /-- The folder that relative paths start from. -/
  working : Location
  /-- Folders; those above a folder or a file need not be listed. -/
  folders : List Location
  /-- The contents of each file. -/
  files : List (Location × Bytes)

namespace Disk

/-- What lies at a place. -/
inductive Kind where
  | file
  | folder
  deriving DecidableEq, Repr

/-- Why something cannot be done with a path. -/
inductive Error where
  /-- Nothing lies there. -/
  | absent
  /-- A file lies where a folder has to be. -/
  | notFolder
  /-- Something lies there already. -/
  | present
  /-- A folder lies where a file has to be. -/
  | folder
  /-- The path is too long, or a name of it is. -/
  | tooLong
  deriving DecidableEq, Repr

/-- The words of the system for an error. -/
def Error.message : Error → Bytes
  | .absent => utf8 "No such file or directory"
  | .notFolder => utf8 "Not a directory"
  | .present => utf8 "File exists"
  | .folder => utf8 "Is a directory"
  | .tooLong => utf8 "File name too long"

/-- The errors that tell that nothing lies at a path. -/
def Error.isAbsence : Error → Bool
  | .absent | .notFolder => true
  | _ => false

/-! ### Places -/

/-- What the file at a location holds, if there is one. -/
def file? (d : Disk) (l : Location) : Option Bytes := d.files.lookup l

/-- A folder lies at a location: at the working folder, at a listed one, or above something. -/
def isFolder (d : Disk) (l : Location) : Bool :=
  (d.working :: d.folders).any (l.isPrefixOf ·) ||
    d.files.any fun f ↦ l.isPrefixOf f.1 && l != f.1

/-- What lies at a location. -/
def kind? (d : Disk) (l : Location) : Option Kind :=
  if d.isFolder l then some .folder else (d.file? l).map fun _ ↦ .file

/-- The disk with one file set. -/
def put (d : Disk) (l : Location) (contents : Bytes) : Disk :=
  { d with files := (l, contents) :: d.files.filter (·.1 != l) }

/-! ### Paths -/

/-- The bytes that a name may have. -/
def nameLimit : Nat := 255

/-- The bytes that a path may have. -/
def pathLimit : Nat := 4095

/-- The location that a path starts from. -/
def origin (d : Disk) (path : Bytes) : Location := if Path.isAbsolute path then [] else d.working

/-- One piece of a path behind a location. -/
def follow (l : Location) (piece : Bytes) : Location :=
  if piece.isEmpty ∨ piece = utf8 "." then l
  else if piece = utf8 ".." then l.dropLast
  else l ++ [piece]

/-- One piece of a path behind a location that has to be a folder. -/
def enter (d : Disk) (l : Location) (piece : Bytes) : Except Error Location :=
  match d.kind? l with
  | none => .error .absent
  | some .file => .error .notFolder
  | some .folder => if nameLimit < piece.length then .error .tooLong else .ok (follow l piece)

/-- The location that a path leads to, where something may lie or not. The path ends at its first
NUL byte, and the empty path leads nowhere. -/
def locate (d : Disk) (path : Bytes) : Except Error Location :=
  let path := Bytes.untilNul path
  if path.isEmpty then .error .absent
  else if pathLimit < path.length then .error .tooLong
  else (Path.pieces path).foldlM d.enter (d.origin path)

/-- The location that a path names, whatever lies on the way. -/
def aim (d : Disk) (path : Bytes) : Location :=
  (Path.pieces (Bytes.untilNul path)).foldl follow (d.origin path)

/-! ### Looking, reading and writing -/

/-- What lies at a path. -/
def status (d : Disk) (path : Bytes) : Except Error Kind := do
  match d.kind? (← d.locate path) with
  | some kind => return kind
  | none => throw .absent

/-- Whether a path can be opened to be read. A folder can, though it holds nothing to read. -/
def canRead (d : Disk) (path : Bytes) : Bool := (d.status path).isOk

/-- What a path holds that can be opened. -/
def read (d : Disk) (path : Bytes) : Bytes :=
  match d.locate path with
  | .ok l => (d.file? l).getD []
  | .error _ => []

/-- The disk with an empty file at a path. -/
def create (d : Disk) (path : Bytes) : Except Error Disk := do
  let l ← d.locate path
  if d.isFolder l then throw .folder
  return d.put l []

/-- The disk with a file at a path, and with the folders on the way. -/
def write (d : Disk) (path contents : Bytes) : Disk := d.put (d.aim path) contents

/-- The disk with a new folder at a path. -/
def makeFolder (d : Disk) (path : Bytes) : Except Error Disk := do
  let l ← d.locate path
  if (d.kind? l).isSome then throw .present
  return { d with folders := l :: d.folders }

/-!
## Making a folder and those above it

A folder is made together with the folders above it that are missing. They are looked for from the
path upwards, along the path as it is written: a component `..` names no folder of its own, but the
component before it is made too, because the path leads through it. What was made before an error
stays.
-/

/-- The number of missing folders that are made for one path at most. -/
def missingLimit : Nat := 1000

/-- A path whose last component names no folder of its own. -/
def isDots (path : Bytes) : Bool :=
  Path.fileName path = utf8 "." || Path.fileName path = utf8 ".."

/-- The missing folders along a path and the paths above it, in front of some that were found to be
missing below; the topmost comes first. -/
def missing (d : Disk) (found : List Bytes) : List Bytes → Except Error (List Bytes)
  | [] => .ok found
  | path :: above =>
    let found := if isDots path then found else path :: found
    if missingLimit < found.length then .error .tooLong
    else match above.head?.map d.status with
      | none | some (.ok .folder) => .ok found
      | some (.ok .file) => .error .notFolder
      | some (.error e) => if e.isAbsence then d.missing found above else .error e

/-- Makes the folders at some paths one after the other, up to one that cannot be made. A folder
that is there already is as good as made. -/
def makeEach (d : Disk) : List Bytes → Option Error × Disk
  | [] => (none, d)
  | path :: rest =>
    match d.makeFolder path, d.status path with
    | .ok d', _ => d'.makeEach rest
    | .error .present, .ok .folder => d.makeEach rest
    | .error e, _ => (some e, d)

/-- Makes the folder at a path and those above it: what went wrong, if anything, and the disk behind
it. -/
def makeFolders (d : Disk) (path : Bytes) : Option Error × Disk :=
  match d.status path with
  | .ok .folder => (none, d)
  | .ok .file => (some .notFolder, d)
  | .error e =>
    if e.isAbsence then
      let named := if (Path.fileName path).isEmpty then Path.parent path else path
      match d.missing [] (Path.ancestry named) with
      | .ok paths => d.makeEach paths
      | .error e => (some e, d)
    else (some e, d)

end Disk

end Abacus
