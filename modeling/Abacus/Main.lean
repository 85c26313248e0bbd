import Abacus.Profile.Layout
import Abacus.Program.Run
import Std.Time

/-!
# The command line

The program on a real system: standard input and output, the files, the environment and the clock.
-/

namespace Abacus.CommandLine

/-! ## Texts and paths -/

/-- Bytes as the system takes them. -/
def pack (s : Bytes) : ByteArray := ⟨s.toArray⟩

/-- A path as the system takes it; one that is no text leads nowhere. -/
def pathOf (s : Bytes) : String := (String.fromUTF8? (pack s)).getD ""

/-- The path of a location. -/
def pathTo (l : Location) : Bytes := l.flatMap (Path.separator :: ·)

/-- The answer of an action, or another one if the action fails. -/
def orElse (action : IO α) (fallback : α) : IO α := try action catch _ => return fallback

/-! ## Files -/

/-- What a file holds; nothing if it cannot be read. -/
def contents (path : Bytes) : IO Bytes :=
  orElse (return (← IO.FS.readBinFile (pathOf path)).toList) []

/-- What lies at a path. -/
def kindAt (path : Bytes) : IO (Option Disk.Kind) := orElse (do
  let found ← IO.FS.realPath (pathOf path)
  if ← found.isDir then return some .folder
  else if ← found.pathExists then return some .file
  else return none) none

/-- The names of the profiles' files in a folder. -/
def profileFiles (folder : Bytes) : IO (List Bytes) := orElse (do
  let entries ← (← IO.FS.realPath (pathOf folder)).readDir
  return (entries.toList.map (utf8 ·.fileName)).filter ((Profile.fileOf []).isSuffixOf ·)) []

/-- A disk with what lies at the location that a path names. -/
def look (d : Disk) (path : Bytes) : IO Disk := do
  let place := pathTo (d.aim path)
  match ← kindAt place with
  | some .folder => return { d with folders := d.aim path :: d.folders }
  | some .file => return d.write path (← contents place)
  | none => return d

/-- As much of the disk as a folder of profiles has to do with: what lies on the way to it, and the
files in it. -/
def diskAround (root : Bytes) : IO Disk := do
  let working := Path.pieces (utf8 (← IO.FS.realPath ".").toString)
  let bare : Disk := ⟨working.filter (!·.isEmpty), [], []⟩
  let above ← (Path.ancestry root).foldlM look bare
  ((← profileFiles root).map (Path.join root)).foldlM look above

/-- Rights of the owner alone. -/
def ownerOnly (execution : Bool) : IO.FileRight := ⟨⟨true, true, execution⟩, {}, {}⟩

/-- Makes a folder; the folder of the profiles is for its owner alone. -/
def makeFolder (f : Folder) (l : Location) : IO Unit := do
  IO.FS.createDir (pathOf (pathTo l))
  if l = f.disk.aim f.root then IO.setAccessRights (pathOf (pathTo l)) (ownerOnly true)

/-- Writes a file for its owner alone. -/
def writePrivate (path text : Bytes) : IO Unit := do
  IO.FS.writeBinFile (pathOf path) .empty
  IO.setAccessRights (pathOf path) (ownerOnly false)
  IO.FS.writeBinFile (pathOf path) (pack text)

/-! ## The clock -/

/-- The moment of local time. -/
def moment : IO Moment := do
  let t ← Std.Time.PlainDateTime.now
  return ⟨t.date.year.toInt.toNat, t.date.month.val.toNat, t.date.day.val.toNat,
    t.time.hour.val.toNat, t.time.minute.val.toNat, t.time.second.val.toNat⟩

/-- The variables of the environment that have a value among some names. -/
def environment (names : List String) : IO (NameMap Bytes) := do
  let entries ← names.filterMapM fun name ↦
    return (← IO.getEnv name).map fun value ↦ (utf8 name, utf8 value)
  return .ofList entries

/-! ## The host -/

instance : Host IO where
  print text := do
    (← IO.getStdout).write (pack text)
    (← IO.getStdout).flush
  complain text := do (← IO.getStderr).write (pack text)
  canRead path := orElse (do
    let _ ← IO.FS.Handle.mk (pathOf path) .read
    return true) false
  read := contents
  create path := orElse (do
    IO.FS.writeBinFile (pathOf path) .empty
    return true) false
  write path text := IO.FS.writeBinFile (pathOf path) (pack text)
  openFolder root := return ⟨Profile.Layout.codec, root, ← diskAround root⟩
  keepFolder before after := do
    let made := after.disk.folders.filter fun l ↦ !before.disk.folders.contains l
    made.reverse.forM (makeFolder after)
    let written := after.disk.files.filter fun (l, text) ↦ before.disk.file? l ≠ some text
    written.forM fun (l, text) ↦ writePrivate (pathTo l) text
  environment := environment ["ZAPPAC_HOME", "HOME"]
  now := moment
  milliseconds := IO.monoMsNow

/-! ## Typed lines -/

/-- The rest of a line, behind some bytes of it in reverse; nothing at the end of the input. -/
partial def readLine (input : IO.FS.Stream) (read : Bytes) : IO (Option Bytes) := do
  match (← input.read 1).toList with
  | [] => return if read.isEmpty then none else some read.reverse
  | b :: _ =>
    if b = '\n'.toUInt8 then return some read.reverse else readLine input (b :: read)

/-- Answers typed lines until one leaves, the input ends or the storage breaks down. -/
partial def converse (o : Options) (s : Session Folder) : IO (Except Breakdown Unit) := do
  Host.print Program.prompt
  match ← readLine (← IO.getStdin) [] with
  | none => return .ok ()
  | some typed =>
    match ← Prompt.answer o s typed with
    | .line s' => converse o s'
    | .leave => return .ok ()
    | .broken b => return .error b

end Abacus.CommandLine

/-- The program; its exit code tells whether everything has a result. -/
def main (arguments : List String) : IO UInt32 := do
  let code : UInt8 ← Abacus.Program.run Abacus.CommandLine.converse (Abacus.utf8 "zappac")
    (arguments.map Abacus.utf8)
  return code.toUInt32
