import Abacus.Proofs.Line.Literals
import Abacus.Proofs.Profile.Folder
import Abacus.Proofs.Session.Profiles

/-!
# Where profiles lie

The path of a profile is that of the folder with one component behind it, the name of a file, and no
two profiles share one (`path_confined`). On a disk this component is looked up in the folder itself
and nowhere else. So a session changes no file outside its folder (`Session.file?_run`), and what is
saved under one name leaves the files of the others as they are (`Folder.file?_save_of_ne`).

The system reads a path up to its first NUL byte. Names that differ only behind one have different
paths but share a file, which is why the statements about files ask for names without it; no name
of a line has one. The path of the folder has none either, because it comes from the command line or
from the environment.
-/

namespace Abacus

/-! ## Names of profiles in lines -/

namespace Token

theorem Lexeme.isWordByte_of_word {w : Bytes} (h : Lexeme w .word) :
    w ≠ [] ∧ ∀ b ∈ w, Bytes.isWordByte b = true := by
  cases h with
  | symbol h => cases h
  | keyword h => cases h
  | word hb hw _ =>
    refine ⟨List.cons_ne_nil _ _, List.forall_mem_cons.mpr ⟨?_, hw⟩⟩
    rw [Bytes.isWordByte, hb, Bool.true_or]

theorem Lexeme.not_mem_of_word {w : Bytes} (h : Lexeme w .word) {b : UInt8}
    (hb : Bytes.isWordByte b = false) : b ∉ w := by
  intro hmem
  rw [h.isWordByte_of_word.2 b hmem] at hb
  cases hb

end Token

namespace Line

theorem Derives.not_profile {phrase : Phrase} {ts : List Token} {ns : List Node}
    (h : Derives phrase ts ns) {n : Node} (hn : n ∈ ns) (name : Bytes) :
    ¬(n.shape = .save name ∨ n.shape = .load name) := by
  have hphrasal := h.isPhrasal n hn
  rintro (hname | hname)
  · rw [Node.kind, hname] at hphrasal
    cases hphrasal
  · rw [Node.kind, hname] at hphrasal
    cases hphrasal

theorem Sentence.exists_word {ts : List Token} {ns : List Node} (h : Sentence ts ns) {n : Node}
    (hn : n ∈ ns) {name : Bytes} (hname : n.shape = .save name ∨ n.shape = .load name) :
    ∃ t ∈ ts, t.kind = .word ∧ t.lexeme = name := by
  rcases h with _ | _ | ⟨_, _, hword, _⟩ | ⟨_, _, hword, _⟩ | h | ⟨_, h⟩ | ⟨_, _, h⟩
  · cases hn
  · obtain rfl := List.mem_singleton.mp hn
    exact absurd hname (by simp)
  · obtain rfl := List.mem_singleton.mp hn
    exact ⟨_, by simp, hword, by simpa using hname⟩
  · obtain rfl := List.mem_singleton.mp hn
    exact ⟨_, by simp, hword, by simpa using hname⟩
  · exact absurd hname (h.not_profile hn name)
  · rcases List.mem_cons.mp hn with rfl | hn
    · exact absurd hname (by simp)
    · exact absurd hname (h.not_profile hn name)
  · rcases List.mem_cons.mp hn with rfl | hn
    · exact absurd hname (by simp)
    · exact absurd hname (h.not_profile hn name)

theorem lexeme_of_profile {line : Bytes} (h : (read line).error = none) {n : Node}
    (hn : n ∈ (read line).nodes) {name : Bytes}
    (hname : n.shape = .save name ∨ n.shape = .load name) : Token.Lexeme name .word := by
  obtain ⟨hstray, ns, hsentence⟩ := sentence_of_read h
  rw [read_of_sentence hstray hsentence] at hn
  rcases List.mem_append.mp hn with hn | hn
  · obtain ⟨t, ht, hword, rfl⟩ := hsentence.exists_word hn hname
    exact hword ▸ lexeme_of_mem_significant hstray ht
  · obtain rfl := List.mem_singleton.mp hn
    exact absurd hname (by simp)

end Line

/-! ## Paths of profiles -/

namespace Profile

variable {root name name' p p' : Bytes}

theorem isFileName_eq_true_iff : isFileName name = true ↔
    name ≠ [] ∧ Path.separator ∉ name ∧ Bytes.backslash ∉ name ∧ name ≠ utf8 "."
      ∧ name ≠ utf8 ".." := by
  simp [isFileName, and_assoc]

theorem isFileName_of_word (h : Token.Lexeme name .word) : isFileName name = true := by
  have hdot : '.'.toUInt8 ∉ name := h.not_mem_of_word (by decide)
  rw [isFileName_eq_true_iff]
  refine ⟨h.isWordByte_of_word.1, h.not_mem_of_word (by decide), h.not_mem_of_word (by decide),
    ?_, ?_⟩
  · rintro rfl
    exact hdot (by decide)
  · rintro rfl
    exact hdot (by decide)

theorem path_eq_ok_iff :
    path root name = .ok p ↔ isFileName name = true ∧ p = Path.join root (fileOf name) := by
  unfold path
  split
  · next h => simp [h, eq_comm]
  · next h => simp [h]

theorem exists_path_eq_error_iff :
    (∃ e, path root name = .error e) ↔ isFileName name = false := by
  unfold path
  split
  · next h => simp [h]
  · next h => simp [h]

theorem fileOf_injective (h : fileOf name = fileOf name') : name = name' :=
  List.append_cancel_right h

theorem separator_not_mem_fileOf (h : isFileName name = true) :
    Path.separator ∉ fileOf name := by
  rw [fileOf, List.mem_append, not_or]
  exact ⟨(isFileName_eq_true_iff.mp h).2.1, by decide⟩

theorem fileName_of_path (h : path root name = .ok p) : Path.fileName p = fileOf name := by
  obtain ⟨hname, rfl⟩ := path_eq_ok_iff.mp h
  exact Path.fileName_join root (separator_not_mem_fileOf hname)

/-- **Profiles lie in their folder, each in a file of its own.** There is no path for a name exactly
if it is empty, holds a separator of some system, or is `.` or `..`. For any other name the path is
that of the folder, at most one separator, and the name of the file, which is the last component.
Nothing is put in front of the name of the file where the path of the folder is empty, so that it is
not looked for at the top of the disk. Two names have paths that differ in their last components
already. And every name that a line can ask for has a path. -/
theorem path_confined (root : Bytes) :
    (∀ name, (∃ e, path root name = .error e) ↔
      name = [] ∨ Path.separator ∈ name ∨ Bytes.backslash ∈ name ∨ name = utf8 "."
        ∨ name = utf8 "..")
    ∧ (∀ name p, path root name = .ok p →
      (∃ between, (between = [] ∨ between = [Path.separator] ∧ root ≠ [])
        ∧ p = root ++ between ++ (name ++ utf8 ".yaml"))
      ∧ Path.fileName p = name ++ utf8 ".yaml")
    ∧ (∀ name name' p p', path root name = .ok p → path root name' = .ok p' → name ≠ name' →
      p ≠ p' ∧ Path.fileName p ≠ Path.fileName p')
    ∧ ∀ line n name, (Line.read line).error = none → n ∈ (Line.read line).nodes →
      n.shape = .save name ∨ n.shape = .load name → ∃ p, path root name = .ok p := by
  refine ⟨fun name ↦ ?_, fun name p hp ↦ ⟨?_, fileName_of_path hp⟩, ?_, ?_⟩
  · rw [exists_path_eq_error_iff, ← Bool.not_eq_true, isFileName_eq_true_iff]
    simp only [ne_eq, not_and_or, not_not]
  · obtain ⟨hname, rfl⟩ := path_eq_ok_iff.mp hp
    obtain ⟨between, hbetween, heq⟩ := Path.exists_inside_eq root
    exact ⟨between, hbetween, by rw [Path.join_eq root (separator_not_mem_fileOf hname), heq]; rfl⟩
  · intro name name' p p' hp hp' hne
    have hfile : Path.fileName p ≠ Path.fileName p' := by
      rw [fileName_of_path hp, fileName_of_path hp']
      exact fun heq ↦ hne (fileOf_injective heq)
    exact ⟨fun heq ↦ hfile (congrArg Path.fileName heq), hfile⟩
  · intro line n name hread hn hname
    exact ⟨_, path_eq_ok_iff.mpr ⟨isFileName_of_word (Line.lexeme_of_profile hread hn hname), rfl⟩⟩

/-- Names of dots that lead nowhere else, in a folder that is named with a separator behind it. -/
theorem path_confined_dots :
    let root := utf8 "/home/zappac/"
    let line := utf8 "load( work )"
    let n : Node := ⟨.load (utf8 "work"), 0⟩
    (∃ e, path root (utf8 "../escape") = .error e)
      ∧ path root (utf8 "...") = .ok (utf8 "/home/zappac/....yaml")
      ∧ path root (utf8 "..a") = .ok (utf8 "/home/zappac/..a.yaml")
      ∧ Path.fileName (utf8 "/home/zappac/....yaml") = utf8 "....yaml"
      ∧ utf8 "/home/zappac/....yaml" ≠ utf8 "/home/zappac/..a.yaml"
      ∧ (Line.read line).error = none ∧ n ∈ (Line.read line).nodes
      ∧ ∃ p, path root (utf8 "work") = .ok p := by
  intro root line n
  have hdots : path root (utf8 "...") = .ok (utf8 "/home/zappac/....yaml") := by decide +kernel
  have hother : path root (utf8 "..a") = .ok (utf8 "/home/zappac/..a.yaml") := by decide +kernel
  have hread : (Line.read line).error = none := by decide +kernel
  have hn : n ∈ (Line.read line).nodes := by decide +kernel
  obtain ⟨hrefused, hfile, happart, hline⟩ := path_confined root
  refine ⟨(hrefused _).mpr (.inr (.inl (by decide))), hdots, hother, (hfile _ _ hdots).2,
    (happart _ _ _ _ hdots hother (by decide)).1, hread, hn, hline _ _ _ hread hn (.inr rfl)⟩

/-! ### Places -/

/-- The file of a profile lies directly in the folder, under its own name. -/
theorem aim_path (d : Disk) (hroot : 0 ∉ root) (hname : 0 ∉ name) (h : path root name = .ok p) :
    d.aim p = d.aim root ++ [fileOf name] := by
  obtain ⟨hfile, rfl⟩ := path_eq_ok_iff.mp h
  have hzero : 0 ∉ fileOf name := by
    rw [fileOf, List.mem_append, not_or]
    exact ⟨hname, by decide⟩
  have hlength : 5 ≤ (fileOf name).length := by
    rw [fileOf, List.length_append, show (utf8 ".yaml").length = 5 from rfl]
    exact Nat.le_add_left _ _
  have hne : ∀ s : Bytes, s.length < 5 → fileOf name ≠ s := by
    rintro s hs rfl
    exact absurd hs (Nat.not_lt.mpr hlength)
  rw [d.aim_join hroot (separator_not_mem_fileOf hfile), Bytes.untilNul_of_not_mem hzero,
    Disk.follow, if_neg, if_neg (hne _ (by decide))]
  rw [List.isEmpty_iff, not_or]
  exact ⟨hne _ (by decide), hne _ (by decide)⟩

theorem aim_path_ne (d : Disk) (hroot : 0 ∉ root) (hname : 0 ∉ name) (hname' : 0 ∉ name')
    (h : path root name = .ok p) (h' : path root name' = .ok p') (hne : name ≠ name') :
    d.aim p ≠ d.aim p' := by
  rw [aim_path d hroot hname h, aim_path d hroot hname' h']
  intro heq
  exact hne (fileOf_injective (List.singleton_inj.mp (List.append_cancel_left heq)))

end Profile

/-! ## Files outside the folder -/

namespace Folder

variable {f : Folder} {name : Bytes}

theorem file?_saveTo (f : Folder) (path : Bytes) (profile : Store) (l : Location) :
    (f.saveTo path profile).2.disk.file? l = f.disk.file? l
      ∨ ∃ d', f.disk.create path = .ok d' ∧ l = f.disk.aim path := by
  unfold saveTo
  split
  · exact .inl rfl
  · exact .inl rfl
  · next disk _ hcreate =>
    rw [Disk.file?_write_of_create hcreate]
    split
    · next heq => exact .inr ⟨disk, hcreate, heq⟩
    · exact .inl rfl

/-- Saving a profile changes no file but its own, which lies directly in the folder. -/
theorem file?_save (hroot : 0 ∉ f.root) (name : Bytes) (profile : Store) (l : Location) :
    (f.save name profile).2.disk.file? l = f.disk.file? l
      ∨ ∃ p, Profile.path f.root name = .ok p ∧ l = f.disk.aim p
        ∧ l = f.disk.aim f.root ++ [Bytes.untilNul (Profile.fileOf name)] := by
  have hmake := f.disk.sameFiles_makeFolders f.root
  unfold save
  split
  · exact .inl rfl
  · next hfolders =>
    rw [hfolders] at hmake
    exact .inl (by rw [Disk.file?, hmake.files, Disk.file?])
  · next p disk hpath hfolders =>
    rw [hfolders] at hmake
    rcases file?_saveTo { f with disk } p profile l with hsame | ⟨d', hcreate, rfl⟩
    · exact .inl (by rw [hsame, Disk.file?, hmake.files, Disk.file?])
    · refine .inr ⟨p, hpath, Disk.aim_congr hmake.working p, ?_⟩
      obtain ⟨hname, rfl⟩ := Profile.path_eq_ok_iff.mp hpath
      have hplace := Disk.aim_of_create_join hroot (Profile.separator_not_mem_fileOf hname) hcreate
      rw [← Disk.aim_congr hmake.working f.root]
      exact hplace

/-- **Profiles do not get in each other's way.** Saving one leaves the file of any other as it is.
-/
theorem file?_save_of_ne {name' p' : Bytes} (hroot : 0 ∉ f.root) (hname : 0 ∉ name)
    (hname' : 0 ∉ name') (hpath' : Profile.path f.root name' = .ok p') (hne : name ≠ name')
    (profile : Store) :
    (f.save name profile).2.disk.file? (f.disk.aim p') = f.disk.file? (f.disk.aim p') := by
  rcases file?_save hroot name profile (f.disk.aim p') with hsame | ⟨p, hpath, heq, -⟩
  · exact hsame
  · exact absurd heq.symm (Profile.aim_path_ne f.disk hroot hname hname' hpath hpath' hne)

theorem file?_saved (hroot : 0 ∉ f.root) {l : Location}
    (hl : ∀ file, l ≠ f.disk.aim f.root ++ [file]) (saves : List (Bytes × Store)) :
    (ProfileStorage.saved f saves).disk.file? l = f.disk.file? l := by
  induction saves generalizing f with
  | nil => rfl
  | cons p saves ih =>
    have hwritten := written_save f p.1 p.2
    have haim := Disk.aim_congr hwritten.working f.root
    have hfirst : (f.save p.1 p.2).2.disk.file? l = f.disk.file? l := by
      rcases file?_save hroot p.1 p.2 l with hsame | ⟨_, -, -, heq⟩
      · exact hsame
      · exact absurd heq (hl _)
    rw [← hfirst]
    refine ih (f := (f.save p.1 p.2).2) (by rwa [hwritten.root]) ?_
    rwa [hwritten.root, haim]

end Folder

namespace Session

section

variable {σ : Type} [ProfileStorage σ]

theorem exists_saved_step {s : Session σ} {storage : σ} (h : s.storage = some storage) (t : Step) :
    ∃ saves, (s.step t).2.storage = some (ProfileStorage.saved storage saves) := by
  by_cases hsave : ∃ name, t.command? = some (.save name)
  · obtain ⟨name, hname⟩ := hsave
    refine ⟨[(name, s.store)], ?_⟩
    rw [(step_of_command hname s).1]
    show (s.save name).2.storage = _
    rw [save, h]
    dsimp only
    rcases hsaved : ProfileStorage.save storage name s.store with ⟨_ | e, storage'⟩
    · simp [ProfileStorage.saved, hsaved]
    · simp [ProfileStorage.saved, hsaved]
  · obtain ⟨store, hstep⟩ := exists_store_of_ne_save (not_exists.mp hsave) s
    exact ⟨[], by rw [hstep]; exact h⟩

theorem exists_saved_run {s : Session σ} {storage : σ} (h : s.storage = some storage)
    (steps : List Step) :
    ∃ saves, (s.run steps).storage = some (ProfileStorage.saved storage saves) := by
  induction steps generalizing s storage with
  | nil => exact ⟨[], h⟩
  | cons t steps ih =>
    obtain ⟨saves, hstep⟩ := exists_saved_step h t
    obtain ⟨saves', hrun⟩ := ih hstep
    refine ⟨saves ++ saves', hrun.trans ?_⟩
    rw [ProfileStorage.saved, ProfileStorage.saved, ProfileStorage.saved, List.foldl_append]

end

/-- **A session writes in its folder alone.** Whatever steps a session takes, with any lines, any
nodes and any names, a file that does not lie directly in the folder of the profiles holds what it
held, and the folder stays the same one. -/
theorem file?_run {s : Session Folder} {f : Folder} (h : s.storage = some f) (hroot : 0 ∉ f.root)
    (steps : List Step) : ∃ f', (s.run steps).storage = some f' ∧ f'.root = f.root
      ∧ ∀ l, (∀ file, l ≠ f.disk.aim f.root ++ [file]) → f'.disk.file? l = f.disk.file? l := by
  obtain ⟨saves, hrun⟩ := exists_saved_run h steps
  exact ⟨_, hrun, (Folder.written_saved f saves).root,
    fun l hl ↦ Folder.file?_saved hroot hl saves⟩

end Session

end Abacus
