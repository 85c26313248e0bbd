import Abacus.Disk
import Abacus.Proofs.Bytes
import Abacus.Proofs.Except

/-!
# Paths and files

Where joined paths lead, and what files hold that are written there.
-/

namespace Abacus

/-!
## Joined paths

A name without a separator that is joined to a path is the last component of the new path, and the
last of its pieces. Whether the path ends in a separator makes no difference: there is one in front
of the name, unless the path is empty.
-/

namespace Path

/-! ### Components -/

variable {name : Bytes}

/-- What stands in front of a component that is joined to a path: the path, with a separator at its
end unless the path is empty. -/
def inside (path : Bytes) : Bytes :=
  if path.isEmpty ∨ path.getLast? = some separator then path else path ++ [separator]

theorem inside_cases (path : Bytes) :
    (path = [] ∧ inside path = [])
      ∨ ∃ front, path ≠ [] ∧ (path = front ∨ path = front ++ [separator])
        ∧ inside path = front ++ [separator] := by
  by_cases hempty : path = []
  · exact .inl ⟨hempty, by rw [hempty]; rfl⟩
  by_cases hlast : path.getLast? = some separator
  · obtain ⟨front, rfl⟩ := List.getLast?_eq_some_iff.mp hlast
    exact .inr ⟨front, hempty, .inr rfl, if_pos (.inr hlast)⟩
  · have hnot : ¬(path.isEmpty = true ∨ path.getLast? = some separator) :=
      not_or.mpr ⟨by simpa using hempty, hlast⟩
    exact .inr ⟨path, hempty, .inl rfl, if_neg hnot⟩

/-- A separator is added at most once, and never to the empty path. -/
theorem exists_inside_eq (path : Bytes) :
    ∃ between, (between = [] ∨ between = [separator] ∧ path ≠ [])
      ∧ inside path = path ++ between := by
  rcases inside_cases path with ⟨rfl, h⟩ | ⟨front, hne, rfl | rfl, h⟩
  · exact ⟨[], .inl rfl, h⟩
  · exact ⟨[separator], .inr ⟨rfl, hne⟩, h⟩
  · exact ⟨[], .inl rfl, by rw [h, List.append_nil]⟩

theorem zero_not_mem_inside {path : Bytes} (h : 0 ∉ path) : 0 ∉ inside path := by
  obtain ⟨between, hbetween, heq⟩ := exists_inside_eq path
  rw [heq, List.mem_append, not_or]
  refine ⟨h, ?_⟩
  rcases hbetween with rfl | ⟨rfl, -⟩
  · exact List.not_mem_nil
  · decide

theorem isAbsolute_of_not_mem (h : separator ∉ name) : isAbsolute name = false := by
  rw [isAbsolute, decide_eq_false_iff_not]
  intro hhead
  exact h (List.mem_of_mem_head? hhead)

theorem join_eq (path : Bytes) (h : separator ∉ name) : join path name = inside path ++ name := by
  rw [join, if_neg (by simp [isAbsolute_of_not_mem h]), inside]
  split
  · rfl
  · rw [List.append_assoc, List.singleton_append]

theorem isAbsolute_join (path : Bytes) (h : separator ∉ name) :
    isAbsolute (join path name) = isAbsolute path := by
  rw [join_eq path h]
  obtain ⟨between, -, heq⟩ := exists_inside_eq path
  obtain _ | ⟨b, rest⟩ := path
  · exact isAbsolute_of_not_mem h
  · rw [heq]
    rfl

theorem fileName_join (path : Bytes) (h : separator ∉ name) : fileName (join path name) = name := by
  have hname : ∀ b ∈ name.reverse, decide (b ≠ separator) = true := by
    intro b hb
    rw [decide_eq_true_iff]
    rintro rfl
    exact h (List.mem_reverse.mp hb)
  have hinside : (inside path).reverse.takeWhile (· ≠ separator) = [] := by
    rcases inside_cases path with ⟨-, heq⟩ | ⟨front, -, -, heq⟩
    · rw [heq]
      rfl
    · rw [heq, List.reverse_concat, List.takeWhile_cons_of_neg (by simp)]
  rw [join_eq path h, fileName, List.reverse_append, List.takeWhile_append_of_pos hname, hinside,
    List.append_nil, List.reverse_reverse]

/-! ### Pieces -/

theorem pieces_ne_nil (path : Bytes) : pieces path ≠ [] := by
  cases path with
  | nil => exact List.cons_ne_nil _ _
  | cons b rest =>
    rw [pieces]
    split
    · exact List.cons_ne_nil _ _
    · cases pieces rest with
      | nil | cons => exact List.cons_ne_nil _ _

theorem pieces_append_separator (front rest : Bytes) :
    pieces (front ++ separator :: rest) = pieces front ++ pieces rest := by
  induction front with
  | nil => exact if_pos rfl
  | cons b front ih =>
    rw [List.cons_append, pieces, pieces, ih]
    split
    · rfl
    · obtain ⟨piece, others, heq⟩ := List.exists_cons_of_ne_nil (pieces_ne_nil front)
      rw [heq]
      rfl

theorem pieces_of_not_mem (h : separator ∉ name) : pieces name = [name] := by
  induction name with
  | nil => rfl
  | cons b rest ih =>
    obtain ⟨hb, hrest⟩ := not_or.mp (mt List.mem_cons.mpr h)
    rw [pieces, if_neg (Ne.symm hb), ih hrest]
    rfl

/-- A joined component is one more piece, in place of an empty one that the path may end in. -/
theorem exists_pieces_inside (path : Bytes) :
    ∃ front, (pieces path = front ∨ pieces path = front ++ [[]])
      ∧ ∀ name, separator ∉ name → pieces (inside path ++ name) = front ++ [name] := by
  rcases inside_cases path with ⟨rfl, heq⟩ | ⟨front, -, hpath, heq⟩
  · exact ⟨[], .inr rfl, fun name h ↦ by rw [heq]; exact pieces_of_not_mem h⟩
  · refine ⟨pieces front, ?_, fun name h ↦ ?_⟩
    · rcases hpath with rfl | rfl
      · exact .inl rfl
      · exact .inr (pieces_append_separator front [])
    · rw [heq, List.append_assoc, List.singleton_append, pieces_append_separator,
        pieces_of_not_mem h]

end Path

/-!
## Files that are set

Setting a file changes what that file holds and nothing else: the other files keep what they hold,
and where a path leads stays the same, because a file is only ever set where the folders above it
are there already. A file at a path that a name was joined to lies directly in the folder at that
path, whatever the name is.
-/

namespace Disk

variable {d d' : Disk} {l l' : Location}

/-! ### Files -/

private theorem lookup_filter_ne {entries : List (Location × Bytes)} (h : l' ≠ l) :
    (entries.filter (·.1 != l)).lookup l' = entries.lookup l' := by
  induction entries with
  | nil => rfl
  | cons entry entries ih =>
    obtain ⟨key, contents⟩ := entry
    by_cases hkey : key = l
    · have hne : (l' == key) = false := by simpa [hkey] using h
      rw [List.filter_cons_of_neg (by simpa using hkey), ih, List.lookup_cons, hne]
    · rw [List.filter_cons_of_pos (by simpa using hkey), List.lookup_cons, List.lookup_cons, ih]

theorem file?_put (d : Disk) (l : Location) (contents : Bytes) (l' : Location) :
    (d.put l contents).file? l' = if l' = l then some contents else d.file? l' := by
  by_cases h : l' = l
  · rw [if_pos h, h]
    exact List.lookup_cons_self
  · have hne : (l' == l) = false := by simpa using h
    rw [if_neg h, file?, put, List.lookup_cons, hne]
    exact lookup_filter_ne h

/-! ### Folders -/

theorem isFolder_iff : d.isFolder l = true ↔
    (∃ folder ∈ d.working :: d.folders, l <+: folder)
      ∨ ∃ file ∈ d.files, l <+: file.1 ∧ l ≠ file.1 := by
  simp [isFolder]

theorem isFolder_above (h : d.isFolder l = true) (hl : l' <+: l) : d.isFolder l' = true := by
  rw [isFolder_iff] at h ⊢
  rcases h with ⟨folder, hfolder, hfront⟩ | ⟨file, hfile, hfront, hne⟩
  · exact .inl ⟨folder, hfolder, hl.trans hfront⟩
  · refine .inr ⟨file, hfile, hl.trans hfront, ?_⟩
    rintro rfl
    exact hne (hfront.eq_of_length_le hl.length_le)

/-- Every folder above a location is there. -/
def HasFolders (d : Disk) (l : Location) : Prop := ∀ l', l' <+: l → l' ≠ l → d.isFolder l' = true

theorem hasFolders_of_isFolder (h : d.isFolder l = true) : d.HasFolders l :=
  fun _ hl _ ↦ isFolder_above h hl

/-- A file that is set below folders that are there makes no folder. -/
theorem isFolder_put (h : d.HasFolders l) (contents : Bytes) (l' : Location) :
    (d.put l contents).isFolder l' = d.isFolder l' := by
  rw [Bool.eq_iff_iff]
  constructor
  · intro hput
    rcases isFolder_iff.mp hput with hfolder | ⟨file, hfile, hfront, hne⟩
    · exact isFolder_iff.mpr (.inl hfolder)
    rcases List.mem_cons.mp hfile with rfl | hfile
    -- what lies above the new file was there before
    · exact h l' hfront hne
    · exact isFolder_iff.mpr (.inr ⟨file, (List.mem_filter.mp hfile).1, hfront, hne⟩)
  · intro hold
    rcases isFolder_iff.mp hold with hfolder | ⟨file, hfile, hfront, hne⟩
    · exact isFolder_iff.mpr (.inl hfolder)
    by_cases hl : file.1 = l
    · exact isFolder_iff.mpr (.inr ⟨(l, contents), List.mem_cons_self, hl ▸ hfront, hl ▸ hne⟩)
    · refine isFolder_iff.mpr (.inr ⟨file, List.mem_cons_of_mem _ ?_, hfront, hne⟩)
      exact List.mem_filter.mpr ⟨hfile, by simpa using hl⟩

/-! ### Where a path leads -/

theorem enter_eq_ok_iff {piece : Bytes} :
    d.enter l piece = .ok l' ↔
      d.isFolder l = true ∧ piece.length ≤ nameLimit ∧ l' = follow l piece := by
  unfold enter kind?
  by_cases hfolder : d.isFolder l = true
  · rw [if_pos hfolder]
    dsimp only
    split
    · next hlong => exact ⟨nofun, fun ⟨_, hle, _⟩ ↦ absurd hlong (Nat.not_lt.mpr hle)⟩
    · next hshort =>
      refine ⟨?_, fun ⟨_, _, heq⟩ ↦ heq ▸ rfl⟩
      rintro ⟨⟩
      exact ⟨hfolder, Nat.not_lt.mp hshort, rfl⟩
  · rw [if_neg hfolder]
    refine ⟨?_, fun ⟨h, _⟩ ↦ absurd h hfolder⟩
    cases d.file? l with
    | none | some => nofun

/-- A piece leads to the folder itself or to one above it, or else to its own name in the folder. -/
theorem follow_cases (l : Location) (piece : Bytes) :
    follow l piece <+: l ∨ follow l piece = l ++ [piece] := by
  unfold follow
  split
  · exact .inl (List.prefix_refl l)
  split
  · exact .inl (List.dropLast_prefix l)
  · exact .inr rfl

theorem hasFolders_follow (h : d.isFolder l = true) (piece : Bytes) :
    d.HasFolders (follow l piece) := by
  rcases follow_cases l piece with hfront | heq
  · exact hasFolders_of_isFolder (isFolder_above h hfront)
  · rw [heq]
    intro l' hfront hne
    rcases List.prefix_concat_iff.mp hfront with rfl | hfront
    · exact absurd rfl hne
    · exact isFolder_above h hfront

theorem bind_enter_eq_ok_iff {piece : Bytes} {pieces : List Bytes} :
    (piece :: pieces).foldlM d.enter l = .ok l' ↔
      d.isFolder l = true ∧ piece.length ≤ nameLimit
        ∧ pieces.foldlM d.enter (follow l piece) = .ok l' := by
  rw [List.foldlM_cons]
  cases henter : d.enter l piece with
  | error e =>
    refine ⟨nofun, fun ⟨hfolder, hshort, _⟩ ↦ ?_⟩
    rw [enter_eq_ok_iff.mpr ⟨hfolder, hshort, rfl⟩] at henter
    cases henter
  | ok l₁ =>
    obtain ⟨hfolder, hshort, rfl⟩ := enter_eq_ok_iff.mp henter
    exact ⟨fun h ↦ ⟨hfolder, hshort, h⟩, fun ⟨_, _, h⟩ ↦ h⟩

/-- Pieces that lead somewhere lead where they aim, and there the folders are. -/
theorem foldlM_enter {pieces : List Bytes} (h : pieces.foldlM d.enter l = .ok l')
    (hl : d.HasFolders l) : pieces.foldl follow l = l' ∧ d.HasFolders l' := by
  induction pieces generalizing l with
  | nil =>
    cases h
    exact ⟨rfl, hl⟩
  | cons piece pieces ih =>
    obtain ⟨hfolder, -, hrest⟩ := bind_enter_eq_ok_iff.mp h
    exact ih hrest (hasFolders_follow hfolder piece)

theorem foldlM_enter_mono {pieces : List Bytes} (h : pieces.foldlM d.enter l = .ok l')
    (hfolders : ∀ l, d.isFolder l = true → d'.isFolder l = true) :
    pieces.foldlM d'.enter l = .ok l' := by
  induction pieces generalizing l with
  | nil => exact h
  | cons piece pieces ih =>
    obtain ⟨hfolder, hshort, hrest⟩ := bind_enter_eq_ok_iff.mp h
    exact bind_enter_eq_ok_iff.mpr ⟨hfolders l hfolder, hshort, ih hrest⟩

theorem hasFolders_origin (d : Disk) (path : Bytes) : d.HasFolders (d.origin path) := by
  refine hasFolders_of_isFolder (isFolder_above (l := d.working) ?_ ?_)
  · exact isFolder_iff.mpr (.inl ⟨d.working, List.mem_cons_self, List.prefix_refl _⟩)
  · unfold origin
    split
    · exact List.nil_prefix
    · exact List.prefix_refl _

theorem locate_eq_ok_iff {path : Bytes} :
    d.locate path = .ok l ↔
      Bytes.untilNul path ≠ [] ∧ (Bytes.untilNul path).length ≤ pathLimit
        ∧ (Path.pieces (Bytes.untilNul path)).foldlM d.enter (d.origin (Bytes.untilNul path))
          = .ok l := by
  unfold locate
  dsimp only
  by_cases hempty : Bytes.untilNul path = []
  · rw [if_pos (by simp [hempty])]
    exact ⟨nofun, fun h ↦ absurd hempty h.1⟩
  rw [if_neg (by simpa using hempty)]
  by_cases hlong : pathLimit < (Bytes.untilNul path).length
  · rw [if_pos hlong]
    exact ⟨nofun, fun h ↦ absurd hlong (Nat.not_lt.mpr h.2.1)⟩
  · rw [if_neg hlong]
    exact ⟨fun h ↦ ⟨hempty, Nat.not_lt.mp hlong, h⟩, fun h ↦ h.2.2⟩

theorem origin_untilNul {path : Bytes} (h : Bytes.untilNul path ≠ []) :
    d.origin (Bytes.untilNul path) = d.origin path := by
  obtain _ | ⟨b, rest⟩ := path
  · rfl
  by_cases hb : b = 0
  · exact absurd (by simp [Bytes.untilNul, hb]) h
  · simp [origin, Path.isAbsolute, Bytes.untilNul, hb]

/-- A path that leads somewhere leads where it aims, and there the folders are. -/
theorem aim_of_locate {path : Bytes} (h : d.locate path = .ok l) :
    d.aim path = l ∧ d.HasFolders l := by
  obtain ⟨hne, -, hpieces⟩ := locate_eq_ok_iff.mp h
  rw [aim, ← origin_untilNul hne]
  exact foldlM_enter hpieces (d.hasFolders_origin _)

theorem aim_congr (h : d'.working = d.working) (path : Bytes) : d'.aim path = d.aim path := by
  rw [aim, origin, h]
  rfl

theorem locate_mono {path : Bytes} (h : d.locate path = .ok l) (hworking : d'.working = d.working)
    (hfolders : ∀ l, d.isFolder l = true → d'.isFolder l = true) : d'.locate path = .ok l := by
  obtain ⟨hne, hle, hpieces⟩ := locate_eq_ok_iff.mp h
  refine locate_eq_ok_iff.mpr ⟨hne, hle, ?_⟩
  rw [origin, hworking]
  exact foldlM_enter_mono hpieces hfolders

/-! ### Files at paths -/

theorem locate_of_create {path : Bytes} (h : d.create path = .ok d') :
    ∃ l, d.locate path = .ok l ∧ d.isFolder l = false ∧ d' = d.put l [] := by
  unfold create at h
  cases hlocate : d.locate path with
  | error e =>
    rw [hlocate] at h
    cases h
  | ok l =>
    rw [hlocate] at h
    cases hfolder : d.isFolder l with
    | true => simp [hfolder, bind, Except.bind, throw, throwThe, MonadExceptOf.throw] at h
    | false =>
      refine ⟨l, rfl, hfolder, ?_⟩
      simp [hfolder, bind, Except.bind, pure, Except.pure] at h
      exact h.symm

/-- A file that was made and written holds what was written, and every other file what it held. -/
theorem file?_write_of_create {path : Bytes} (h : d.create path = .ok d') (contents : Bytes)
    (l : Location) :
    (d'.write path contents).file? l = if l = d.aim path then some contents else d.file? l := by
  obtain ⟨l', hlocate, -, rfl⟩ := locate_of_create h
  have haim : (d.put l' []).aim path = d.aim path := rfl
  rw [write, file?_put, file?_put, haim, (aim_of_locate hlocate).1]
  split
  · rfl
  · rfl

theorem locate_write_of_create {path other : Bytes} (h : d.create path = .ok d')
    (hother : d.locate other = .ok l) (contents : Bytes) :
    d'.locate other = .ok l ∧ (d'.write path contents).locate other = .ok l := by
  obtain ⟨l', hlocate, -, rfl⟩ := locate_of_create h
  have hfolders := (aim_of_locate hlocate).2
  have hput : ∀ l, (d.put l' []).isFolder l = d.isFolder l := isFolder_put hfolders []
  have hfolders' : (d.put l' []).HasFolders l' := fun l hfront hne ↦ by
    rw [hput]
    exact hfolders l hfront hne
  have haim : (d.put l' []).aim path = l' := (aim_of_locate hlocate).1
  -- neither takes a folder away, so every piece of the other path is entered as before
  refine ⟨locate_mono hother rfl fun l hl ↦ by rwa [hput], locate_mono hother rfl fun l hl ↦ ?_⟩
  rw [write, haim, isFolder_put hfolders']
  rwa [hput]

/-- What was written to a file that was made is read from it. -/
theorem read_write_of_create {path : Bytes} (h : d.create path = .ok d') (contents : Bytes) :
    (d'.write path contents).read path = contents := by
  obtain ⟨l, hlocate, -, -⟩ := locate_of_create h
  rw [read, (locate_write_of_create h hlocate contents).2]
  dsimp only
  rw [file?_write_of_create h, if_pos (aim_of_locate hlocate).1.symm]
  rfl

theorem read_of_create {path other : Bytes} (h : d.create path = .ok d')
    (hread : d.canRead other = true) (hne : d.aim other ≠ d.aim path) :
    d'.read other = d.read other := by
  cases hother : d.locate other with
  | error e =>
    simp [canRead, status, hother, bind, Except.bind, Except.isOk, Except.toBool] at hread
  | ok l =>
    obtain ⟨l', hlocate, -, rfl⟩ := locate_of_create h
    rw [(aim_of_locate hother).1, (aim_of_locate hlocate).1] at hne
    rw [read, read, (locate_write_of_create h hother []).1, hother]
    dsimp only
    rw [file?_put, if_neg hne]

theorem file?_of_status {path : Bytes} (h : d.status path = .ok .file) :
    d.file? (d.aim path) = some (d.read path) := by
  obtain ⟨l, hlocate, hkind⟩ : ∃ l, d.locate path = .ok l ∧ _ := bind_eq_ok_iff.mp h
  rw [(aim_of_locate hlocate).1, read, hlocate]
  unfold kind? at hkind
  by_cases hfolder : d.isFolder l = true
  · rw [if_pos hfolder] at hkind
    cases hkind
  · rw [if_neg hfolder] at hkind
    cases hfile : d.file? l with
    | none =>
      rw [hfile] at hkind
      cases hkind
    | some contents => simp [hfile]

/-! ### Files at joined paths -/

section

variable {path name : Bytes}

/-- The pieces in front of a joined component lead to the place of the path. -/
theorem exists_front_of_join (d : Disk) (hpath : 0 ∉ path) (h : Path.separator ∉ name) :
    ∃ front, Path.pieces (Bytes.untilNul (Path.join path name)) = front ++ [Bytes.untilNul name]
      ∧ front.foldl follow (d.origin (Path.join path name)) = d.aim path := by
  have hname : Path.separator ∉ Bytes.untilNul name :=
    fun hmem ↦ h ((List.takeWhile_prefix _).subset hmem)
  have horigin : d.origin (Path.join path name) = d.origin path := by
    rw [origin, origin, Path.isAbsolute_join path h]
  obtain ⟨front, hfront, hpieces⟩ := Path.exists_pieces_inside path
  refine ⟨front, ?_, ?_⟩
  · rw [Path.join_eq path h, Bytes.untilNul_append (Path.zero_not_mem_inside hpath),
      hpieces _ hname]
  · rw [horigin, aim, Bytes.untilNul_of_not_mem hpath]
    rcases hfront with hfront | hfront
    · rw [hfront]
    · -- the empty piece behind a separator at the end of the path leads nowhere else
      rw [hfront, List.foldl_append]
      rfl

theorem aim_join (d : Disk) (hpath : 0 ∉ path) (h : Path.separator ∉ name) :
    d.aim (Path.join path name) = follow (d.aim path) (Bytes.untilNul name) := by
  obtain ⟨front, hpieces, haim⟩ := d.exists_front_of_join hpath h
  rw [aim, hpieces, List.foldl_append, haim]
  rfl

theorem isFolder_of_locate_join (hpath : 0 ∉ path) (h : Path.separator ∉ name)
    (hlocate : d.locate (Path.join path name) = .ok l) : d.isFolder (d.aim path) = true := by
  obtain ⟨front, hpieces, haim⟩ := d.exists_front_of_join hpath h
  obtain ⟨hne, -, henter⟩ := locate_eq_ok_iff.mp hlocate
  rw [hpieces, List.foldlM_append, origin_untilNul hne] at henter
  obtain ⟨m, hfront, hlast⟩ := bind_eq_ok_iff.mp henter
  obtain ⟨hm, -⟩ := foldlM_enter hfront (d.hasFolders_origin _)
  rw [← haim, hm]
  exact (bind_enter_eq_ok_iff.mp hlast).1

/-- A file that can be made at a joined path lies directly in the folder at the path in front. -/
theorem aim_of_create_join (hpath : 0 ∉ path) (h : Path.separator ∉ name)
    (hcreate : d.create (Path.join path name) = .ok d') :
    d.aim (Path.join path name) = d.aim path ++ [Bytes.untilNul name] := by
  obtain ⟨l, hlocate, hfile, -⟩ := locate_of_create hcreate
  have hfolder := isFolder_of_locate_join hpath h hlocate
  rw [← (aim_of_locate hlocate).1, d.aim_join hpath h] at hfile
  rw [d.aim_join hpath h]
  rcases follow_cases (d.aim path) (Bytes.untilNul name) with hfront | heq
  · -- what is no name in the folder leads to a folder, and that is no file
    rw [isFolder_above hfolder hfront] at hfile
    cases hfile
  · exact heq

end

/-! ### Folders that are made -/

/-- The files are the same, and paths start from the same folder. -/
structure SameFiles (d d' : Disk) : Prop where
  files : d'.files = d.files
  working : d'.working = d.working

theorem SameFiles.trans {d'' : Disk} (h : d.SameFiles d') (h' : d'.SameFiles d'') :
    d.SameFiles d'' := ⟨h'.files.trans h.files, h'.working.trans h.working⟩

theorem sameFiles_makeFolder {path : Bytes} (h : d.makeFolder path = .ok d') : d.SameFiles d' := by
  obtain ⟨l, -, h⟩ : ∃ l, d.locate path = .ok l ∧ _ := bind_eq_ok_iff.mp h
  split at h
  · cases h
  · cases h
    exact ⟨rfl, rfl⟩

theorem sameFiles_makeEach (d : Disk) (paths : List Bytes) : d.SameFiles (d.makeEach paths).2 := by
  fun_induction makeEach d paths with
  | case1 d => exact ⟨rfl, rfl⟩
  | case2 d path rest d' hmake ih => exact (sameFiles_makeFolder hmake).trans ih
  | case3 d path rest hmake hstatus ih => exact ih
  | case4 d path rest e hmake hstatus => exact ⟨rfl, rfl⟩

theorem sameFiles_makeFolders (d : Disk) (path : Bytes) : d.SameFiles (d.makeFolders path).2 := by
  unfold makeFolders
  split
  · exact ⟨rfl, rfl⟩
  · exact ⟨rfl, rfl⟩
  · split
    · dsimp only
      split
      · exact sameFiles_makeEach d _
      · exact ⟨rfl, rfl⟩
    · exact ⟨rfl, rfl⟩

end Disk

end Abacus
