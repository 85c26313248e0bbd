import Abacus.NameMap
import Abacus.Profile
import Abacus.Profile.Layout
import Abacus.Proofs.Bytes
import Abacus.Proofs.Disk
import Abacus.Proofs.Session.Invariants
import Abacus.Proofs.Token.Segmentation

/-!
# Profiles in files

What a folder of profiles gives back, with any codec that reads what it writes, and a codec that
does.
-/

namespace Abacus

/-!
## Entries of maps

An entry of a map is what a lookup of its name finds, and a map that was made of a list has its
entries from that list.
-/

namespace NameMap

variable {α : Type} {name : Bytes} {value : α}

theorem lookup_of_mem {entries : List (Bytes × α)} (h : Ascending entries)
    (hmem : (name, value) ∈ entries) : lookup name entries = some value := by
  induction entries with
  | nil => cases hmem
  | cons head rest ih =>
    obtain ⟨hhead, hrest⟩ := List.pairwise_cons.mp h
    rcases List.mem_cons.mp hmem with rfl | hmem
    · exact if_pos rfl
    · -- a later name is greater than the first one
      have hne : head.1 ≠ name := by
        have hlt := hhead (name, value) hmem
        rintro rfl
        exact List.lt_irrefl _ hlt
      rw [lookup, if_neg hne]
      exact ih hrest hmem

theorem find?_of_mem {m : NameMap α} (h : (name, value) ∈ m.entries) :
    m.find? name = some value := lookup_of_mem m.ascending h

theorem mem_of_find?_ofList {entries : List (Bytes × α)}
    (h : (ofList entries).find? name = some value) : (name, value) ∈ entries := by
  have key : ∀ m : NameMap α,
      (entries.foldl (fun m entry ↦ m.insert entry.1 entry.2) m).find? name = some value →
        (name, value) ∈ entries ∨ m.find? name = some value := by
    clear h
    induction entries with
    | nil => exact fun m h ↦ .inr h
    | cons entry entries ih =>
      intro m h
      rcases ih _ h with hmem | hfind
      · exact .inl (List.mem_cons_of_mem entry hmem)
      rw [find?_insert] at hfind
      split at hfind
      · next heq =>
        cases hfind
        exact .inl (heq ▸ List.mem_cons_self)
      · exact .inr hfind
  exact (key empty h).resolve_right nofun

end NameMap

/-!
## Folders without profiles

A folder is a fresh storage when none of its profiles is there yet, whatever else lies on the disk.
What saving leaves is the same for each attempt, whether it succeeds or not: a file is as it was, or
it is the document of a profile that was to be saved (`Written`). So only such a document can be
loaded, and if the codec reads what it writes, it has the numerals of its profile.
-/

/-! ### Documents -/

namespace Profile

/-- An entry that says everything in characters that can be printed. -/
structure Entry.IsPlain (e : Entry) : Prop where
  name : ∀ b ∈ e.name, Bytes.IsPrintable b
  text : ∀ b ∈ e.text, Bytes.IsPrintable b
  radix : ∃ radix : Radix, e.radix = some radix.name

/-- A codec that reads what it writes. This is asked of plain entries with different names only, and
of the document as it stands in a file, with a line feed behind it. -/
structure Codec.Lawful (codec : Codec) : Prop where
  read_write : ∀ entries document, (∀ e ∈ entries, e.IsPlain) → (entries.map (·.name)).Nodup →
    codec.write entries = .ok document →
      codec.read (document ++ utf8 "\n") = .entries (entries.map .ok)

theorem nodup_names (profile : Store) : ((entriesOf profile).map (·.name)).Nodup := by
  have hnames : (entriesOf profile).map (·.name) = profile.entries.map (·.1) := by
    simp [entriesOf, Function.comp_def]
  rw [hnames]
  refine List.pairwise_map.mpr (profile.ascending.imp fun hlt heq ↦ ?_)
  exact List.lt_irrefl _ (heq ▸ hlt)

theorem ofName?_name (radix : Radix) : Radix.ofName? radix.name = some radix := by
  cases radix with
  | dec | hex | bin | oct => decide +kernel

/-- The entries of a profile have its variables, without the places of their values. -/
theorem ofDocument_entriesOf (path : Bytes) (profile : Store) :
    ofDocument path (.entries ((entriesOf profile).map .ok))
      = .ok (.ofList (profile.entries.map fun (name, v) ↦ (name, ⟨v.numeral, 0⟩))) := by
  have hentry : ∀ (store : Store) (name : Bytes) (n : Numeral),
      withEntry path store (.ok ⟨name, n.text, some n.radix.name⟩)
        = .ok (store.insert name ⟨n, 0⟩) := by
    intro store name n
    have hnumeral : Entry.numeral? ⟨name, n.text, some n.radix.name⟩ = some n := by
      rw [Entry.numeral?]
      dsimp only
      rw [ofName?_name, Option.map_some, Numeral.ofRadix_of_lower n.lower_text]
    rw [withEntry, hnumeral]
  rw [ofDocument, entriesOf, NameMap.ofList]
  generalize NameMap.empty = store
  induction profile.entries generalizing store with
  | nil => rfl
  | cons head entries ih =>
    rw [List.map_cons, List.map_cons, List.foldlM_cons, hentry]
    exact ih _

end Profile

/-! ### Variables in documents -/

theorem Bytes.isPrintable_lower {s : Bytes} (h : ∀ b ∈ s, IsPrintable b) :
    ∀ b ∈ lower s, IsPrintable b := by
  have hall : ∀ n : Fin 256, IsPrintable (.ofFin n) → IsPrintable (lowerByte (.ofFin n)) := by
    decide +kernel
  intro b hb
  obtain ⟨c, hc, rfl⟩ := List.mem_map.mp hb
  exact hall c.toFin (h c hc)

theorem Numeral.Presentable.isPrintable {n : Numeral} (h : n.Presentable) :
    ∀ b ∈ n.text, Bytes.IsPrintable b := by
  cases h with
  | literal h =>
    cases h with
    | plain h => exact Bytes.isPrintable_lower (h.isPrintable nofun)
    | negated h =>
      exact Bytes.isPrintable_lower (List.forall_mem_cons.mpr ⟨by decide, h.isPrintable nofun⟩)
  | infinite negative =>
    cases negative with
    | false | true => decide +kernel

theorem Store.Every.isPlain {profile : Store} (h : profile.Every Settable) :
    ∀ e ∈ Profile.entriesOf profile, e.IsPlain := by
  intro e he
  obtain ⟨⟨name, v⟩, hmem, rfl⟩ := List.mem_map.mp he
  obtain ⟨hname, hvalue⟩ := h name v (NameMap.find?_of_mem hmem)
  exact ⟨hname.isPrintable nofun, hvalue.isPrintable, v.numeral.radix, rfl⟩

namespace Folder

/-! ### What saving leaves -/

/-- A folder behind some attempts to save profiles. -/
structure Written (f : Folder) (saves : List (Bytes × Store)) (f' : Folder) : Prop where
  codec : f'.codec = f.codec
  root : f'.root = f.root
  working : f'.disk.working = f.disk.working
  file : ∀ l contents, f'.disk.file? l = some contents →
    f.disk.file? l = some contents ∨ ∃ p ∈ saves, ∃ document,
      f.codec.write (Profile.entriesOf p.2) = .ok document ∧ contents = document ++ utf8 "\n"

variable {f : Folder}

theorem Written.refl (f : Folder) (saves : List (Bytes × Store)) : f.Written saves f :=
  ⟨rfl, rfl, rfl, fun _ _ h ↦ .inl h⟩

theorem Written.cons {p : Bytes × Store} {saves : List (Bytes × Store)} {f' f'' : Folder}
    (h : f.Written [p] f') (h' : f'.Written saves f'') : f.Written (p :: saves) f'' where
  codec := h'.codec.trans h.codec
  root := h'.root.trans h.root
  working := h'.working.trans h.working
  file := by
    intro l contents hfile
    rcases h'.file l contents hfile with hfile | ⟨p', hp', hdocument⟩
    · refine (h.file l contents hfile).imp_right ?_
      rintro ⟨p', hp', hdocument⟩
      exact ⟨p', List.mem_cons.mpr (.inl (List.mem_singleton.mp hp')), hdocument⟩
    · rw [h.codec] at hdocument
      exact .inr ⟨p', List.mem_cons_of_mem p hp', hdocument⟩

theorem written_of_sameFiles {disk : Disk} (h : f.disk.SameFiles disk)
    (saves : List (Bytes × Store)) : f.Written saves { f with disk } :=
  ⟨rfl, rfl, h.working, fun l _ hfile ↦ .inl (by rwa [Disk.file?, h.files] at hfile)⟩

theorem written_saveTo (f : Folder) (path name : Bytes) (profile : Store) :
    f.Written [(name, profile)] (f.saveTo path profile).2 := by
  unfold saveTo
  split
  · exact .refl f _
  · exact .refl f _
  · next document disk hdocument hcreate =>
    have hworking : disk.working = f.disk.working := by
      obtain ⟨l, -, -, rfl⟩ := Disk.locate_of_create hcreate
      rfl
    refine ⟨rfl, rfl, hworking, fun l contents hfile ↦ ?_⟩
    rw [Disk.file?_write_of_create hcreate] at hfile
    split at hfile
    · exact .inr ⟨_, List.mem_singleton_self _, document, hdocument, (Option.some.inj hfile).symm⟩
    · exact .inl hfile

theorem written_save (f : Folder) (name : Bytes) (profile : Store) :
    f.Written [(name, profile)] (f.save name profile).2 := by
  have hmake := f.disk.sameFiles_makeFolders f.root
  unfold save
  split
  · exact .refl f _
  · next hfolders =>
    rw [hfolders] at hmake
    exact written_of_sameFiles hmake _
  · next path disk _ hfolders =>
    rw [hfolders] at hmake
    have hwritten := written_saveTo { f with disk } path name profile
    refine ⟨hwritten.codec, hwritten.root, hwritten.working.trans hmake.working,
      fun l contents hfile ↦ (hwritten.file l contents hfile).imp_left fun h ↦ ?_⟩
    rwa [Disk.file?, hmake.files] at h

/-- After any attempts to save every file is as it was or the document of a profile. -/
theorem written_saved (f : Folder) (saves : List (Bytes × Store)) :
    f.Written saves (ProfileStorage.saved f saves) := by
  induction saves generalizing f with
  | nil => exact .refl f []
  | cons p saves ih => exact (written_save f p.1 p.2).cons (ih _)

/-! ### What is loaded -/

theorem exists_file_of_load {name : Bytes} {loaded : Store}
    (h : f.load name = .ok (.ok loaded)) :
    ∃ path contents, Profile.path f.root name = .ok path
      ∧ f.disk.file? (f.disk.aim path) = some contents
      ∧ Profile.ofDocument path (f.codec.read contents) = .ok loaded := by
  unfold load at h
  split at h
  · next path hpath =>
    refine ⟨path, f.disk.read path, hpath, ?_⟩
    unfold loadFrom at h
    split at h
    · next hstatus =>
      exact ⟨Disk.file?_of_status hstatus, Except.ok.inj h⟩
    · cases h
    · split at h
      · cases h
      · cases h
  · cases h

/-- **A folder without profiles is fresh.** Nothing is asked of the rest of the disk, and saving may
fail at any point; the codec has to read what it writes. -/
theorem fresh_of_absent (hcodec : f.codec.Lawful)
    (h : ∀ name path, Profile.path f.root name = .ok path →
      f.disk.file? (f.disk.aim path) = none) : ProfileStorage.Fresh f := by
  intro saves hsaves name loaded hload x v hv
  have hwritten := written_saved f saves
  obtain ⟨path, contents, hpath, hfile, hread⟩ := exists_file_of_load hload
  rw [Disk.aim_congr hwritten.working] at hfile
  -- the file was not there at first, so it is a document that was saved since
  rcases hwritten.file _ _ hfile with hold | ⟨p, hp, document, hwrite, rfl⟩
  · rw [h name path (hwritten.root ▸ hpath)] at hold
    cases hold
  · rw [hwritten.codec,
      hcodec.read_write _ _ (hsaves p hp).isPlain (Profile.nodup_names p.2) hwrite,
      Profile.ofDocument_entriesOf] at hread
    obtain rfl := Except.ok.inj hread
    obtain ⟨⟨y, w⟩, hmem, heq⟩ := List.mem_map.mp (NameMap.mem_of_find?_ofList hv)
    cases heq
    exact ⟨p, hp, w, NameMap.find?_of_mem hmem, rfl⟩

end Folder

/-!
## The layout reads what it writes

Entries that name their radix are read back from their document, as long as no text of theirs has a
line feed in it (`entries?_linesOf`). So the codec of the layout is lawful.
-/

namespace Profile.Layout

/-! ### Parts of lines -/

theorem behind?_append (front rest : Bytes) : behind? front (front ++ rest) = some rest := by
  rw [behind?, List.take_left, if_pos rfl, List.drop_left]

theorem before?_append (text ending : Bytes) : before? ending (text ++ ending) = some text := by
  rw [before?, List.reverse_append, behind?_append, Option.map_some, List.reverse_reverse]

theorem unquote?_quoted (s : Bytes) : unquote? (Bytes.quoted s) = some s := by
  have key : ∀ s : Bytes, unquoteRest? (s.flatMap (fun b ↦
      if b = Bytes.quote ∨ b = Bytes.backslash then [Bytes.backslash, b] else [b])
        ++ [Bytes.quote]) = some s := by
    intro s
    induction s with
    | nil => rfl
    | cons b s ih =>
      rw [List.flatMap_cons, List.append_assoc]
      by_cases hb : b = Bytes.quote ∨ b = Bytes.backslash
      · have hquote : Bytes.backslash ≠ Bytes.quote := by decide
        rw [if_pos hb, List.cons_append, List.cons_append, List.nil_append, unquoteRest?,
          if_neg hquote, if_pos rfl, ih, Option.map_some]
      · obtain ⟨hquote, hbackslash⟩ := not_or.mp hb
        rw [if_neg hb, List.singleton_append]
        obtain ⟨c, rest, heq⟩ := List.exists_cons_of_ne_nil (l := s.flatMap _ ++ [Bytes.quote])
          (List.append_ne_nil_of_right_ne_nil _ (List.cons_ne_nil _ _))
        rw [heq] at ih ⊢
        rw [unquoteRest?, if_neg hquote, if_neg hbackslash, ih, Option.map_some]
  show (if Bytes.quote = Bytes.quote then unquoteRest? _ else none) = some s
  rw [if_pos rfl]
  exact key s

/-! ### Entries -/

theorem entries?_cons (name text radix : Bytes) (rest : List Bytes) :
    entries? (linesOf ⟨name, text, some radix⟩ ++ rest)
      = (entries? rest).map (⟨name, text, some radix⟩ :: ·) := by
  have hname : name? (utf8 "  " ++ name ++ utf8 ":") = some name := by
    rw [name?, List.append_assoc, behind?_append, Option.bind_eq_bind, Option.bind_some,
      before?_append]
  have htext : text? (utf8 "    value: " ++ Bytes.quoted text) = some text := by
    rw [text?, behind?_append, Option.bind_eq_bind, Option.bind_some, unquote?_quoted]
  have hradix : radix? (utf8 "    system: " ++ radix) = some radix := behind?_append _ _
  show entries? (_ :: _ :: _ :: rest) = _
  rw [entries?, hname, htext]
  simp only [Option.bind_eq_bind, Option.bind_some, hradix]
  cases entries? rest with
  | none => rfl
  | some entries => rfl

theorem entries?_linesOf {entries : List Entry} (h : ∀ e ∈ entries, e.radix ≠ none) :
    entries? (entries.flatMap linesOf) = some entries := by
  induction entries with
  | nil => rfl
  | cons e entries ih =>
    obtain ⟨he, hrest⟩ := List.forall_mem_cons.mp h
    obtain ⟨name, text, radix⟩ := e
    obtain ⟨radix, rfl⟩ := Option.ne_none_iff_exists'.mp he
    rw [List.flatMap_cons, entries?_cons, ih hrest, Option.map_some]

/-! ### Whole documents -/

theorem newline_not_mem_quoted {s : Bytes} (h : '\n'.toUInt8 ∉ s) :
    '\n'.toUInt8 ∉ Bytes.quoted s := by
  have hquote : '\n'.toUInt8 ≠ Bytes.quote := by decide
  have hbackslash : '\n'.toUInt8 ≠ Bytes.backslash := by decide
  intro hmem
  rw [Bytes.quoted, List.cons_append, List.mem_cons, List.mem_append, List.mem_singleton] at hmem
  obtain ⟨b, hb, hmem⟩ := List.mem_flatMap.mp
    ((hmem.resolve_left hquote).resolve_right hquote)
  split at hmem
  · rcases List.mem_cons.mp hmem with heq | hmem
    · exact hbackslash heq
    · exact h (List.mem_singleton.mp hmem ▸ hb)
  · exact h (List.mem_singleton.mp hmem ▸ hb)

theorem newline_not_mem_linesOf {e : Entry} (h : e.IsPlain) :
    ∀ l ∈ linesOf e, '\n'.toUInt8 ∉ l := by
  have hprintable : ∀ {s : Bytes}, (∀ b ∈ s, Bytes.IsPrintable b) → '\n'.toUInt8 ∉ s :=
    fun h hmem ↦ absurd (h _ hmem) (by decide)
  have hname := hprintable h.name
  have hquoted := newline_not_mem_quoted (hprintable h.text)
  have hparts : '\n'.toUInt8 ∉ utf8 "  " ∧ '\n'.toUInt8 ∉ utf8 ":"
      ∧ '\n'.toUInt8 ∉ utf8 "    value: " ∧ '\n'.toUInt8 ∉ utf8 "    system: " := by
    decide +kernel
  obtain ⟨radix, hradix⟩ := h.radix
  have hsystem : '\n'.toUInt8 ∉ radix.name := by
    cases radix with
    | dec | hex | bin | oct => decide +kernel
  intro l hl
  simp only [linesOf, hradix, Option.toList_some, List.map_cons, List.map_nil, List.mem_cons,
    List.not_mem_nil, or_false] at hl
  obtain ⟨hspace, hcolon, hvalue, hlabel⟩ := hparts
  rcases hl with rfl | rfl | rfl
  · simp only [List.mem_append, hspace, hname, hcolon, or_self, not_false_iff]
  · simp only [List.mem_append, hvalue, hquoted, or_self, not_false_iff]
  · simp only [List.mem_append, hlabel, hsystem, or_self, not_false_iff]

theorem lines_write {entries : List Entry} (h : ∀ e ∈ entries, e.IsPlain) :
    Bytes.lines (write entries ++ utf8 "\n")
      = heading :: if entries.isEmpty then [nothing] else entries.flatMap linesOf := by
  have hheading : '\n'.toUInt8 ∉ heading := by decide +kernel
  have hnothing : '\n'.toUInt8 ∉ nothing := by decide +kernel
  rw [write, Bytes.joinWith_append_separator _ (List.cons_ne_nil _ _)]
  refine Bytes.lines_flatMap fun l hl ↦ ?_
  rcases List.mem_cons.mp hl with rfl | hl
  · exact hheading
  split at hl
  · rwa [List.mem_singleton.mp hl]
  · obtain ⟨e, he, hl⟩ := List.mem_flatMap.mp hl
    exact newline_not_mem_linesOf (h e he) l hl

theorem codec_lawful : codec.Lawful where
  read_write := by
    intro entries document hplain _ hwrite
    obtain rfl := Except.ok.inj hwrite
    show read (Bytes.lines _) = _
    rw [lines_write hplain]
    rcases entries with _ | ⟨e, entries⟩
    · rfl
    have hentries : entries? ((e :: entries).flatMap linesOf) = some (e :: entries) :=
      entries?_linesOf fun e' he' ↦ by
        obtain ⟨radix, hradix⟩ := (hplain e' he').radix
        rw [hradix]
        nofun
    -- the heading of an entry is never the only line
    have hone : (e :: entries).flatMap linesOf ≠ [nothing] := by
      intro heq
      have hlength := congrArg List.length heq
      simp [linesOf] at hlength
    rw [read, if_neg (by simp), List.isEmpty_cons, if_neg Bool.false_ne_true, if_neg hone,
      hentries]

end Profile.Layout

end Abacus
