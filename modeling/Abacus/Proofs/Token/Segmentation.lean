import Abacus.Proofs.Bytes
import Abacus.Proofs.Token.Lexicon
import Abacus.Token

/-!
# Lines cut into lexemes

The tokens of a line, and what a character is that none of them begins with.
-/

namespace Abacus

/-!
## Lines cut into their longest lexemes

The segmentation of a line is said without a scan: as long as some lexeme begins where the last one
ended, the longest of them is the next token, and where none begins one more token says so. There
is only one segmentation of a line, which is what a scan gives (`segments_iff`).

The tokens cover the line up to the last of them without a gap (`Segments.exists_tiles`), and a
cursor hands out the same tokens, one for each call, and nothing behind them
(`Cursor.calls_eq_map`).
-/

namespace Token

/-! ### The segmentation -/

/-- The tokens of a text that begins at some offset, where each lexeme is the longest one. -/
inductive Segments : Nat → Bytes → List Token → Prop where
  | last {position : Nat} {s : Bytes} (h : ∀ l kind, Lexeme l kind → ¬l <+: s) :
    Segments position s [lastToken position s]
  | cut {position : Nat} {l rest : Bytes} {kind : Kind} {ts : List Token}
      (h : IsLongest (l ++ rest) l kind) (hrest : Segments (position + l.length) rest ts) :
    Segments position (l ++ rest) (⟨kind, l, position⟩ :: ts)

theorem scanFrom_of_lexeme? {position : Nat} {l rest : Bytes} {kind : Kind}
    (h : lexeme? (l ++ rest) = some (l, kind)) :
    scanFrom position (l ++ rest) = ⟨kind, l, position⟩ :: scanFrom (position + l.length) rest := by
  rw [scanFrom]
  split
  · next hcut =>
    obtain ⟨rfl, rfl⟩ := Prod.mk.inj (Option.some.inj (hcut.symm.trans h))
    rw [List.drop_left]
  · next hnone =>
    rw [h] at hnone
    cases hnone

theorem scanFrom_of_none {position : Nat} {s : Bytes} (h : lexeme? s = none) :
    scanFrom position s = [lastToken position s] := by
  rw [scanFrom]
  split
  · next hcut =>
    rw [h] at hcut
    cases hcut
  · rfl

theorem segments_scanFrom (position : Nat) (s : Bytes) :
    Segments position s (scanFrom position s) := by
  fun_induction scanFrom position s with
  | case1 position s l kind h ih =>
    obtain ⟨rest, rfl⟩ := prefix_of_lexeme? h
    rw [List.drop_left] at ih ⊢
    exact .cut (lexeme?_eq_some_iff.mp h) ih
  | case2 position s h => exact .last (lexeme?_eq_none_iff.mp h)

theorem Segments.eq_scanFrom {position : Nat} {s : Bytes} {ts : List Token}
    (h : Segments position s ts) : ts = scanFrom position s := by
  induction h with
  | last h => rw [scanFrom_of_none (lexeme?_eq_none_iff.mpr h)]
  | cut h _ ih => rw [scanFrom_of_lexeme? (lexeme?_eq_some_iff.mpr h), ← ih]

theorem segments_iff {position : Nat} {s : Bytes} {ts : List Token} :
    Segments position s ts ↔ ts = scanFrom position s := by
  constructor
  · exact Segments.eq_scanFrom
  · rintro rfl
    exact segments_scanFrom position s

theorem Lexeme.scanFrom_eq {l : Bytes} {kind : Kind} (h : Lexeme l kind) (position : Nat) :
    scanFrom position l = [⟨kind, l, position⟩, ⟨.endOfLine, [], position + l.length⟩] := by
  have hcut : lexeme? (l ++ []) = some (l, kind) := by rw [List.append_nil, h.lexeme?_self]
  have hend : scanFrom (position + l.length) [] = [⟨.endOfLine, [], position + l.length⟩] :=
    scanFrom_of_none rfl
  rw [← hend, ← scanFrom_of_lexeme? hcut, List.append_nil]

/-! ### Places in the line -/

/-- Tokens that cover a line from one offset to another: none is empty, and each begins where the
one before it ends. -/
def Tiles : Nat → List Token → Nat → Prop
  | start, [], finish => start = finish
  | start, t :: ts, finish => t.position = start ∧ t.lexeme ≠ [] ∧ Tiles t.finish ts finish

theorem Tiles.finish_le {start finish : Nat} {ts : List Token} (h : Tiles start ts finish) :
    start ≤ finish
      ∧ ∀ t ∈ ts, start ≤ t.position ∧ t.position < t.finish ∧ t.finish ≤ finish := by
  induction ts generalizing start with
  | nil => exact ⟨Nat.le_of_eq h, nofun⟩
  | cons t ts ih =>
    obtain ⟨rfl, hne, hrest⟩ := h
    obtain ⟨hle, hts⟩ := ih hrest
    have hlt : t.position < t.finish :=
      Nat.lt_add_of_pos_right (List.length_pos_iff.mpr hne)
    refine ⟨Nat.le_trans (Nat.le_of_lt hlt) hle, ?_⟩
    intro u hu
    rcases List.mem_cons.mp hu with rfl | hu
    · exact ⟨Nat.le_refl _, hlt, hle⟩
    · obtain ⟨hstart, hu⟩ := hts u hu
      exact ⟨Nat.le_trans (Nat.le_of_lt hlt) hstart, hu⟩

theorem Tiles.pairwise {start finish : Nat} {ts : List Token} (h : Tiles start ts finish) :
    ts.Pairwise (·.position < ·.position) := by
  induction ts generalizing start with
  | nil => exact .nil
  | cons t ts ih =>
    obtain ⟨-, hne, hrest⟩ := h
    have hlt : t.position < t.finish :=
      Nat.lt_add_of_pos_right (List.length_pos_iff.mpr hne)
    refine List.pairwise_cons.mpr ⟨?_, ih hrest⟩
    exact fun u hu ↦ Nat.lt_of_lt_of_le hlt (hrest.finish_le.2 u hu).1

/-- A token is the longest lexeme at its place in a line, and does not end the line. -/
structure Cuts (line : Bytes) (t : Token) : Prop where
  longest : IsLongest (line.drop t.position) t.lexeme t.kind
  kind_ne : t.kind ≠ .stray ∧ t.kind ≠ .endOfLine
  slice : (line.drop t.position).take t.lexeme.length = t.lexeme
  text : t.text = if t.kind = .space then utf8 " " else t.lexeme

/-- A token says that no lexeme begins at its place in a line: at the end of the line, or at a stray
character. -/
structure Ends (line : Bytes) (t : Token) : Prop where
  no_lexeme : ∀ l kind, Lexeme l kind → ¬l <+: line.drop t.position
  eq_or : t = ⟨.endOfLine, [], line.length⟩
    ∨ t.position < line.length
      ∧ t = ⟨.stray, character (line.drop t.position), t.position⟩

theorem Lexeme.ne_nil {l : Bytes} {kind : Kind} (h : Lexeme l kind) : l ≠ [] :=
  lexeme?_ne_nil h.lexeme?_self

theorem cuts_of_isLongest {line l rest : Bytes} {kind : Kind} {position : Nat}
    (hline : line.drop position = l ++ rest) (h : IsLongest (l ++ rest) l kind) :
    Cuts line ⟨kind, l, position⟩ := by
  have hkind := kind_of_lexeme? h.lexeme.lexeme?_self
  refine ⟨hline ▸ h, hkind, by rw [hline, List.take_left], ?_⟩
  cases kind with
  | stray => exact absurd rfl hkind.1
  | endOfLine => exact absurd rfl hkind.2
  | _ => rfl

theorem ends_lastToken {line : Bytes} {position : Nat} (hle : position ≤ line.length)
    (h : ∀ l kind, Lexeme l kind → ¬l <+: line.drop position) :
    Ends line (lastToken position (line.drop position)) := by
  by_cases hend : position = line.length
  · rw [hend, List.drop_length]
    exact ⟨by simpa [hend] using h, .inl rfl⟩
  · have hlt : position < line.length := Nat.lt_of_le_of_ne hle hend
    rw [lastToken_of_ne_nil (by simpa using hlt)]
    exact ⟨h, .inr ⟨hlt, rfl⟩⟩

/-- The tokens of a line cover it up to the last of them, which says how the line ends. -/
theorem Segments.exists_tiles {line s : Bytes} {position : Nat} {ts : List Token}
    (h : Segments position s ts) (hs : line.drop position = s) (hle : position ≤ line.length) :
    ∃ front last, ts = front ++ [last] ∧ Tiles position front last.position
      ∧ (∀ t ∈ front, Cuts line t) ∧ Ends line last := by
  induction h with
  | @last position s h =>
    obtain rfl := hs
    exact ⟨[], _, rfl, (position_lastToken _ _).symm, by simp, ends_lastToken hle h⟩
  | @cut position l rest kind ts h _ ih =>
    have hrest : line.drop (position + l.length) = rest := by
      rw [← List.drop_drop, hs, List.drop_left]
    have hlength : position + l.length ≤ line.length := by
      have hsum := congrArg List.length hs
      rw [List.length_drop, List.length_append] at hsum
      omega
    obtain ⟨front, last, rfl, htiles, hcuts, hends⟩ := ih hrest hlength
    refine ⟨⟨kind, l, position⟩ :: front, last, rfl, ⟨rfl, h.lexeme.ne_nil, htiles⟩, ?_, hends⟩
    intro t ht
    rcases List.mem_cons.mp ht with rfl | ht
    · exact cuts_of_isLongest hs h
    · exact hcuts t ht

theorem pairwise_scan (line : Bytes) : (scan line).Pairwise (·.position < ·.position) := by
  obtain ⟨front, last, hscan, htiles, -, -⟩ :=
    (segments_scanFrom 0 line).exists_tiles List.drop_zero (Nat.zero_le _)
  rw [scan, hscan]
  refine List.pairwise_append.mpr ⟨htiles.pairwise, List.pairwise_singleton _ _, ?_⟩
  intro t ht u hu
  obtain rfl := List.mem_singleton.mp hu
  obtain ⟨-, hlt, hle⟩ := htiles.finish_le.2 t ht
  exact Nat.lt_of_lt_of_le hlt hle

theorem lexeme?_of_mem_scan {line : Bytes} {t : Token} (ht : t ∈ scan line)
    (hkind : t.kind ≠ .stray ∧ t.kind ≠ .endOfLine) :
    lexeme? (line.drop t.position) = some (t.lexeme, t.kind) := by
  obtain ⟨front, last, hscan, -, hcuts, hends⟩ :=
    (segments_scanFrom 0 line).exists_tiles List.drop_zero (Nat.zero_le _)
  rw [scan, hscan] at ht
  rcases List.mem_append.mp ht with ht | ht
  · exact lexeme?_eq_some_iff.mpr (hcuts t ht).longest
  · obtain rfl := List.mem_singleton.mp ht
    rcases hends.eq_or with hend | ⟨-, hend⟩
    · exact absurd (congrArg kind hend) hkind.2
    · exact absurd (congrArg kind hend) hkind.1

/-! ### One token at a time -/

namespace Cursor

theorem calls_of_finished {c : Cursor} (hc : c.finished = true) (n : Nat) :
    c.calls n = List.replicate n none := by
  induction n with
  | zero => rfl
  | succ n ih =>
    have hnext : c.next = (none, c) := by rw [next, if_pos hc]
    rw [calls, hnext, ih, List.replicate_succ]

theorem next_of_lexeme? {c : Cursor} {l rest : Bytes} {kind : Kind} (hc : c.finished = false)
    (hrest : c.rest = l ++ rest) (h : lexeme? (l ++ rest) = some (l, kind)) :
    c.next = (some ⟨kind, l, c.position⟩, ⟨rest, c.position + l.length, false⟩) := by
  rw [next, if_neg (by simp [hc]), hrest, h]
  simp

theorem next_of_none {c : Cursor} (hc : c.finished = false) (h : lexeme? c.rest = none) :
    c.next = (some (lastToken c.position c.rest), { c with finished := true }) := by
  rw [next, if_neg (by simp [hc]), h]

/-- The calls hand out the tokens of the scan in their order, and then nothing. -/
theorem calls_eq_map {c : Cursor} (hc : c.finished = false) (n : Nat) :
    c.calls n = (List.range n).map fun i ↦ (scanFrom c.position c.rest)[i]? := by
  induction n generalizing c with
  | zero => rfl
  | succ n ih =>
    rw [calls, List.range_succ_eq_map, List.map_cons, List.map_map]
    cases hcut : lexeme? c.rest with
    | none =>
      rw [scanFrom_of_none hcut, next_of_none hc hcut, calls_of_finished rfl]
      refine congrArg (some _ :: ·) ?_
      exact (List.eq_replicate_iff.mpr (by simp)).symm
    | some entry =>
      obtain ⟨l, kind⟩ := entry
      obtain ⟨rest, hrest⟩ := prefix_of_lexeme? hcut
      rw [← hrest] at hcut ⊢
      rw [scanFrom_of_lexeme? hcut, next_of_lexeme? hc hrest.symm hcut, ih rfl]
      rfl

end Cursor

/-- **A scan is the longest-match segmentation of the line.** It is the only list of tokens that
takes the longest lexeme wherever one begins. The tokens before the last are not empty, follow one
another without a gap and show what stands at their places, a run of blanks as one space; the last
one stands where no lexeme begins, be it the end of the line or a stray character. A cursor hands
out these tokens, one for each call, and then nothing. -/
theorem scan_eq_segmentation (line : Bytes) :
    (∀ ts, Segments 0 line ts ↔ ts = scan line)
    ∧ (∃ front last, scan line = front ++ [last] ∧ Tiles 0 front last.position
      ∧ (∀ t ∈ front, Cuts line t) ∧ Ends line last)
    ∧ ∀ n, (Cursor.start line).calls n = (List.range n).map fun i ↦ (scan line)[i]? := by
  refine ⟨fun ts ↦ segments_iff, ?_, fun n ↦ Cursor.calls_eq_map rfl n⟩
  exact (segments_scanFrom 0 line).exists_tiles rfl (Nat.zero_le _)

/-!
## Stray characters

Every byte of a lexeme is a character of its own, and so is every byte in front of the last token of
a line (`isAscii_of_mem_take`). So what stands in front of a stray character can be taken apart into
characters, and if the line is a text, what is reported as stray is exactly one of them
(`exists_character_of_stray`).
-/

/-! ### Lexemes -/

private theorem isAscii_of_isBlank : ∀ b : UInt8, Bytes.isBlank b = true → Bytes.IsAscii b := by
  have hall : ∀ n : Fin 256, Bytes.isBlank (.ofFin n) = true → (n : Nat) < 128 := by decide +kernel
  exact fun b ↦ hall b.toFin

private theorem isPrintable_of_class : ∀ b : UInt8, Bytes.isWordByte b = true
    ∨ Bytes.isHexDigit b = true ∨ Bytes.isBinaryDigit b = true → Bytes.IsPrintable b := by
  have hall : ∀ n : Fin 256, Bytes.isWordByte (.ofFin n) = true
      ∨ Bytes.isHexDigit (.ofFin n) = true ∨ Bytes.isBinaryDigit (.ofFin n) = true
      → 32 ≤ (n : Nat) ∧ (n : Nat) < 127 := by
    decide +kernel
  exact fun b ↦ hall b.toFin

private theorem isPrintable_of_mem_tables :
    ∀ entry ∈ symbols ++ keywords, ∀ b ∈ entry.1, Bytes.IsPrintable b := by
  decide +kernel

theorem isPrintable_of_isDigit {b : UInt8} (h : Bytes.isDigit b = true) : Bytes.IsPrintable b :=
  isPrintable_of_class b (.inr (.inl (by rw [Bytes.isHexDigit, h]; rfl)))

theorem Lexeme.isPrintable_or {l : Bytes} {kind : Kind} (h : Lexeme l kind) :
    ∀ b ∈ l, Bytes.IsPrintable b ∨ kind = .space ∧ Bytes.isBlank b = true := by
  intro b hb
  cases h with
  | space _ hl => exact .inr ⟨rfl, hl b hb⟩
  | symbol h =>
    exact .inl (isPrintable_of_mem_tables _ (List.mem_append_left _ (fixedSymbol_iff.mp h)) b hb)
  | keyword h =>
    exact .inl (isPrintable_of_mem_tables _ (List.mem_append_right _ (keyword_iff.mp h)) b hb)
  | var hw =>
    rcases List.mem_cons.mp hb with rfl | hb
    · exact .inl (by decide)
    · exact .inl (isPrintable_of_class b (.inl (hw b hb)))
  | binary _ hds =>
    rcases List.mem_cons.mp hb with rfl | hb
    · exact .inl (by decide)
    · exact .inl (isPrintable_of_class b (.inr (.inr (hds b hb))))
  | hex hx hds =>
    rcases List.mem_cons.mp hb with rfl | hb
    · exact .inl (by decide)
    rcases List.mem_cons.mp hb with rfl | hb
    · rcases hx with rfl | rfl
      · exact .inl (by decide)
      · exact .inl (by decide)
    · exact .inl (isPrintable_of_class b (.inr (.inl (hds b hb))))
  | whole _ hds => exact .inl (isPrintable_of_isDigit (hds b hb))
  | fraction _ hds hfs =>
    rcases List.mem_append.mp hb with hb | hb
    · exact .inl (isPrintable_of_isDigit (hds b hb))
    rcases List.mem_cons.mp hb with rfl | hb
    · exact .inl (by decide)
    · exact .inl (isPrintable_of_isDigit (hfs b hb))
  | word hl hw _ =>
    rcases List.mem_cons.mp hb with rfl | hb
    · exact .inl (isPrintable_of_class b (.inl (by rw [Bytes.isWordByte, hl]; rfl)))
    · exact .inl (isPrintable_of_class b (.inl (hw b hb)))

theorem Lexeme.isPrintable {l : Bytes} {kind : Kind} (h : Lexeme l kind) (hkind : kind ≠ .space) :
    ∀ b ∈ l, Bytes.IsPrintable b :=
  fun b hb ↦ (h.isPrintable_or b hb).resolve_right fun hblank ↦ hkind hblank.1

theorem Lexeme.isAscii {l : Bytes} {kind : Kind} (h : Lexeme l kind) :
    ∀ b ∈ l, Bytes.IsAscii b :=
  fun b hb ↦ (h.isPrintable_or b hb).elim Bytes.IsPrintable.isAscii
    fun hblank ↦ isAscii_of_isBlank b hblank.2

/-! ### What tokens cover -/

theorem Tiles.take_eq {line : Bytes} {start finish : Nat} {ts : List Token}
    (h : Tiles start ts finish) (hcuts : ∀ t ∈ ts, Cuts line t) :
    (line.drop start).take (finish - start) = ts.flatMap Token.lexeme := by
  induction ts generalizing start with
  | nil =>
    obtain rfl : start = finish := h
    simp
  | cons t ts ih =>
    obtain ⟨rfl, -, hrest⟩ := h
    have hle : t.finish ≤ finish := hrest.finish_le.1
    have hsum : finish - t.position = t.lexeme.length + (finish - t.finish) := by
      rw [Token.finish] at hle ⊢
      omega
    rw [hsum, List.take_add, (hcuts t List.mem_cons_self).slice, List.drop_drop, List.flatMap_cons]
    exact congrArg (t.lexeme ++ ·) (ih hrest fun u hu ↦ hcuts u (List.mem_cons_of_mem t hu))

/-- What stands in front of the last token of a line are characters of one byte. -/
theorem isAscii_of_mem_take {line : Bytes} {front : List Token} {last : Token}
    (hscan : scan line = front ++ [last]) : ∀ b ∈ line.take last.position, Bytes.IsAscii b := by
  obtain ⟨front', last', hscan', htiles, hcuts, -⟩ :=
    (segments_scanFrom 0 line).exists_tiles List.drop_zero (Nat.zero_le _)
  obtain ⟨rfl, heq⟩ := List.append_inj' (hscan.symm.trans hscan') rfl
  obtain rfl := (List.cons.inj heq).1
  have htake : line.take last.position = front.flatMap Token.lexeme := htiles.take_eq hcuts
  intro b hb
  rw [htake] at hb
  obtain ⟨t, ht, hb⟩ := List.mem_flatMap.mp hb
  exact (hcuts t ht).longest.lexeme.isAscii b hb

/-! ### Characters -/

/-- A text behind which a character stands, taken apart in front of it. -/
theorem exists_character {u rest : Bytes} {s : String} (hu : ∀ b ∈ u, Bytes.IsAscii b)
    (hne : rest ≠ []) (h : u ++ rest = utf8 s) :
    ∃ before c after, s = before ++ String.singleton c ++ after ∧ u = utf8 before
      ∧ character rest = utf8 (String.singleton c) := by
  rw [Bytes.utf8_eq_flatMap] at h
  obtain ⟨before, after, hs, rfl, rfl⟩ := Bytes.exists_split hu h
  rcases after with _ | ⟨c, after⟩
  · exact absurd rfl hne
  obtain ⟨b, tail, hc, hlead, -⟩ := Bytes.exists_utf8EncodeChar c
  refine ⟨.ofList before, c, .ofList after, ?_, ?_, ?_⟩
  · rw [← String.toList_inj, hs]
    simp
  · rw [Bytes.utf8_eq_flatMap, String.toList_ofList]
  · rw [Bytes.utf8_eq_flatMap, List.flatMap_cons, hc, List.cons_append, character, hlead]
    simp [hc]

/-- What is stray in a text is one character of it. -/
theorem exists_character_of_stray {line : Bytes} {t : Token} (ht : t ∈ scan line)
    (hkind : t.kind = .stray) {s : String} (hs : line = utf8 s) :
    ∃ before c after, s = before ++ String.singleton c ++ after
      ∧ t.position = (utf8 before).length ∧ t.lexeme = utf8 (String.singleton c) := by
  obtain ⟨front, last, hscan, -, hcuts, hends⟩ :=
    (segments_scanFrom 0 line).exists_tiles List.drop_zero (Nat.zero_le _)
  rw [scan, hscan] at ht
  rcases List.mem_append.mp ht with ht | ht
  · exact absurd hkind (hcuts t ht).kind_ne.1
  obtain rfl := List.mem_singleton.mp ht
  rcases hends.eq_or with hend | ⟨hlt, hstray⟩
  · rw [hend] at hkind
    cases hkind
  have hascii : ∀ b ∈ line.take t.position, Bytes.IsAscii b := isAscii_of_mem_take hscan
  have hrest : line.drop t.position ≠ [] := by
    rw [ne_eq, List.drop_eq_nil_iff]
    omega
  have hline : line.take t.position ++ line.drop t.position = utf8 s := by
    rw [List.take_append_drop, hs]
  obtain ⟨before, c, after, heq, hu, hc⟩ := exists_character hascii hrest hline
  refine ⟨before, c, after, heq, ?_, ?_⟩
  · rw [← hu, List.length_take, Nat.min_eq_left hlt.le]
  · rw [hstray]
    exact hc

end Token

end Abacus
