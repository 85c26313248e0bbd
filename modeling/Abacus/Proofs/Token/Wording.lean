import Abacus.Proofs.Token.Segmentation
import Mathlib.Data.List.Infix
import Mathlib.Logic.Relation

/-!
# Blanks between lexemes

The wording of a line is what it says apart from its blanks: the kinds and lexemes of its other
tokens. Inside a lexeme that is no blank there is never a blank or a parenthesis, so where such a
byte follows, a lexeme ends whatever stands behind (`lexeme?_of_delimits`). A text that was cut up
to some place in a line is therefore cut up alike in front of any blank or parenthesis, which is why
blanks may come and go between lexemes, and why a line may go on with parentheses behind any of its
tokens (`exists_scanFrom_append`).
-/

namespace Abacus.Token

/-- Nothing but blanks. -/
def IsBlanks (s : Bytes) : Prop := ∀ b ∈ s, Bytes.isBlank b = true

instance : DecidablePred IsBlanks :=
  fun s ↦ inferInstanceAs (Decidable (∀ b ∈ s, Bytes.isBlank b = true))

/-! ## The wording of a line -/

/-- A token without its place. -/
def word (t : Token) : Kind × Bytes := (t.kind, t.lexeme)

/-- Some tokens without their places, and without the blanks among them. -/
def words (ts : List Token) : List (Kind × Bytes) := (ts.filter fun t ↦ t.kind != .space).map word

/-- What a line says apart from its blanks. -/
def wording (line : Bytes) : List (Kind × Bytes) := words (scan line)

theorem words_cons_of_space {t : Token} (ht : t.kind = .space) (ts : List Token) :
    words (t :: ts) = words ts := by
  rw [words, List.filter_cons_of_neg (by simp [ht]), words]

theorem words_cons_of_ne_space {t : Token} (ht : t.kind ≠ .space) (ts : List Token) :
    words (t :: ts) = t.word :: words ts := by
  rw [words, List.filter_cons_of_pos (by simpa using ht), List.map_cons, words]

theorem words_scanFrom (position : Nat) (s : Bytes) : words (scanFrom position s) = wording s := by
  have key : ∀ position', words (scanFrom position s) = words (scanFrom position' s) := by
    fun_induction scanFrom position s with
    | case1 position s l kind h ih =>
      intro position'
      obtain ⟨rest, rfl⟩ := prefix_of_lexeme? h
      rw [List.drop_left] at ih ⊢
      rw [scanFrom_of_lexeme? h]
      by_cases hkind : kind = .space
      · rw [words_cons_of_space hkind, words_cons_of_space hkind]
        exact ih _
      · rw [words_cons_of_ne_space hkind, words_cons_of_ne_space hkind,
          ih (position' + l.length)]
        rfl
    | case2 position s h =>
      intro position'
      rw [scanFrom_of_none h]
      unfold lastToken
      split
      · rfl
      · rfl
  exact key 0

theorem wording_of_lexeme? {l rest : Bytes} {kind : Kind}
    (h : lexeme? (l ++ rest) = some (l, kind)) (hkind : kind ≠ .space) :
    wording (l ++ rest) = (kind, l) :: wording rest := by
  rw [wording, scan, scanFrom_of_lexeme? h, words_cons_of_ne_space hkind, words_scanFrom]
  rfl

theorem wording_of_none {s : Bytes} (h : lexeme? s = none) :
    wording s = [(lastToken 0 s).word] := by
  rw [wording, scan, scanFrom_of_none h, words_cons_of_ne_space]
  · rfl
  · unfold lastToken
    split
    · simp
    · simp

theorem wording_nil : wording [] = [(.endOfLine, [])] := wording_of_none rfl

theorem wording_of_space {l rest : Bytes} (h : lexeme? (l ++ rest) = some (l, .space)) :
    wording (l ++ rest) = wording rest := by
  rw [wording, scan, scanFrom_of_lexeme? h, words_cons_of_space rfl, words_scanFrom]

theorem wording_dropWhile (s : Bytes) : wording (s.dropWhile Bytes.isBlank) = wording s := by
  obtain _ | ⟨b, rest⟩ := s
  · rfl
  by_cases hb : Bytes.isBlank b = true
  · have hsplit : (b :: rest).takeWhile Bytes.isBlank ++ (b :: rest).dropWhile Bytes.isBlank
        = b :: rest := List.takeWhile_append_dropWhile
    have hcut : lexeme? ((b :: rest).takeWhile Bytes.isBlank ++ (b :: rest).dropWhile Bytes.isBlank)
        = some ((b :: rest).takeWhile Bytes.isBlank, .space) := by
      rw [hsplit, lexeme?_of_isBlank hb]
    have hwording := wording_of_space hcut
    rw [hsplit] at hwording
    exact hwording.symm
  · rw [List.dropWhile_cons_of_neg hb]

theorem wording_blanks_append {w : Bytes} (hw : IsBlanks w) (s : Bytes) :
    wording (w ++ s) = wording s := by
  rw [← wording_dropWhile (w ++ s), List.dropWhile_append_of_pos hw, wording_dropWhile]

/-- The kinds and texts of the tokens of a line other than blanks. -/
def texts (line : Bytes) : List (Kind × Bytes) :=
  ((scan line).filter fun t ↦ t.kind != .space).map fun t ↦ (t.kind, t.text)

theorem texts_eq_of_wording {line line' : Bytes} (h : wording line' = wording line) :
    texts line' = texts line := by
  have key : ∀ s, texts s = (wording s).map fun w ↦ (w.1, text ⟨w.1, w.2, 0⟩) := by
    intro s
    rw [texts, wording, words, List.map_map]
    rfl
  rw [key, key, h]

theorem stray_mem_scan_iff (line : Bytes) :
    Kind.stray ∈ (scan line).map kind ↔ Kind.stray ∈ (wording line).map Prod.fst := by
  simp only [wording, words, List.map_map, List.mem_map, List.mem_filter, Function.comp_apply]
  constructor
  · rintro ⟨t, ht, hkind⟩
    exact ⟨t, ⟨ht, by rw [hkind]; rfl⟩, hkind⟩
  · rintro ⟨t, ⟨ht, -⟩, hkind⟩
    exact ⟨t, ht, hkind⟩

/-! ## Where a lexeme ends for certain -/

/-- A byte that no lexeme other than a run of blanks goes on with. -/
def isDelimiter (b : UInt8) : Bool :=
  Bytes.isBlank b || b == '('.toUInt8 || b == ')'.toUInt8

/-- The end of a line, or a text that begins with a blank or a parenthesis. -/
def Delimits (s : Bytes) : Prop := ∀ b ∈ s.head?, isDelimiter b = true

theorem class_of_isDelimiter {b : UInt8} (h : isDelimiter b = true) :
    Bytes.isWordByte b = false ∧ Bytes.isHexDigit b = false ∧ Bytes.isDigit b = false
      ∧ Bytes.isBinaryDigit b = false ∧ b ≠ '.'.toUInt8 ∧ b ≠ 'x'.toUInt8 ∧ b ≠ 'X'.toUInt8 := by
  simp only [isDelimiter, Bytes.isBlank, Bool.or_eq_true, beq_iff_eq, or_assoc] at h
  rcases h with rfl | rfl | rfl | rfl | rfl | rfl
  · decide
  · decide
  · decide
  · decide
  · decide
  · decide

private theorem tail_of_mem_symbols : ∀ entry ∈ symbols, entry.2 ≠ .space
    ∧ ∀ b ∈ entry.1.tail, isDelimiter b = false := by
  decide +kernel

theorem Lexeme.isBlanks_of_space {l : Bytes} (h : Lexeme l .space) : IsBlanks l := by
  cases h with
  | space _ hl => exact hl
  | symbol h => exact absurd rfl (tail_of_mem_symbols _ (fixedSymbol_iff.mp h)).1
  | keyword h => cases h

theorem Lexeme.eq_space {b : UInt8} {l : Bytes} {kind : Kind} (h : Lexeme (b :: l) kind)
    (hb : Bytes.isBlank b = true) : kind = .space := by
  have hself := h.lexeme?_self
  rw [lexeme?_of_isBlank hb] at hself
  exact (Prod.mk.inj (Option.some.inj hself)).2.symm

/-- Only blanks go on with blanks or parentheses. -/
theorem Lexeme.isDelimiter_tail {l : Bytes} {kind : Kind} (h : Lexeme l kind)
    (hkind : kind ≠ .space) {b : UInt8} (hb : b ∈ l.tail) : isDelimiter b = false := by
  rw [Bool.eq_false_iff]
  intro hdelimiter
  obtain ⟨hword, hhex, hdigit, hbinary, hpoint, hx, hX⟩ := class_of_isDelimiter hdelimiter
  cases h with
  | space => exact hkind rfl
  | symbol h =>
    rw [(tail_of_mem_symbols _ (fixedSymbol_iff.mp h)).2 b hb] at hdelimiter
    cases hdelimiter
  | var hw => rw [hw b hb] at hword; cases hword
  | binary _ hds => rw [hds b hb] at hbinary; cases hbinary
  | hex hmark hds =>
    rcases List.mem_cons.mp hb with rfl | hb
    · rcases hmark with rfl | rfl
      · exact hx rfl
      · exact hX rfl
    · rw [hds b hb] at hhex; cases hhex
  | whole _ hds => rw [hds b (List.mem_of_mem_tail hb)] at hdigit; cases hdigit
  | fraction _ hds hfs =>
    rcases List.mem_append.mp (List.mem_of_mem_tail hb) with hb | hb
    · rw [hds b hb] at hdigit; cases hdigit
    rcases List.mem_cons.mp hb with rfl | hb
    · exact hpoint rfl
    · rw [hfs b hb] at hdigit; cases hdigit
  | keyword h =>
    obtain ⟨c, w, rfl, -, hw⟩ := h.exists_cons
    rw [hw b hb] at hword; cases hword
  | word _ hw _ => rw [hw b hb] at hword; cases hword

/-- A lexeme that reaches into what delimits the text before it is a run of blanks. -/
theorem Lexeme.eq_space_of_delimits {b : UInt8} {s r : Bytes} {kind : Kind} (hr : r ≠ [])
    (hdelimits : Delimits r) (h : Lexeme (b :: s ++ r) kind) : kind = .space := by
  by_contra hkind
  obtain ⟨c, r, rfl⟩ := List.exists_cons_of_ne_nil hr
  have hc := h.isDelimiter_tail hkind (b := c) (by simp)
  rw [hdelimits c rfl] at hc
  cases hc

theorem Delimits.of_isPrefix {s r : Bytes} (h : Delimits s) (hr : r <+: s) : Delimits r := by
  intro b hb
  obtain ⟨rest, rfl⟩ := hr
  obtain _ | ⟨c, r⟩ := r
  · cases hb
  · exact h b hb

theorem IsBlanks.delimits {w : Bytes} (h : IsBlanks w) : Delimits w := by
  intro b hb
  rw [isDelimiter, h b (List.mem_of_mem_head? hb)]
  rfl

/-- What stands behind some text does not matter to a lexeme in it if a blank or a parenthesis
comes next. -/
theorem lexeme?_of_delimits {l u v v' : Bytes} {kind : Kind}
    (h : lexeme? (l ++ (u ++ v)) = some (l, kind)) (hkind : kind ≠ .space) (hv : Delimits v') :
    lexeme? (l ++ (u ++ v')) = some (l, kind) := by
  have hlongest := lexeme?_eq_some_iff.mp h
  obtain ⟨b, l, rfl⟩ := List.exists_cons_of_ne_nil hlongest.lexeme.ne_nil
  refine lexeme?_eq_some_iff.mpr ⟨hlongest.lexeme, List.prefix_append _ _, ?_⟩
  intro l' kind' hl' hfront
  rw [← List.append_assoc] at hfront
  by_cases hlength : l'.length ≤ (b :: l ++ u).length
  · refine hlongest.length_le l' kind' hl' ?_
    rw [← List.append_assoc]
    exact ((List.isPrefix_append_of_length hlength).mp hfront).trans (List.prefix_append _ _)
  -- a longer lexeme would be a run of blanks, and then this one would be so too
  · obtain ⟨r, rfl⟩ := List.prefix_of_prefix_length_le (List.prefix_append _ _) hfront
      (Nat.le_of_not_le hlength)
    have hr : r <+: v' := (List.prefix_append_right_inj _).mp hfront
    have hne : r ≠ [] := by rintro rfl; simp at hlength
    obtain rfl := hl'.eq_space_of_delimits hne (hv.of_isPrefix hr)
    exact absurd (hlongest.lexeme.eq_space (hl'.isBlanks_of_space b (by simp))) hkind

theorem Lexeme.lexeme?_append {l : Bytes} {kind : Kind} (h : Lexeme l kind)
    (hkind : kind ≠ .space) {v : Bytes} (hv : Delimits v) : lexeme? (l ++ v) = some (l, kind) :=
  lexeme?_of_delimits (u := []) (v := []) (by simpa using h.lexeme?_self) hkind hv

theorem Lexeme.wording_append {l : Bytes} {kind : Kind} (h : Lexeme l kind) (hkind : kind ≠ .space)
    {v : Bytes} (hv : Delimits v) : wording (l ++ v) = (kind, l) :: wording v :=
  wording_of_lexeme? (h.lexeme?_append hkind hv) hkind

/-- A space behind a lexeme keeps it apart from what follows, and says nothing else. -/
theorem Lexeme.wording_space {l : Bytes} {kind : Kind} (h : Lexeme l kind) (hkind : kind ≠ .space)
    (rest : Bytes) : wording (l ++ (utf8 " " ++ rest)) = (kind, l) :: wording rest := by
  have hdelimits : Delimits (utf8 " " ++ rest) := by
    rintro _ ⟨⟩
    rfl
  have hblank : IsBlanks (utf8 " ") := by decide +kernel
  rw [h.wording_append hkind hdelimits, wording_blanks_append hblank]

theorem delimits_lparen (rest : Bytes) : Delimits (utf8 "(" ++ rest) := by
  rintro _ ⟨⟩
  rfl

theorem delimits_rparen (rest : Bytes) : Delimits (utf8 ")" ++ rest) := by
  rintro _ ⟨⟩
  rfl

/-! ## Texts in front of others -/

/-- A text in front of another one is cut up completely, and these are its words. -/
inductive Says : Bytes → Bytes → List (Kind × Bytes) → Prop where
  | nil {v : Bytes} : Says [] v []
  | blanks {w u v : Bytes} {ws : List (Kind × Bytes)} (hw : IsBlanks w) (h : Says u v ws) :
    Says (w ++ u) v ws
  | word {l u v : Bytes} {kind : Kind} {ws : List (Kind × Bytes)} (hkind : kind ≠ .space)
      (hl : lexeme? (l ++ (u ++ v)) = some (l, kind)) (h : Says u v ws) :
    Says (l ++ u) v ((kind, l) :: ws)

theorem Says.wording_append {u v : Bytes} {ws : List (Kind × Bytes)} (h : Says u v ws) :
    wording (u ++ v) = ws ++ wording v := by
  induction h with
  | nil => rfl
  | blanks hw _ ih => rw [List.append_assoc, wording_blanks_append hw, ih]
  | word hkind hl _ ih => rw [List.append_assoc, wording_of_lexeme? hl hkind, ih, List.cons_append]

/-- A text is cut up alike in front of any blank or parenthesis. -/
theorem Says.of_delimits {u v v' : Bytes} {ws : List (Kind × Bytes)} (h : Says u v ws)
    (hv : Delimits v') : Says u v' ws := by
  induction h with
  | nil => exact .nil
  | blanks hw _ ih => exact .blanks hw ih
  | word hkind hl _ ih => exact .word hkind (lexeme?_of_delimits hl hkind hv) ih

theorem position_le_of_mem_scanFrom {position : Nat} {s : Bytes} {t : Token}
    (ht : t ∈ scanFrom position s) : position ≤ t.position := by
  fun_induction scanFrom position s with
  | case1 position s l kind h ih =>
    rcases List.mem_cons.mp ht with rfl | ht
    · exact Nat.le_refl _
    · exact Nat.le_trans (Nat.le_add_right _ _) (ih ht)
  | case2 position s h =>
    obtain rfl := List.mem_singleton.mp ht
    exact Nat.le_of_eq (position_lastToken _ _).symm

/-- A line is cut up to the place of each of its tokens. -/
theorem exists_says {position : Nat} {u v : Bytes} {t : Token}
    (ht : t ∈ scanFrom position (u ++ v)) (hposition : t.position = position + u.length) :
    ∃ ws, Says u v ws := by
  generalize hs : u ++ v = s at ht
  fun_induction scanFrom position s generalizing u with
  | case1 position s l kind h ih =>
    rcases List.mem_cons.mp ht with rfl | ht
    · -- the first token stands where the text begins
      obtain rfl : u = [] := List.length_eq_zero_iff.mp (by simpa using hposition)
      exact ⟨[], .nil⟩
    · have hle := position_le_of_mem_scanFrom ht
      have hl := prefix_of_lexeme? h
      rw [← hs] at hl
      obtain ⟨u, rfl⟩ := (List.isPrefix_append_of_length (by omega)).mp hl
      rw [List.append_assoc] at hs
      rw [List.length_append, ← Nat.add_assoc] at hposition
      obtain ⟨ws, hws⟩ := ih hposition (by rw [← hs, List.drop_left]) ht
      rw [← hs] at h
      by_cases hkind : kind = .space
      · subst hkind
        exact ⟨ws, .blanks (lexeme_of_lexeme? h).isBlanks_of_space hws⟩
      · exact ⟨_, .word hkind h hws⟩
  | case2 position s h =>
    obtain rfl := List.mem_singleton.mp ht
    have hlast := position_lastToken position s
    obtain rfl : u = [] := List.length_eq_zero_iff.mp (by omega)
    exact ⟨[], .nil⟩

theorem exists_says_of_no_stray {line : Bytes} (h : Kind.stray ∉ (scan line).map kind) :
    ∃ ws, Says line [] ws := by
  obtain ⟨front, rest, hscan, -, -⟩ := scan_eq_append line
  obtain rfl : rest = [] := by
    by_contra hrest
    refine h (List.mem_map.mpr ⟨lastToken (line.length - rest.length) rest, ?_, ?_⟩)
    · simp [hscan]
    · rw [lastToken_of_ne_nil hrest]
  have hlast : lastToken line.length [] ∈ scanFrom 0 (line ++ []) := by
    rw [List.append_nil]
    show _ ∈ scan line
    simp [hscan]
  exact exists_says hlast (Nat.zero_add _).symm

theorem wording_of_isBlanks {w : Bytes} (hw : IsBlanks w) : wording w = wording [] := by
  rw [← List.append_nil w, wording_blanks_append hw]

/-- A lexeme at the front of a text that blanks follow lies in that text, unless all are blanks. -/
theorem isPrefix_or_isBlanks {u w l : Bytes} {kind : Kind} (hw : IsBlanks w)
    (h : lexeme? (u ++ w) = some (l, kind)) : l <+: u ∨ IsBlanks u := by
  rcases List.prefix_or_prefix_of_prefix (prefix_of_lexeme? h) (List.prefix_append u w) with
    hinside | ⟨r, rfl⟩
  · exact .inl hinside
  by_cases hr : r = []
  · rw [hr, List.append_nil]
    exact .inl (List.prefix_refl u)
  refine .inr ?_
  obtain _ | ⟨b, u⟩ := u
  · exact nofun
  have hfront : r <+: w := (List.prefix_append_right_inj _).mp (prefix_of_lexeme? h)
  have hlexeme := lexeme_of_lexeme? h
  obtain rfl := hlexeme.eq_space_of_delimits hr (hw.delimits.of_isPrefix hfront)
  exact fun c hc ↦ hlexeme.isBlanks_of_space c (List.mem_append_left r hc)

/-- The blanks at the end of a line without stray characters do not matter. -/
theorem wording_append_blanks {u w : Bytes} (hw : IsBlanks w)
    (h : Kind.stray ∉ (wording (u ++ w)).map Prod.fst) : wording (u ++ w) = wording u := by
  induction hlength : u.length using Nat.strong_induction_on generalizing u with
  | _ n ih =>
  by_cases hu : IsBlanks u
  · rw [wording_blanks_append hu, wording_of_isBlanks hw, wording_of_isBlanks hu]
  cases hcut : lexeme? (u ++ w) with
  | none =>
    have hne : u ≠ [] := by rintro rfl; exact hu nofun
    rw [wording_of_none hcut, lastToken_of_ne_nil (by simp [hne])] at h
    exact absurd List.mem_cons_self h
  | some entry =>
    obtain ⟨l, kind⟩ := entry
    have hlexeme := lexeme_of_lexeme? hcut
    -- the line goes on behind its first lexeme with a shorter text in front of the blanks
    obtain ⟨u, rfl⟩ := (isPrefix_or_isBlanks hw hcut).resolve_right hu
    have hlt : u.length < n := by
      have hl := List.length_pos_iff.mpr hlexeme.ne_nil
      rw [← hlength, List.length_append]
      omega
    rw [List.append_assoc] at hcut h ⊢
    by_cases hkind : kind = .space
    · subst hkind
      rw [wording_blanks_append hlexeme.isBlanks_of_space] at h ⊢
      rw [wording_blanks_append hlexeme.isBlanks_of_space]
      exact ih u.length hlt h rfl
    · have hcut' : lexeme? (l ++ u) = some (l, kind) := by
        rw [← List.append_nil u]
        exact lexeme?_of_delimits hcut hkind (by simp [Delimits])
      rw [wording_of_lexeme? hcut hkind] at h ⊢
      rw [wording_of_lexeme? hcut' hkind, ih u.length hlt (fun hmem ↦ h (by simp [hmem])) rfl]

theorem exists_trim (line : Bytes) :
    ∃ w w', IsBlanks w ∧ IsBlanks w' ∧ line = w ++ (Bytes.trim line ++ w') := by
  refine ⟨line.takeWhile Bytes.isBlank,
    ((line.dropWhile Bytes.isBlank).reverse.takeWhile Bytes.isBlank).reverse,
    fun _ ↦ List.mem_takeWhile_imp, fun b hb ↦ List.mem_takeWhile_imp (List.mem_reverse.mp hb), ?_⟩
  rw [Bytes.trim, ← List.reverse_append, List.takeWhile_append_dropWhile, List.reverse_reverse,
    List.takeWhile_append_dropWhile]

/-! ## Lines cut short -/

/-- The end of a line, or a text that begins with a parenthesis: in front of it every lexeme ends,
runs of blanks included. -/
def Severs (s : Bytes) : Prop := ∀ b ∈ s.head?, isDelimiter b = true ∧ Bytes.isBlank b = false

theorem Severs.delimits {s : Bytes} (h : Severs s) : Delimits s := fun b hb ↦ (h b hb).1

theorem severs_nil : Severs [] := by
  rintro _ ⟨⟩

theorem severs_lparen (rest : Bytes) : Severs (utf8 "(" ++ rest) := by
  rintro _ ⟨⟩
  exact ⟨rfl, rfl⟩

theorem severs_rparen (rest : Bytes) : Severs (utf8 ")" ++ rest) := by
  rintro _ ⟨⟩
  exact ⟨rfl, rfl⟩

theorem lexeme?_blanks_append {l v : Bytes} (hne : l ≠ []) (hl : IsBlanks l)
    (hv : ∀ b ∈ v.head?, Bytes.isBlank b = false) : lexeme? (l ++ v) = some (l, .space) := by
  obtain ⟨b, l, rfl⟩ := List.exists_cons_of_ne_nil hne
  have hstop : v.takeWhile Bytes.isBlank = [] := by
    rcases v with _ | ⟨c, v⟩
    · rfl
    · rw [List.takeWhile_cons_of_neg (by simp [hv c rfl])]
  rw [List.cons_append, lexeme?_of_isBlank (hl b List.mem_cons_self), ← List.cons_append,
    List.takeWhile_append_of_pos hl, hstop, List.append_nil]

theorem isBlank_of_lexeme?_space {l rest : Bytes} (h : lexeme? (l ++ rest) = some (l, .space)) :
    ∀ b ∈ rest.head?, Bytes.isBlank b = false := by
  intro b hb
  rw [Bool.eq_false_iff]
  intro hblank
  obtain ⟨rest, rfl⟩ := List.head?_eq_some_iff.mp hb
  have hlongest := lexeme?_eq_some_iff.mp h
  have hl : IsBlanks (l ++ [b]) := by
    intro c hc
    rcases List.mem_append.mp hc with hc | hc
    · exact hlongest.lexeme.isBlanks_of_space c hc
    · rwa [List.mem_singleton.mp hc]
  have hle := hlongest.length_le (l ++ [b]) .space (.space (by simp) hl) ⟨rest, by simp⟩
  rw [List.length_append] at hle
  exact Nat.not_succ_le_self _ hle

/-- A line that is cut short in front of one of its tokens and goes on with the end or a parenthesis
has the same tokens up to there. -/
theorem exists_scanFrom_append {position : Nat} {s : Bytes} {front rest : List Token} {t : Token}
    (h : scanFrom position s = front ++ t :: rest) {v : Bytes} (hv : Severs v) :
    ∃ u, u <+: s ∧ scanFrom position (u ++ v) = front ++ scanFrom t.position v := by
  induction front generalizing position s with
  | nil =>
    have hposition : t.position = position := by
      rw [scanFrom] at h
      split at h
      · cases h
        rfl
      · obtain rfl := (List.cons.inj h).1
        exact position_lastToken _ _
    exact ⟨[], List.nil_prefix, by rw [hposition]; rfl⟩
  | cons a front ih =>
    cases hcut : lexeme? s with
    | none =>
      rw [scanFrom_of_none hcut] at h
      have hlength := congrArg List.length h
      simp at hlength
    | some entry =>
      obtain ⟨l, kind⟩ := entry
      obtain ⟨s, rfl⟩ := prefix_of_lexeme? hcut
      rw [scanFrom_of_lexeme? hcut] at h
      obtain ⟨rfl, hrest⟩ := List.cons.inj h
      obtain ⟨u, ⟨w, rfl⟩, hu⟩ := ih hrest
      refine ⟨l ++ u, (List.prefix_append_right_inj l).mpr (List.prefix_append u w), ?_⟩
      have hcut' : lexeme? (l ++ (u ++ v)) = some (l, kind) := by
        by_cases hkind : kind = .space
        · subst hkind
          have hlexeme := lexeme_of_lexeme? hcut
          refine lexeme?_blanks_append hlexeme.ne_nil hlexeme.isBlanks_of_space fun b hb ↦ ?_
          rcases u with _ | ⟨c, u⟩
          · exact (hv b hb).2
          · exact isBlank_of_lexeme?_space hcut b hb
        · exact lexeme?_of_delimits hcut hkind hv.delimits
      rw [List.append_assoc, scanFrom_of_lexeme? hcut', hu, List.cons_append]

/-! ## Blanks that come and go -/

/-- A line with its blanks changed at one place, or trimmed. -/
inductive Respaced : Bytes → Bytes → Prop where
  /-- A run of blanks becomes another one. -/
  | replaced {u w w' v : Bytes} (h : ⟨.space, w, u.length⟩ ∈ scan (u ++ (w ++ v))) (hne : w' ≠ [])
      (hw' : IsBlanks w') : Respaced (u ++ (w ++ v)) (u ++ (w' ++ v))
  /-- Blanks come in front of a token, the one that ends the line included. -/
  | inserted {u w v : Bytes} {t : Token} (ht : t ∈ scan (u ++ v))
      (hposition : t.position = u.length) (hw : IsBlanks w) : Respaced (u ++ v) (u ++ (w ++ v))
  /-- The blanks at the two ends go. -/
  | trimmed (line : Bytes) : Respaced line (Bytes.trim line)

theorem Says.wording_blanks {u v w s : Bytes} {ws : List (Kind × Bytes)} (h : Says u v ws)
    (hne : w ≠ []) (hw : IsBlanks w) : wording (u ++ (w ++ s)) = ws ++ wording s := by
  have hdelimits : Delimits (w ++ s) := by
    obtain ⟨b, w, rfl⟩ := List.exists_cons_of_ne_nil hne
    rintro _ ⟨⟩
    exact hw.delimits b rfl
  rw [(h.of_delimits hdelimits).wording_append, wording_blanks_append hw]

/-- A line without stray characters keeps its wording when its blanks are changed. -/
theorem Respaced.wording_eq {line line' : Bytes} (h : Respaced line line')
    (hstray : Kind.stray ∉ (scan line).map kind) : wording line' = wording line := by
  cases h with
  | @replaced u w w' v h hne hw' =>
    obtain ⟨ws, hws⟩ := exists_says h (Nat.zero_add _).symm
    have hw : Lexeme w .space := lexeme_of_lexeme? (lexeme?_of_mem_scan h ⟨nofun, nofun⟩)
    rw [hws.wording_blanks hne hw', hws.wording_blanks hw.ne_nil hw.isBlanks_of_space]
  | @inserted u w v t ht hposition hw =>
    obtain ⟨ws, hws⟩ := exists_says ht (by rw [hposition, Nat.zero_add])
    by_cases hne : w = []
    · rw [hne, List.nil_append]
    · rw [hws.wording_blanks hne hw, hws.wording_append]
  | trimmed =>
    obtain ⟨w, w', hw, hw', hline⟩ := exists_trim line
    rw [stray_mem_scan_iff, hline, wording_blanks_append hw] at hstray
    conv => rhs; rw [hline]
    rw [wording_blanks_append hw, wording_append_blanks hw' hstray]

theorem wording_eq_of_respaced {line line' : Bytes} (h : Relation.ReflTransGen Respaced line line')
    (hstray : Kind.stray ∉ (scan line).map kind) : wording line' = wording line := by
  induction h with
  | refl => rfl
  | tail _ hstep ih =>
    rw [← ih]
    refine hstep.wording_eq ?_
    rwa [stray_mem_scan_iff, ih, ← stray_mem_scan_iff]

end Abacus.Token
