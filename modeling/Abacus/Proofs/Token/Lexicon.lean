import Abacus.Proofs.Bytes
import Abacus.Proofs.Token.Scan
import Mathlib.Data.List.TakeWhile

/-!
# The lexicon

Which byte strings are lexemes, and of which kind, said class by class and without the order in
which a scan tries the classes. A scan decides by the first byte or two of a text what to cut off
it. Nevertheless it always cuts off the longest lexeme that the text begins with
(`lexeme?_eq_some_iff`), and it gives up only in front of a text that begins with no lexeme
(`lexeme?_eq_none_iff`).

Both statements come from one fact (`Lexeme.covers`): in front of a text that begins with some
lexeme, a scan cuts off a lexeme that is at least as long.
-/

namespace Abacus.Token

/-! ## The classes -/

/-- The sixteen fixed symbols. -/
inductive FixedSymbol : Bytes → Kind → Prop where
  | lparen : FixedSymbol (utf8 "(") .lparen
  | rparen : FixedSymbol (utf8 ")") .rparen
  | equals : FixedSymbol (utf8 "=") .equals
  | operator (op : Operator) : FixedSymbol op.symbol (.operator op)

/-- The eight words with a meaning of their own. -/
inductive Keyword : Bytes → Kind → Prop where
  | abs : Keyword (utf8 "abs") .abs
  | save : Keyword (utf8 "save") .save
  | load : Keyword (utf8 "load") .load
  | clear : Keyword (utf8 "clear") .clear
  | output (radix : Radix) : Keyword radix.name (.output radix)

/-- The lexemes of a kind. -/
inductive Lexeme : Bytes → Kind → Prop where
  | space {l : Bytes} (hne : l ≠ []) (hl : ∀ b ∈ l, Bytes.isBlank b = true) : Lexeme l .space
  | symbol {l : Bytes} {kind : Kind} (h : FixedSymbol l kind) : Lexeme l kind
  | var {w : Bytes} (hw : ∀ b ∈ w, Bytes.isWordByte b = true) : Lexeme ('$'.toUInt8 :: w) .var
  | binary {ds : Bytes} (hne : ds ≠ []) (hds : ∀ b ∈ ds, Bytes.isBinaryDigit b = true) :
    Lexeme ('b'.toUInt8 :: ds) .number
  | hex {x : UInt8} {ds : Bytes} (hx : x = 'x'.toUInt8 ∨ x = 'X'.toUInt8)
      (hds : ∀ b ∈ ds, Bytes.isHexDigit b = true) : Lexeme ('0'.toUInt8 :: x :: ds) .number
  | whole {ds : Bytes} (hne : ds ≠ []) (hds : ∀ b ∈ ds, Bytes.isDigit b = true) : Lexeme ds .number
  | fraction {ds fs : Bytes} (hne : ds ≠ []) (hds : ∀ b ∈ ds, Bytes.isDigit b = true)
      (hfs : ∀ b ∈ fs, Bytes.isDigit b = true) : Lexeme (ds ++ '.'.toUInt8 :: fs) .number
  | keyword {l : Bytes} {kind : Kind} (h : Keyword l kind) : Lexeme l kind
  | word {b : UInt8} {w : Bytes} (hb : Bytes.isLetter b = true)
      (hw : ∀ c ∈ w, Bytes.isWordByte c = true) (h : ∀ kind, ¬Keyword (b :: w) kind) :
    Lexeme (b :: w) .word

/-- The longest lexeme that a text begins with. -/
structure IsLongest (s l : Bytes) (kind : Kind) : Prop where
  lexeme : Lexeme l kind
  isPrefix : l <+: s
  length_le : ∀ l' kind', Lexeme l' kind' → l' <+: s → l'.length ≤ l.length

/-! ## Symbols -/

theorem fixedSymbol_iff {l : Bytes} {kind : Kind} :
    FixedSymbol l kind ↔ (l, kind) ∈ symbols := by
  constructor
  · intro h
    cases h with
    | operator op =>
      refine List.mem_append_right _ (List.mem_map.mpr ⟨op, ?_, rfl⟩)
      cases op with
      | _ => decide
    | _ => decide
  · intro h
    rcases List.mem_append.mp h with h | h
    · simp only [List.mem_cons, Prod.mk.injEq, List.not_mem_nil, or_false] at h
      rcases h with ⟨rfl, rfl⟩ | ⟨rfl, rfl⟩ | ⟨rfl, rfl⟩
      · exact .lparen
      · exact .rparen
      · exact .equals
    · obtain ⟨op, -, heq⟩ := List.mem_map.mp h
      cases heq
      exact .operator op

private theorem pairwise_symbols :
    symbols.Pairwise fun entry later ↦ entry.1.isPrefixOf later.1 = false := by
  decide

private theorem head_of_mem_symbols : ∀ entry ∈ symbols, ∀ b ∈ entry.1.head?,
    Bytes.isBlank b = false ∧ b ≠ '$'.toUInt8 ∧ Bytes.isLetter b = false
      ∧ Bytes.isDigit b = false := by
  decide +kernel

/-- Two symbols that a text begins with are the same, or one is longer and is found. -/
theorem symbol?_append {l : Bytes} {kind : Kind} (h : FixedSymbol l kind) (rest : Bytes) :
    ∃ l' kind', symbol? (l ++ rest) = some (l', kind') ∧ l <+: l' ∧ (l' = l → kind' = kind) := by
  have hmem := fixedSymbol_iff.mp h
  have hl : l.isPrefixOf (l ++ rest) = true :=
    List.isPrefixOf_iff_prefix.mpr (List.prefix_append l rest)
  cases hfind : symbol? (l ++ rest) with
  | none => exact absurd hl (List.find?_eq_none.mp hfind _ hmem)
  | some entry =>
    obtain ⟨l', kind'⟩ := entry
    obtain ⟨hl', before, after, hsymbols, hbefore⟩ := List.find?_eq_some_iff_append.mp hfind
    have hpairwise := pairwise_symbols
    rw [hsymbols] at hmem hpairwise
    refine ⟨l', kind', rfl, ?_⟩
    rcases List.mem_append.mp hmem with hmem | hmem
    · -- the search would have ended at the given symbol
      have hnot := hbefore _ hmem
      rw [hl] at hnot
      cases hnot
    rcases List.mem_cons.mp hmem with heq | hmem
    · cases heq
      exact ⟨List.prefix_refl l, fun _ ↦ rfl⟩
    · have hlater := (List.pairwise_cons.mp (List.pairwise_append.mp hpairwise).2.1).1 _ hmem
      have hnot : ¬l' <+: l := fun hpre ↦ by
        rw [List.isPrefixOf_iff_prefix.mpr hpre] at hlater
        cases hlater
      refine ⟨?_, fun heq ↦ absurd (heq ▸ List.prefix_refl l') hnot⟩
      exact (List.prefix_or_prefix_of_prefix (List.isPrefixOf_iff_prefix.mp hl')
        (List.prefix_append l rest)).resolve_left hnot

theorem symbol?_eq_none {b : UInt8} {rest : Bytes}
    (h : Bytes.isLetter b = true ∨ Bytes.isDigit b = true) : symbol? (b :: rest) = none := by
  rw [symbol?, List.find?_eq_none]
  intro entry hentry hfront
  obtain ⟨tail, htail⟩ := List.isPrefixOf_iff_prefix.mp hfront
  obtain ⟨c, l, hl⟩ := List.exists_cons_of_ne_nil (ne_nil_of_mem_symbols entry hentry)
  rw [hl, List.cons_append, List.cons.injEq] at htail
  obtain ⟨rfl, -⟩ := htail
  have hhead := (head_of_mem_symbols entry hentry c (by rw [hl]; rfl)).2.2
  rcases h with h | h
  · rw [hhead.1] at h
    cases h
  · rw [hhead.2] at h
    cases h

/-! ## Keywords -/

theorem keyword_iff {l : Bytes} {kind : Kind} : Keyword l kind ↔ (l, kind) ∈ keywords := by
  constructor
  · intro h
    cases h with
    | output radix =>
      refine List.mem_append_right _ (List.mem_map.mpr ⟨radix, ?_, rfl⟩)
      cases radix with
      | dec | hex | bin | oct => decide
    | _ => decide
  · intro h
    rcases List.mem_append.mp h with h | h
    · simp only [List.mem_cons, Prod.mk.injEq, List.not_mem_nil, or_false] at h
      rcases h with ⟨rfl, rfl⟩ | ⟨rfl, rfl⟩ | ⟨rfl, rfl⟩ | ⟨rfl, rfl⟩
      · exact .abs
      · exact .save
      · exact .load
      · exact .clear
    · obtain ⟨radix, -, heq⟩ := List.mem_map.mp h
      cases heq
      exact .output radix

private theorem wordKind_of_mem_keywords : ∀ entry ∈ keywords, wordKind entry.1 = entry.2 := by
  decide

private theorem isWord_of_mem_keywords : ∀ entry ∈ keywords,
    (entry.1.head?.any Bytes.isLetter && entry.1.tail.all Bytes.isWordByte) = true := by
  decide

theorem wordKind_of_keyword {l : Bytes} {kind : Kind} (h : Keyword l kind) : wordKind l = kind :=
  wordKind_of_mem_keywords _ (keyword_iff.mp h)

theorem wordKind_of_not_keyword {l : Bytes} (h : ∀ kind, ¬Keyword l kind) : wordKind l = .word :=
  (wordKind_cases l).resolve_right fun hmem ↦ h _ (keyword_iff.mpr hmem)

/-- A keyword is spelt like any other word. -/
theorem Keyword.exists_cons {l : Bytes} {kind : Kind} (h : Keyword l kind) : ∃ b w, l = b :: w
    ∧ Bytes.isLetter b = true ∧ ∀ c ∈ w, Bytes.isWordByte c = true := by
  have hword := isWord_of_mem_keywords _ (keyword_iff.mp h)
  obtain ⟨hhead, htail⟩ := Bool.and_eq_true_iff.mp hword
  obtain _ | ⟨b, w⟩ := l
  · cases hhead
  · exact ⟨b, w, rfl, hhead, List.all_eq_true.mp htail⟩

/-- A letter and the word bytes behind it are a lexeme, whatever they mean together. -/
theorem lexeme_word {b : UInt8} {w : Bytes} (hb : Bytes.isLetter b = true)
    (hw : ∀ c ∈ w, Bytes.isWordByte c = true) : Lexeme (b :: w) (wordKind (b :: w)) := by
  by_cases h : ∃ kind, Keyword (b :: w) kind
  · obtain ⟨kind, h⟩ := h
    rw [wordKind_of_keyword h]
    exact .keyword h
  · have hnot : ∀ kind, ¬Keyword (b :: w) kind := fun kind hkind ↦ h ⟨kind, hkind⟩
    rw [wordKind_of_not_keyword hnot]
    exact .word hb hw hnot

/-! ## Numbers -/

theorem Lexeme.exists_cons_of_number {l : Bytes} (h : Lexeme l .number) :
    ∃ b rest, l = b :: rest ∧ (b = 'b'.toUInt8 ∨ Bytes.isDigit b = true) := by
  cases h with
  | symbol h => cases h
  | binary => exact ⟨_, _, rfl, .inl rfl⟩
  | hex => exact ⟨_, _, rfl, .inr (by decide)⟩
  | whole hne hds =>
    obtain ⟨b, rest, rfl⟩ := List.exists_cons_of_ne_nil hne
    exact ⟨b, rest, rfl, .inr (hds b List.mem_cons_self)⟩
  | fraction hne hds =>
    obtain ⟨b, rest, rfl⟩ := List.exists_cons_of_ne_nil hne
    exact ⟨b, _, rfl, .inr (hds b List.mem_cons_self)⟩
  | keyword h => cases h

theorem Lexeme.lower {l : Bytes} (h : Lexeme l .number) : Lexeme (Bytes.lower l) .number := by
  have hdigits : ∀ {ds : Bytes}, (∀ b ∈ ds, Bytes.isDigit b = true) → Bytes.lower ds = ds :=
    fun hds ↦ Bytes.lower_of_forall fun b hb ↦ Bytes.isUpper_of_isDigit (hds b hb)
  cases h with
  | symbol h => cases h
  | keyword h => cases h
  | @binary ds hne hds =>
    have hlower : Bytes.lower ds = ds :=
      Bytes.lower_of_forall fun b hb ↦ Bytes.isUpper_of_isBinaryDigit (hds b hb)
    show Lexeme ('b'.toUInt8 :: Bytes.lower ds) .number
    rw [hlower]
    exact .binary hne hds
  | @hex x ds hx hds =>
    show Lexeme ('0'.toUInt8 :: Bytes.lowerByte x :: Bytes.lower ds) .number
    have hmark : Bytes.lowerByte x = 'x'.toUInt8 := by
      rcases hx with rfl | rfl
      · rfl
      · rfl
    refine .hex (.inl hmark) ?_
    intro b hb
    obtain ⟨c, hc, rfl⟩ := List.mem_map.mp hb
    exact Bytes.isHexDigit_lowerByte (hds c hc)
  | whole hne hds =>
    rw [hdigits hds]
    exact .whole hne hds
  | @fraction ds fs hne hds hfs =>
    have hlower : Bytes.lower (ds ++ '.'.toUInt8 :: fs)
        = Bytes.lower ds ++ '.'.toUInt8 :: Bytes.lower fs := List.map_append
    rw [hlower, hdigits hds, hdigits hfs]
    exact .fraction hne hds hfs

/-! ## What a scan cuts off -/

theorem lexeme?_of_isBlank {b : UInt8} (hb : Bytes.isBlank b = true) (rest : Bytes) :
    lexeme? (b :: rest) = some ((b :: rest).takeWhile Bytes.isBlank, .space) := by
  simp only [lexeme?, hb, if_true]

theorem lexeme?_dollar (rest : Bytes) :
    lexeme? ('$'.toUInt8 :: rest) = some ('$'.toUInt8 :: rest.takeWhile Bytes.isWordByte, .var) :=
  rfl

theorem lexeme?_of_symbol? {s : Bytes} {entry : Bytes × Kind} (h : symbol? s = some entry) :
    lexeme? s = some entry := by
  have hmem := mem_symbols_of_symbol? h
  obtain ⟨c, l, hl⟩ := List.exists_cons_of_ne_nil (ne_nil_of_mem_symbols entry hmem)
  have hfront : entry.1.isPrefixOf s = true := by simpa using List.find?_some h
  obtain ⟨tail, rfl⟩ := List.isPrefixOf_iff_prefix.mp hfront
  have hhead := head_of_mem_symbols entry hmem c (by rw [hl]; rfl)
  rw [hl, List.cons_append] at h ⊢
  simp only [lexeme?, hhead.1, hhead.2.1, h, if_false, Bool.false_eq_true]

theorem lexeme?_lparen (rest : Bytes) :
    lexeme? (utf8 "(" ++ rest) = some (utf8 "(", .lparen) := lexeme?_of_symbol? rfl

theorem lexeme?_rparen (rest : Bytes) :
    lexeme? (utf8 ")" ++ rest) = some (utf8 ")", .rparen) := lexeme?_of_symbol? rfl

theorem lexeme?_minus (rest : Bytes) :
    lexeme? (utf8 "-" ++ rest) = some (utf8 "-", .operator .sub) := lexeme?_of_symbol? rfl

theorem exists_of_startsBinary {s : Bytes} (h : startsBinary s = true) :
    ∃ d rest, s = 'b'.toUInt8 :: d :: rest ∧ Bytes.isBinaryDigit d = true := by
  obtain _ | ⟨b, _ | ⟨d, rest⟩⟩ := s
  · cases h
  · cases h
  · simp only [startsBinary, Bool.and_eq_true, beq_iff_eq] at h
    exact ⟨d, rest, by rw [h.1], h.2⟩

theorem lexeme?_of_number {b : UInt8} {rest : Bytes}
    (h : (startsBinary (b :: rest) || Bytes.isDigit b) = true) :
    lexeme? (b :: rest) = some (numberLexeme (b :: rest), .number) := by
  have hclass : Bytes.isBlank b = false ∧ b ≠ '$'.toUInt8
      ∧ (Bytes.isLetter b = true ∨ Bytes.isDigit b = true) := by
    rcases Bool.or_eq_true_iff.mp h with hbinary | hdigit
    · obtain ⟨d, rest', heq, -⟩ := exists_of_startsBinary hbinary
      obtain ⟨rfl, -⟩ := List.cons.inj heq
      decide
    · refine ⟨Bytes.isBlank_of_isDigit hdigit, ?_, .inr hdigit⟩
      rintro rfl
      exact absurd hdigit (by decide)
  simp only [lexeme?, hclass.1, hclass.2.1, symbol?_eq_none hclass.2.2, h, if_true, if_false,
    Bool.false_eq_true]

theorem lexeme?_of_isLetter {b : UInt8} {rest : Bytes} (hb : Bytes.isLetter b = true)
    (h : startsBinary (b :: rest) = false) :
    lexeme? (b :: rest) = some (wordLexeme (b :: rest), wordKind (wordLexeme (b :: rest))) := by
  have hdollar : b ≠ '$'.toUInt8 := by
    rintro rfl
    exact absurd hb (by decide)
  simp only [lexeme?, Bytes.isBlank_of_isLetter hb, hdollar, symbol?_eq_none (.inl hb), h,
    Bytes.isDigit_of_isLetter hb, hb, if_true, if_false, Bool.or_false, Bool.false_eq_true]

theorem numberLexeme_binary {d : UInt8} {rest : Bytes} (hd : Bytes.isBinaryDigit d = true) :
    numberLexeme ('b'.toUInt8 :: d :: rest)
      = 'b'.toUInt8 :: (d :: rest).takeWhile Bytes.isBinaryDigit := by
  have hbinary : startsBinary ('b'.toUInt8 :: d :: rest) = true := by simp [startsBinary, hd]
  rw [numberLexeme, if_pos hbinary]
  rfl

theorem numberLexeme_hex {x : UInt8} {rest : Bytes} (hx : x = 'x'.toUInt8 ∨ x = 'X'.toUInt8) :
    numberLexeme ('0'.toUInt8 :: x :: rest)
      = '0'.toUInt8 :: x :: rest.takeWhile Bytes.isHexDigit := by
  have hbinary : startsBinary ('0'.toUInt8 :: x :: rest) = false := rfl
  have hhex : startsHex ('0'.toUInt8 :: x :: rest) = true := by
    rcases hx with rfl | rfl
    · rfl
    · rfl
  rw [numberLexeme, hbinary, if_neg Bool.false_ne_true, if_pos hhex]
  rfl

theorem decimalLexeme_append {ds : Bytes} (hds : ∀ b ∈ ds, Bytes.isDigit b = true)
    (rest : Bytes) : decimalLexeme (ds ++ rest) = ds ++ decimalLexeme rest := by
  rw [decimalLexeme, List.takeWhile_append_of_pos hds, List.dropWhile_append_of_pos hds,
    List.append_assoc, decimalLexeme]

theorem decimalLexeme_point (rest : Bytes) :
    decimalLexeme ('.'.toUInt8 :: rest) = '.'.toUInt8 :: rest.takeWhile Bytes.isDigit := rfl

/-- Digits are all taken, unless they are the zero of a hexadecimal mark. -/
theorem lexeme?_of_digits {ds rest : Bytes} (hne : ds ≠ [])
    (hds : ∀ b ∈ ds, Bytes.isDigit b = true) (hhex : startsHex (ds ++ rest) = false) :
    lexeme? (ds ++ rest) = some (ds ++ decimalLexeme rest, .number) := by
  obtain ⟨d, ds, rfl⟩ := List.exists_cons_of_ne_nil hne
  have hd := hds d List.mem_cons_self
  have hbinary : startsBinary (d :: ds ++ rest) = false := by
    rw [Bool.eq_false_iff]
    intro h
    obtain ⟨_, _, heq, -⟩ := exists_of_startsBinary h
    rw [List.cons_append, List.cons.injEq] at heq
    rw [heq.1] at hd
    exact absurd hd (by decide)
  have hnumber : (startsBinary (d :: ds ++ rest) || Bytes.isDigit d) = true := by
    rw [hd, Bool.or_true]
  rw [List.cons_append] at hnumber
  rw [← decimalLexeme_append hds, List.cons_append, lexeme?_of_number hnumber, numberLexeme,
    ← List.cons_append, hbinary, hhex, if_neg Bool.false_ne_true, if_neg Bool.false_ne_true]

theorem eq_zero_of_startsHex {ds rest : Bytes} (hne : ds ≠ [])
    (hds : ∀ b ∈ ds, Bytes.isDigit b = true) (h : startsHex (ds ++ rest) = true) :
    ds = ['0'.toUInt8] ∧ ∃ x tail, rest = x :: tail ∧ (x = 'x'.toUInt8 ∨ x = 'X'.toUInt8) := by
  obtain ⟨d, ds, rfl⟩ := List.exists_cons_of_ne_nil hne
  obtain _ | ⟨c, ds⟩ := ds
  · obtain _ | ⟨x, tail⟩ := rest
    · cases h
    · simp only [List.cons_append, List.nil_append, startsHex, Bool.and_eq_true, Bool.or_eq_true,
        beq_iff_eq] at h
      exact ⟨by rw [h.1], x, tail, rfl, h.2⟩
  · -- the second byte would be a digit and an `x`
    simp only [List.cons_append, startsHex, Bool.and_eq_true, Bool.or_eq_true, beq_iff_eq] at h
    have hc := hds c (List.mem_cons_of_mem _ List.mem_cons_self)
    rcases h.2 with rfl | rfl
    · exact absurd hc (by decide)
    · exact absurd hc (by decide)

/-! ## A scan cuts off at least as much -/

/-- In front of some text behind it, a scan cuts off at least a given lexeme. -/
def Covers (l : Bytes) (kind : Kind) (rest : Bytes) : Prop :=
  ∃ l' kind', lexeme? (l ++ rest) = some (l', kind') ∧ l <+: l' ∧ (l' = l → kind' = kind)

variable (rest : Bytes)

theorem covers_of_append (tail : Bytes) {l : Bytes} {kind : Kind}
    (h : lexeme? (l ++ rest) = some (l ++ tail, kind)) : Covers l kind rest :=
  ⟨l ++ tail, kind, h, List.prefix_append l tail, fun _ ↦ rfl⟩

theorem covers_space {l : Bytes} (hne : l ≠ []) (hl : ∀ b ∈ l, Bytes.isBlank b = true) :
    Covers l .space rest := by
  obtain ⟨b, l, rfl⟩ := List.exists_cons_of_ne_nil hne
  refine covers_of_append rest (rest.takeWhile Bytes.isBlank) ?_
  rw [List.cons_append, lexeme?_of_isBlank (hl b List.mem_cons_self), ← List.cons_append,
    List.takeWhile_append_of_pos hl]

theorem covers_var {w : Bytes} (hw : ∀ b ∈ w, Bytes.isWordByte b = true) :
    Covers ('$'.toUInt8 :: w) .var rest := by
  refine covers_of_append rest (rest.takeWhile Bytes.isWordByte) ?_
  rw [List.cons_append, lexeme?_dollar, List.takeWhile_append_of_pos hw, List.cons_append]

theorem covers_binary {ds : Bytes} (hne : ds ≠ [])
    (hds : ∀ b ∈ ds, Bytes.isBinaryDigit b = true) : Covers ('b'.toUInt8 :: ds) .number rest := by
  obtain ⟨d, ds, rfl⟩ := List.exists_cons_of_ne_nil hne
  have hd := hds d List.mem_cons_self
  have hbinary : startsBinary ('b'.toUInt8 :: d :: (ds ++ rest)) = true := by
    simp [startsBinary, hd]
  refine covers_of_append rest (rest.takeWhile Bytes.isBinaryDigit) ?_
  rw [List.cons_append, List.cons_append, lexeme?_of_number (by rw [hbinary]; rfl),
    numberLexeme_binary hd, ← List.cons_append, List.takeWhile_append_of_pos hds,
    ← List.cons_append]

theorem covers_hex {x : UInt8} {ds : Bytes} (hx : x = 'x'.toUInt8 ∨ x = 'X'.toUInt8)
    (hds : ∀ b ∈ ds, Bytes.isHexDigit b = true) :
    Covers ('0'.toUInt8 :: x :: ds) .number rest := by
  refine covers_of_append rest (rest.takeWhile Bytes.isHexDigit) ?_
  rw [List.cons_append, List.cons_append, lexeme?_of_number (Bool.or_eq_true_iff.mpr (.inr rfl)),
    numberLexeme_hex hx, List.takeWhile_append_of_pos hds, List.cons_append, List.cons_append]

theorem covers_whole {ds : Bytes} (hne : ds ≠ []) (hds : ∀ b ∈ ds, Bytes.isDigit b = true) :
    Covers ds .number rest := by
  by_cases hhex : startsHex (ds ++ rest) = true
  · obtain ⟨rfl, x, tail, rfl, hx⟩ := eq_zero_of_startsHex hne hds hhex
    have hlexeme : lexeme? ('0'.toUInt8 :: x :: tail) = _ :=
      lexeme?_of_number (Bool.or_eq_true_iff.mpr (.inr rfl))
    rw [numberLexeme_hex hx] at hlexeme
    exact ⟨_, _, hlexeme, ⟨_, rfl⟩, fun _ ↦ rfl⟩
  · exact covers_of_append rest _ (lexeme?_of_digits hne hds (Bool.eq_false_iff.mpr hhex))

theorem covers_fraction {ds fs : Bytes} (hne : ds ≠ []) (hds : ∀ b ∈ ds, Bytes.isDigit b = true)
    (hfs : ∀ b ∈ fs, Bytes.isDigit b = true) :
    Covers (ds ++ '.'.toUInt8 :: fs) .number rest := by
  have hhex : startsHex (ds ++ '.'.toUInt8 :: (fs ++ rest)) = false := by
    rw [Bool.eq_false_iff]
    intro h
    obtain ⟨-, x, tail, heq, hx⟩ := eq_zero_of_startsHex hne hds h
    obtain ⟨rfl, -⟩ := List.cons.inj heq
    exact absurd hx (by decide)
  refine covers_of_append rest (rest.takeWhile Bytes.isDigit) ?_
  rw [List.append_assoc, List.cons_append, lexeme?_of_digits hne hds hhex, decimalLexeme_point,
    List.takeWhile_append_of_pos hfs, List.append_assoc, List.cons_append]

theorem covers_word {b : UInt8} {w : Bytes} (hb : Bytes.isLetter b = true)
    (hw : ∀ c ∈ w, Bytes.isWordByte c = true) : Covers (b :: w) (wordKind (b :: w)) rest := by
  rw [Covers, List.cons_append]
  by_cases hbinary : startsBinary (b :: (w ++ rest)) = true
  · -- a binary number is longer than the one letter that it begins with
    obtain ⟨d, tail, heq, hd⟩ := exists_of_startsBinary hbinary
    obtain ⟨rfl, hrest⟩ := List.cons.inj heq
    rw [hrest] at hbinary ⊢
    have hlexeme := lexeme?_of_number (Bool.or_eq_true_iff.mpr (.inl hbinary))
    rw [numberLexeme_binary hd, List.takeWhile_cons_of_pos hd] at hlexeme
    obtain _ | ⟨c, w⟩ := w
    · exact ⟨_, _, hlexeme, ⟨_, rfl⟩, nofun⟩
    · have hc := hw c List.mem_cons_self
      rw [(List.cons.inj hrest).1, Bytes.isWordByte_of_isBinaryDigit hd] at hc
      cases hc
  · have hword : wordLexeme (b :: (w ++ rest)) = b :: w ++ rest.takeWhile Bytes.isWordByte :=
      congrArg (b :: ·) (List.takeWhile_append_of_pos hw)
    have hlexeme := lexeme?_of_isLetter hb (Bool.eq_false_iff.mpr hbinary)
    rw [hword] at hlexeme
    exact ⟨_, _, hlexeme, List.prefix_append _ _, fun hl ↦ by rw [hl]⟩

/-- In front of a text that begins with some lexeme, a scan cuts off at least that lexeme. -/
theorem Lexeme.covers {l : Bytes} {kind : Kind} (h : Lexeme l kind) : Covers l kind rest := by
  cases h with
  | space hne hl => exact covers_space rest hne hl
  | symbol h =>
    obtain ⟨l', kind', hfind, hfront, hkind⟩ := symbol?_append h rest
    exact ⟨l', kind', lexeme?_of_symbol? hfind, hfront, hkind⟩
  | var hw => exact covers_var rest hw
  | binary hne hds => exact covers_binary rest hne hds
  | hex hx hds => exact covers_hex rest hx hds
  | whole hne hds => exact covers_whole rest hne hds
  | fraction hne hds hfs => exact covers_fraction rest hne hds hfs
  | keyword h =>
    obtain ⟨b, w, rfl, hb, hw⟩ := h.exists_cons
    exact wordKind_of_keyword h ▸ covers_word rest hb hw
  | word hb hw h => exact wordKind_of_not_keyword h ▸ covers_word rest hb hw

/-! ## A scan cuts off lexemes -/

theorem lexeme_wordLexeme {b : UInt8} (hb : Bytes.isLetter b = true) (rest : Bytes) :
    Lexeme (wordLexeme (b :: rest)) (wordKind (wordLexeme (b :: rest))) :=
  lexeme_word hb fun _ hc ↦ List.mem_takeWhile_imp hc

theorem lexeme_decimalLexeme {d : UInt8} (hd : Bytes.isDigit d = true) (rest : Bytes) :
    Lexeme (decimalLexeme (d :: rest)) .number := by
  have hne : (d :: rest).takeWhile Bytes.isDigit ≠ [] := by
    rw [List.takeWhile_cons_of_pos hd]
    exact List.cons_ne_nil _ _
  have hds : ∀ b ∈ (d :: rest).takeWhile Bytes.isDigit, Bytes.isDigit b = true :=
    fun _ ↦ List.mem_takeWhile_imp
  rw [decimalLexeme]
  split
  · rw [List.append_nil]
    exact .whole hne hds
  · split
    · next hpoint =>
      rw [hpoint]
      exact .fraction hne hds fun _ ↦ List.mem_takeWhile_imp
    · rw [List.append_nil]
      exact .whole hne hds

theorem lexeme_numberLexeme {b : UInt8} {rest : Bytes}
    (h : (startsBinary (b :: rest) || Bytes.isDigit b) = true) :
    Lexeme (numberLexeme (b :: rest)) .number := by
  by_cases hbinary : startsBinary (b :: rest) = true
  · obtain ⟨d, tail, heq, hd⟩ := exists_of_startsBinary hbinary
    rw [heq, numberLexeme_binary hd]
    refine .binary ?_ fun _ ↦ List.mem_takeWhile_imp
    rw [List.takeWhile_cons_of_pos hd]
    exact List.cons_ne_nil _ _
  have hdigit : Bytes.isDigit b = true := by simpa [hbinary] using h
  by_cases hhex : startsHex (b :: rest) = true
  · have hdigits : ∀ c ∈ [b], Bytes.isDigit c = true :=
      fun _ hc ↦ List.mem_singleton.mp hc ▸ hdigit
    obtain ⟨hzero, x, tail, rfl, hx⟩ := eq_zero_of_startsHex (List.cons_ne_nil b []) hdigits hhex
    obtain ⟨rfl, -⟩ := List.cons.inj hzero
    rw [numberLexeme_hex hx]
    exact .hex hx fun _ ↦ List.mem_takeWhile_imp
  · rw [numberLexeme, if_neg hbinary, if_neg hhex]
    exact lexeme_decimalLexeme hdigit rest

theorem lexeme_of_lexeme? {s l : Bytes} {kind : Kind} (h : lexeme? s = some (l, kind)) :
    Lexeme l kind := by
  obtain ⟨b, rest, rfl⟩ := exists_cons_of_lexeme? h
  rcases lexeme?_cases h with
    ⟨rfl, hb, rfl⟩ | ⟨rfl, rfl, rfl⟩ | hs | ⟨rfl, hb, rfl⟩ | ⟨hb, rfl, rfl⟩
  · refine .space ?_ fun _ ↦ List.mem_takeWhile_imp
    rw [List.takeWhile_cons_of_pos hb]
    exact List.cons_ne_nil _ _
  · exact .var fun _ ↦ List.mem_takeWhile_imp
  · exact .symbol (fixedSymbol_iff.mpr (mem_symbols_of_symbol? hs))
  · exact lexeme_numberLexeme hb
  · exact lexeme_wordLexeme hb rest

/-! ## The longest lexeme -/

/-- **A scan cuts off the longest lexeme.** It is the only one of its length. -/
theorem lexeme?_eq_some_iff {s l : Bytes} {kind : Kind} :
    lexeme? s = some (l, kind) ↔ IsLongest s l kind := by
  constructor
  · intro h
    refine ⟨lexeme_of_lexeme? h, prefix_of_lexeme? h, ?_⟩
    rintro l' kind' hl' ⟨rest, rfl⟩
    obtain ⟨l'', kind'', hcut, hfront, -⟩ := hl'.covers rest
    obtain ⟨rfl, -⟩ := Prod.mk.inj (Option.some.inj (hcut.symm.trans h))
    exact hfront.length_le
  · rintro ⟨hl, ⟨rest, rfl⟩, hle⟩
    obtain ⟨l', kind', hcut, hfront, hkind⟩ := hl.covers rest
    have heq : l' = l := (hfront.eq_of_length_le
      (hle l' kind' (lexeme_of_lexeme? hcut) (prefix_of_lexeme? hcut))).symm
    rw [hcut, heq, hkind heq]

theorem lexeme?_eq_none_iff {s : Bytes} :
    lexeme? s = none ↔ ∀ l kind, Lexeme l kind → ¬l <+: s := by
  constructor
  · rintro h l kind hl ⟨rest, rfl⟩
    obtain ⟨l', kind', hcut, -⟩ := hl.covers rest
    rw [h] at hcut
    cases hcut
  · intro h
    rw [Option.eq_none_iff_forall_ne_some]
    rintro ⟨l, kind⟩ hcut
    exact h l kind (lexeme_of_lexeme? hcut) (prefix_of_lexeme? hcut)

theorem Lexeme.lexeme?_self {l : Bytes} {kind : Kind} (h : Lexeme l kind) :
    lexeme? l = some (l, kind) :=
  lexeme?_eq_some_iff.mpr ⟨h, List.prefix_refl l, fun _ _ _ hfront ↦ hfront.length_le⟩

end Abacus.Token
