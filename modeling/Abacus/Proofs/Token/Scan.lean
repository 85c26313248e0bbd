import Abacus.Token

/-!
# The tokens of a scan

What a lexeme looks like is read off `lexeme?` once, case by case. A scan is then a list of tokens
with a lexeme each, behind which one more token says how the scan ended.
-/

namespace Abacus.Token

/-! ## Lexemes -/

/-- The five ways in which a text can begin with a lexeme. -/
theorem lexeme?_cases {b : UInt8} {rest l : Bytes} {kind : Kind}
    (h : lexeme? (b :: rest) = some (l, kind)) :
    (kind = .space ∧ Bytes.isBlank b = true ∧ l = (b :: rest).takeWhile Bytes.isBlank)
      ∨ (kind = .var ∧ b = '$'.toUInt8 ∧ l = wordLexeme (b :: rest))
      ∨ symbol? (b :: rest) = some (l, kind)
      ∨ (kind = .number ∧ (startsBinary (b :: rest) || Bytes.isDigit b) = true
        ∧ l = numberLexeme (b :: rest))
      ∨ (Bytes.isLetter b = true ∧ l = wordLexeme (b :: rest) ∧ kind = wordKind l) := by
  simp only [lexeme?] at h
  split at h
  · next hb =>
    cases h
    exact .inl ⟨rfl, hb, rfl⟩
  split at h
  · next hb =>
    cases h
    exact .inr (.inl ⟨rfl, hb, rfl⟩)
  split at h
  · next entry he =>
    cases h
    exact .inr (.inr (.inl he))
  split at h
  · next hn =>
    cases h
    exact .inr (.inr (.inr (.inl ⟨rfl, hn, rfl⟩)))
  split at h
  · next hl =>
    cases h
    exact .inr (.inr (.inr (.inr ⟨hl, rfl, rfl⟩)))
  · cases h

theorem exists_cons_of_lexeme? {s l : Bytes} {kind : Kind} (h : lexeme? s = some (l, kind)) :
    ∃ b rest, s = b :: rest := by
  cases s with
  | nil => simp [lexeme?] at h
  | cons b rest => exact ⟨b, rest, rfl⟩

theorem wordKind_cases (s : Bytes) :
    wordKind s = .word ∨ (s, wordKind s) ∈ keywords := by
  unfold wordKind
  cases h : keywords.find? (·.1 = s) with
  | none => exact .inl rfl
  | some entry =>
    have hs : entry.1 = s := by simpa using List.find?_some h
    exact .inr (hs ▸ List.mem_of_find?_eq_some h)

private theorem kind_of_mem_symbols : ∀ entry ∈ symbols,
    entry.2 ≠ .stray ∧ entry.2 ≠ .endOfLine ∧ entry.2 ≠ .space ∧ entry.2 ≠ .number := by
  decide

private theorem kind_of_mem_keywords : ∀ entry ∈ keywords,
    entry.2 ≠ .stray ∧ entry.2 ≠ .endOfLine ∧ entry.2 ≠ .number ∧ entry.2.isOperator = false := by
  decide

private theorem ofSymbol?_of_mem_symbols : ∀ entry ∈ symbols,
    entry.2.isOperator = true → (Operator.ofSymbol? entry.1).map Kind.operator = some entry.2 := by
  decide

theorem mem_symbols_of_symbol? {s : Bytes} {entry : Bytes × Kind} (h : symbol? s = some entry) :
    entry ∈ symbols := List.mem_of_find?_eq_some h

private theorem take_append_takeWhile_prefix (n : Nat) (p : UInt8 → Bool) (s : Bytes) :
    s.take n ++ (s.drop n).takeWhile p <+: s := by
  have h : s.take n ++ (s.drop n).takeWhile p <+: s.take n ++ s.drop n :=
    (List.prefix_append_right_inj _).mpr (List.takeWhile_prefix p)
  rwa [List.take_append_drop] at h

private theorem decimalLexeme_prefix (s : Bytes) : decimalLexeme s <+: s := by
  have h : decimalLexeme s <+: s.takeWhile Bytes.isDigit ++ s.dropWhile Bytes.isDigit := by
    refine (List.prefix_append_right_inj _).mpr ?_
    split
    · exact List.nil_prefix
    · next b rest heq =>
      rw [heq]
      split
      · exact (List.prefix_cons_inj b).mpr (List.takeWhile_prefix _)
      · exact List.nil_prefix
  rwa [List.takeWhile_append_dropWhile] at h

private theorem numberLexeme_prefix (s : Bytes) : numberLexeme s <+: s := by
  unfold numberLexeme
  split
  · exact take_append_takeWhile_prefix 1 _ s
  split
  · exact take_append_takeWhile_prefix 2 _ s
  · exact decimalLexeme_prefix s

theorem prefix_of_lexeme? {s l : Bytes} {kind : Kind} (h : lexeme? s = some (l, kind)) :
    l <+: s := by
  obtain ⟨b, rest, rfl⟩ := exists_cons_of_lexeme? h
  rcases lexeme?_cases h with ⟨-, -, rfl⟩ | ⟨-, -, rfl⟩ | hs | ⟨-, -, rfl⟩ | ⟨-, rfl, -⟩
  · exact List.takeWhile_prefix _
  · exact take_append_takeWhile_prefix 1 _ _
  · have hl : l.isPrefixOf (b :: rest) = true := by simpa using List.find?_some hs
    exact List.isPrefixOf_iff_prefix.mp hl
  · exact numberLexeme_prefix _
  · exact take_append_takeWhile_prefix 1 _ _

theorem kind_of_lexeme? {s l : Bytes} {kind : Kind} (h : lexeme? s = some (l, kind)) :
    kind ≠ .stray ∧ kind ≠ .endOfLine := by
  obtain ⟨b, rest, rfl⟩ := exists_cons_of_lexeme? h
  rcases lexeme?_cases h with ⟨rfl, -⟩ | ⟨rfl, -⟩ | hs | ⟨rfl, -⟩ | ⟨-, -, rfl⟩
  · simp
  · simp
  · have hk := kind_of_mem_symbols _ (mem_symbols_of_symbol? hs)
    exact ⟨hk.1, hk.2.1⟩
  · simp
  · rcases wordKind_cases l with hw | hw
    · simp [hw]
    · have hk := kind_of_mem_keywords _ hw
      exact ⟨hk.1, hk.2.1⟩

theorem ofSymbol?_of_lexeme? {s l : Bytes} {op : Operator}
    (h : lexeme? s = some (l, .operator op)) : Operator.ofSymbol? l = some op := by
  obtain ⟨b, rest, rfl⟩ := exists_cons_of_lexeme? h
  rcases lexeme?_cases h with ⟨hk, -⟩ | ⟨hk, -⟩ | hs | ⟨hk, -⟩ | ⟨-, -, hk⟩
  · cases hk
  · cases hk
  · have hop := ofSymbol?_of_mem_symbols _ (mem_symbols_of_symbol? hs) rfl
    obtain ⟨op', hop', heq⟩ := Option.map_eq_some_iff.mp hop
    cases heq
    exact hop'
  · cases hk
  · rcases wordKind_cases l with hw | hw
    · rw [hw] at hk
      cases hk
    · have hno := (kind_of_mem_keywords _ hw).2.2.2
      rw [← hk] at hno
      cases hno

/-! ## Scans -/

theorem lastToken_of_ne_nil {s : Bytes} (hs : s ≠ []) (position : Nat) :
    lastToken position s = ⟨.stray, character s, position⟩ := by
  rw [lastToken, List.isEmpty_eq_false_iff.mpr hs, if_neg Bool.false_ne_true]

@[simp] theorem position_lastToken (position : Nat) (s : Bytes) :
    (lastToken position s).position = position := by
  unfold lastToken
  split
  · rfl
  · rfl

/-- A token whose lexeme some text begins with. -/
def IsCut (t : Token) : Prop := ∃ s, lexeme? s = some (t.lexeme, t.kind)

/-- A scan cuts lexemes off a text until what is left of it begins with none. -/
theorem scanFrom_eq_append (position : Nat) (s : Bytes) : ∃ front rest,
    scanFrom position s = front ++ [lastToken (position + (s.length - rest.length)) rest]
      ∧ rest.length ≤ s.length ∧ ∀ t ∈ front, t.IsCut := by
  fun_induction scanFrom position s with
  | case1 position s l kind h ih =>
    obtain ⟨front, rest, heq, hle, hcut⟩ := ih
    have hl := (prefix_of_lexeme? h).length_le
    rw [List.length_drop] at heq hle
    refine ⟨⟨kind, l, position⟩ :: front, rest, ?_, by omega, ?_⟩
    · rw [heq, List.cons_append, show position + (s.length - rest.length)
        = position + l.length + (s.length - l.length - rest.length) from by omega]
    · intro t ht
      rcases List.mem_cons.mp ht with rfl | ht
      · exact ⟨s, h⟩
      · exact hcut t ht
  | case2 position s h => exact ⟨[], s, by simp, Nat.le_refl _, by simp⟩

theorem scan_eq_append (line : Bytes) : ∃ front rest,
    scan line = front ++ [lastToken (line.length - rest.length) rest]
      ∧ rest.length ≤ line.length ∧ ∀ t ∈ front, t.IsCut := by
  simpa [scan] using scanFrom_eq_append 0 line

theorem ofSymbol?_of_mem_scan {line : Bytes} {t : Token} (ht : t ∈ scan line) {op : Operator}
    (hop : t.kind = .operator op) : Operator.ofSymbol? t.lexeme = some op := by
  obtain ⟨front, rest, hscan, -, hcut⟩ := scan_eq_append line
  rw [hscan] at ht
  rcases List.mem_append.mp ht with ht | ht
  · obtain ⟨s, hs⟩ := hcut t ht
    exact ofSymbol?_of_lexeme? (hop ▸ hs)
  · rw [List.mem_singleton.mp ht, lastToken] at hop
    split at hop
    · cases hop
    · cases hop

end Abacus.Token
