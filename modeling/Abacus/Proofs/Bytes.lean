import Abacus.Bytes

/-!
# Byte strings

Facts about bytes, characters and digits that everything else is read and written with.
-/

namespace Abacus

/-!
## Classes of bytes

The character classes are told apart: a letter is neither a blank nor a digit, and no word goes on
with a digit. There are only 256 bytes, so each of these facts is checked byte by byte. A text in
lower case differs from the text at its letters alone. A text is cut at its first NUL byte, so one
without this byte is kept. Texts that are joined have a separator behind each but the last.
-/

namespace Bytes

/-- What holds of each of the 256 bytes holds of every byte. -/
private theorem forall_byte {p : UInt8 → Prop} (h : ∀ n : Fin 256, p (.ofFin n)) (b : UInt8) :
    p b := h b.toFin

private theorem classes : ∀ b : UInt8,
    (isLetter b = true → isBlank b = false ∧ isDigit b = false)
      ∧ (isDigit b = true → isBlank b = false ∧ isUpper b = false)
      ∧ (isBinaryDigit b = true → isWordByte b = false ∧ isUpper b = false)
      ∧ (isHexDigit b = true → isHexDigit (lowerByte b) = true) :=
  forall_byte (by decide +kernel)

variable {b : UInt8}

theorem isBlank_of_isLetter (h : isLetter b = true) : isBlank b = false := ((classes b).1 h).1

theorem isDigit_of_isLetter (h : isLetter b = true) : isDigit b = false := ((classes b).1 h).2

theorem isBlank_of_isDigit (h : isDigit b = true) : isBlank b = false := ((classes b).2.1 h).1

theorem isUpper_of_isDigit (h : isDigit b = true) : isUpper b = false := ((classes b).2.1 h).2

theorem lowerByte_ne_of_isDigit {c : UInt8} (hb : isDigit b = true) (hc : isDigit c = false) :
    lowerByte b ≠ c ∧ b ≠ c := by
  have hne : b ≠ c := by
    rintro rfl
    rw [hb] at hc
    cases hc
  rw [lowerByte, isUpper_of_isDigit hb]
  exact ⟨hne, hne⟩

theorem isWordByte_of_isBinaryDigit (h : isBinaryDigit b = true) : isWordByte b = false :=
  ((classes b).2.2.1 h).1

theorem isUpper_of_isBinaryDigit (h : isBinaryDigit b = true) : isUpper b = false :=
  ((classes b).2.2.1 h).2

theorem isHexDigit_lowerByte (h : isHexDigit b = true) : isHexDigit (lowerByte b) = true :=
  (classes b).2.2.2 h

/-! ### Case -/

theorem lower_of_forall {s : Bytes} (h : ∀ b ∈ s, isUpper b = false) : lower s = s := by
  refine (List.map_congr_left fun b hb ↦ ?_).trans (List.map_id s)
  rw [lowerByte, h b hb]
  rfl

theorem lowerByte_eq_iff {b c : UInt8} (hc : c.toNat < 65) : lowerByte b = c ↔ b = c := by
  unfold lowerByte
  split
  · next hupper =>
    have hb := (isUpper_iff b).mp hupper
    have h32 : (32 : UInt8).toNat = 32 := rfl
    refine ⟨fun h ↦ ?_, fun h ↦ ?_⟩
    · have hsum := congrArg UInt8.toNat h
      rw [UInt8.toNat_add, h32] at hsum
      omega
    · subst h
      omega
  · exact Iff.rfl

theorem lowerByte_eq_x_iff (b : UInt8) :
    lowerByte b = 'x'.toUInt8 ↔ b = 'x'.toUInt8 ∨ b = 'X'.toUInt8 := by
  have hall : ∀ b : UInt8, lowerByte b = 'x'.toUInt8 ↔ b = 'x'.toUInt8 ∨ b = 'X'.toUInt8 :=
    forall_byte (by decide +kernel)
  exact hall b

theorem mem_lower_iff {s : Bytes} {c : UInt8} (hc : c.toNat < 65) : c ∈ lower s ↔ c ∈ s := by
  simp only [lower, List.mem_map, lowerByte_eq_iff hc, exists_eq_right]

/-! ### Texts without a NUL byte -/

theorem untilNul_append {s : Bytes} (h : 0 ∉ s) (t : Bytes) :
    untilNul (s ++ t) = s ++ untilNul t := by
  refine List.takeWhile_append_of_pos fun b hb ↦ ?_
  rw [decide_eq_true_iff]
  rintro rfl
  exact h hb

theorem untilNul_of_not_mem {s : Bytes} (h : 0 ∉ s) : untilNul s = s := by
  have hs := untilNul_append h []
  rwa [List.append_nil, show untilNul [] = [] from rfl, List.append_nil] at hs

/-! ### Joined texts -/

/-- With a separator behind the last text too, each text has one behind it. -/
theorem joinWith_append_separator (separator : Bytes) {ls : List Bytes} (h : ls ≠ []) :
    joinWith separator ls ++ separator = ls.flatMap (· ++ separator) := by
  induction ls with
  | nil => exact absurd rfl h
  | cons l ls ih =>
    by_cases hls : ls = []
    · simp [hls, joinWith]
    · rw [joinWith.eq_3 _ _ _ (by simpa using hls), List.append_assoc, ih hls, List.flatMap_cons]

/-! ### Lines -/

theorem lines_append_newline {l : Bytes} (h : '\n'.toUInt8 ∉ l) (rest : Bytes) :
    lines (l ++ '\n'.toUInt8 :: rest) = l :: lines rest := by
  induction l with
  | nil => rfl
  | cons b l ih =>
    obtain ⟨hb, hl⟩ := not_or.mp (mt List.mem_cons.mpr h)
    rw [List.cons_append, lines, if_neg (Ne.symm hb), ih hl]
    rfl

/-- Lines that each end at a line feed are found again. -/
theorem lines_flatMap {ls : List Bytes} (h : ∀ l ∈ ls, '\n'.toUInt8 ∉ l) :
    lines (ls.flatMap (· ++ utf8 "\n")) = ls := by
  induction ls with
  | nil => rfl
  | cons l ls ih =>
    have hrest := ih fun l' hl' ↦ h l' (List.mem_cons_of_mem l hl')
    rw [List.flatMap_cons, List.append_assoc]
    exact (lines_append_newline (h l List.mem_cons_self) _).trans (congrArg (l :: ·) hrest)

/-- The lines of a text are its pieces between line feeds, but for the empty piece behind a line
feed at its end. -/
theorem splitOn_eq_lines (s : Bytes) :
    s.splitOn '\n'.toUInt8 = lines s ∨ s.splitOn '\n'.toUInt8 = lines s ++ [[]] := by
  induction s with
  | nil => exact .inr rfl
  | cons b s ih =>
    rw [List.splitOn] at ih
    rw [List.splitOn, List.splitOnP_cons_eq_if_modifyHead, lines]
    by_cases hb : b = '\n'.toUInt8
    · rw [if_pos hb, if_pos (beq_iff_eq.mpr hb)]
      exact ih.imp (congrArg ([] :: ·)) (congrArg ([] :: ·))
    · rw [if_neg hb, if_neg (mt beq_iff_eq.mp hb)]
      rcases ih with ih | ih
      · obtain ⟨l, ls, heq⟩ :=
          List.exists_cons_of_ne_nil (ih ▸ List.splitOnP_ne_nil _ s : lines s ≠ [])
        rw [ih, heq]
        exact .inl rfl
      · -- the first piece is the empty one behind the last line feed if there are no lines
        rw [ih]
        rcases lines s with _ | ⟨l, ls⟩
        · exact .inl rfl
        · exact .inr rfl

/-!
## Characters

A text is its characters, each encoded in one to four bytes, the first of which says how many they
are (`exists_utf8EncodeChar`). A byte below 128 is a character of its own, so a text can be taken
apart behind such bytes (`exists_split`). Each character takes one column (`columns_utf8`).
-/

/-- A byte that is a character of its own. -/
def IsAscii (b : UInt8) : Prop := b.toNat < 128

instance (b : UInt8) : Decidable (IsAscii b) := inferInstanceAs (Decidable (_ < _))

/-- A byte that is a character of its own and can be seen, or is a space. -/
def IsPrintable (b : UInt8) : Prop := 32 ≤ b.toNat ∧ b.toNat < 127

instance (b : UInt8) : Decidable (IsPrintable b) := inferInstanceAs (Decidable (_ ∧ _))

theorem IsPrintable.isAscii {b : UInt8} (h : IsPrintable b) : IsAscii b := Nat.lt_succ_of_lt h.2

private theorem leadLength_eq : ∀ b : UInt8, (b.toNat < 128 → leadLength b = 1)
    ∧ (192 ≤ b.toNat ∧ b.toNat < 224 → leadLength b = 2)
    ∧ (224 ≤ b.toNat ∧ b.toNat < 240 → leadLength b = 3)
    ∧ (240 ≤ b.toNat ∧ b.toNat < 248 → leadLength b = 4) := by
  have hall : ∀ n : Fin 256, ((n : Nat) < 128 → leadLength (.ofFin n) = 1)
      ∧ (192 ≤ (n : Nat) ∧ (n : Nat) < 224 → leadLength (.ofFin n) = 2)
      ∧ (224 ≤ (n : Nat) ∧ (n : Nat) < 240 → leadLength (.ofFin n) = 3)
      ∧ (240 ≤ (n : Nat) ∧ (n : Nat) < 248 → leadLength (.ofFin n) = 4) := by
    decide +kernel
  exact fun b ↦ hall b.toFin

/-- The first byte of a character says how many bytes it has. -/
theorem exists_utf8EncodeChar (c : Char) : ∃ b rest, String.utf8EncodeChar c = b :: rest
    ∧ leadLength b = rest.length + 1 ∧ (IsAscii b → rest = []) := by
  unfold String.utf8EncodeChar
  dsimp only
  split
  · refine ⟨_, [], rfl, (leadLength_eq _).1 ?_, fun _ ↦ rfl⟩
    rw [UInt8.toNat_ofNat']
    omega
  split
  · refine ⟨_, _, rfl, (leadLength_eq _).2.1 ?_, fun h ↦ ?_⟩
    · rw [UInt8.toNat_ofNat']
      omega
    · rw [IsAscii, UInt8.toNat_ofNat'] at h
      omega
  split
  · refine ⟨_, _, rfl, (leadLength_eq _).2.2.1 ?_, fun h ↦ ?_⟩
    · rw [UInt8.toNat_ofNat']
      omega
    · rw [IsAscii, UInt8.toNat_ofNat'] at h
      omega
  · refine ⟨_, _, rfl, (leadLength_eq _).2.2.2 ?_, fun h ↦ ?_⟩
    · rw [UInt8.toNat_ofNat']
      omega
    · rw [IsAscii, UInt8.toNat_ofNat'] at h
      omega

theorem utf8_eq_flatMap (s : String) : utf8 s = s.toList.flatMap String.utf8EncodeChar := by
  rw [utf8, String.toUTF8_eq_toByteArray, ← String.utf8Encode_toList, List.utf8Encode]
  simp

/-- A text can be taken apart behind bytes that are characters of their own. -/
theorem exists_split {u rest : Bytes} {cs : List Char} (hu : ∀ b ∈ u, IsAscii b)
    (h : u ++ rest = cs.flatMap String.utf8EncodeChar) : ∃ before after, cs = before ++ after
      ∧ u = before.flatMap String.utf8EncodeChar ∧ rest = after.flatMap String.utf8EncodeChar := by
  induction u generalizing cs with
  | nil => exact ⟨[], cs, rfl, rfl, h⟩
  | cons b u ih =>
    rcases cs with _ | ⟨c, cs⟩
    · cases h
    obtain ⟨b', tail, hc, -, htail⟩ := exists_utf8EncodeChar c
    rw [List.flatMap_cons, hc, List.cons_append, List.cons_append] at h
    obtain ⟨rfl, hrest⟩ := List.cons.inj h
    obtain rfl := htail (hu b List.mem_cons_self)
    obtain ⟨before, after, rfl, rfl, rfl⟩ :=
      ih (fun b hb ↦ hu b (List.mem_cons_of_mem _ hb)) hrest
    exact ⟨c :: before, after, rfl, by rw [List.flatMap_cons, hc]; rfl, rfl⟩

/-! ### Columns -/

private theorem isContinuation_eq : ∀ b : UInt8,
    isContinuation b = decide (128 ≤ b.toNat ∧ b.toNat < 192) := by
  have hall : ∀ n : Fin 256, isContinuation (.ofFin n)
      = decide (128 ≤ (n : Nat) ∧ (n : Nat) < 192) := by
    decide +kernel
  exact fun b ↦ hall b.toFin

theorem columns_of_isAscii {s : Bytes} (h : ∀ b ∈ s, IsAscii b) : columns s = s.length := by
  refine List.countP_eq_length.mpr fun b hb ↦ ?_
  have hlt : b.toNat < 128 := h b hb
  rw [isContinuation_eq, decide_eq_false (by omega)]
  rfl

private theorem isContinuation_of_lead {n : Nat} (h : n < 128 ∨ 192 ≤ n) (hn : n < 256) :
    isContinuation (.ofNat n) = false := by
  rw [isContinuation_eq, UInt8.toNat_ofNat', Nat.mod_eq_of_lt hn]
  exact decide_eq_false (by omega)

private theorem isContinuation_of_trail {n : Nat} (h : 128 ≤ n) (hn : n < 192) :
    isContinuation (.ofNat n) = true := by
  rw [isContinuation_eq, UInt8.toNat_ofNat', Nat.mod_eq_of_lt (by omega)]
  exact decide_eq_true ⟨h, hn⟩

private theorem columns_lead_cons {n : Nat} (h : n < 128 ∨ 192 ≤ n) (hn : n < 256) (s : Bytes) :
    columns (.ofNat n :: s) = columns s + 1 := by
  rw [columns, List.countP_cons_of_pos (by simp [isContinuation_of_lead h hn]), columns]

private theorem columns_trail_cons {n : Nat} (h : 128 ≤ n) (hn : n < 192) (s : Bytes) :
    columns (.ofNat n :: s) = columns s := by
  rw [columns, List.countP_cons_of_neg (by simp [isContinuation_of_trail h hn]), columns]

theorem columns_utf8EncodeChar (c : Char) : columns (String.utf8EncodeChar c) = 1 := by
  unfold String.utf8EncodeChar
  dsimp only
  generalize c.val.toNat = n
  -- the first byte is none that continues a character, and all others are
  split
  · rw [columns_lead_cons (by omega) (by omega)]
    rfl
  split
  · rw [columns_lead_cons (by omega) (by omega), columns_trail_cons (by omega) (by omega)]
    rfl
  split
  · rw [columns_lead_cons (by omega) (by omega), columns_trail_cons (by omega) (by omega),
      columns_trail_cons (by omega) (by omega)]
    rfl
  · rw [columns_lead_cons (by omega) (by omega), columns_trail_cons (by omega) (by omega),
      columns_trail_cons (by omega) (by omega), columns_trail_cons (by omega) (by omega)]
    rfl

/-- A text takes as many columns as it has characters. -/
theorem columns_utf8 (s : String) : columns (utf8 s) = s.length := by
  have hcolumns : columns ∘ String.utf8EncodeChar = fun _ ↦ 1 := funext columns_utf8EncodeChar
  rw [utf8_eq_flatMap, columns, List.countP_flatMap]
  show (s.toList.map (columns ∘ String.utf8EncodeChar)).sum = s.length
  rw [hcolumns, List.map_const', List.sum_replicate_nat, String.length_toList, Nat.mul_one]

end Bytes

/-!
## Digits read back

Reading the digits of a number gives the number, with and without a fixed width.
-/

namespace Digits

/-! ### Single digits -/

theorem value?_digit {d : Nat} (h : d < 16) : value? (digit d) = some d := by
  have hall : ∀ d : Fin 16, value? (digit d) = some d.val := by decide
  exact hall ⟨d, h⟩

theorem isDigit_digit {d : Nat} (h : d < 10) : Bytes.isDigit (digit d) = true := by
  have hall : ∀ d : Fin 10, Bytes.isDigit (digit d) = true := by decide
  exact hall ⟨d, h⟩

theorem isBinaryDigit_digit {d : Nat} (h : d < 2) : Bytes.isBinaryDigit (digit d) = true := by
  have hall : ∀ d : Fin 2, Bytes.isBinaryDigit (digit d) = true := by decide
  exact hall ⟨d, h⟩

theorem isHexDigit_digit {d : Nat} (h : d < 16) : Bytes.isHexDigit (digit d) = true := by
  have hall : ∀ d : Fin 16, Bytes.isHexDigit (digit d) = true := by decide
  exact hall ⟨d, h⟩

theorem isUpper_digit {d : Nat} (h : d < 16) : Bytes.isUpper (digit d) = false := by
  have hall : ∀ d : Fin 16, Bytes.isUpper (digit d) = false := by decide
  exact hall ⟨d, h⟩

/-! ### Reading -/

theorem continueNat?_append (base acc : Nat) (s t : Bytes) :
    continueNat? base acc (s ++ t)
      = (continueNat? base acc s).bind fun acc ↦ continueNat? base acc t := by
  induction s generalizing acc with
  | nil => rfl
  | cons b s ih =>
    simp only [List.cons_append, continueNat?]
    cases value? b with
    | none => rfl
    | some d =>
      dsimp only
      split
      · exact ih _
      · rfl

theorem continueNat?_digit {base d : Nat} (hbase : base ≤ 16) (h : d < base) (acc : Nat) :
    continueNat? base acc [digit d] = some (acc * base + d) := by
  simp [continueNat?, value?_digit (Nat.lt_of_lt_of_le h hbase), h]

theorem toNat?_eq_continueNat? {base : Nat} {s : Bytes} (h : s ≠ []) :
    toNat? base s = continueNat? base 0 s := by
  rw [toNat?, if_neg (by simpa using h)]

/-! ### Numbers without leading zeros -/

theorem ofNat_of_lt {base n : Nat} (h : n < base) : ofNat base n = [digit n] := by
  rw [ofNat, if_pos (.inr h)]

theorem ofNat_of_le {base n : Nat} (hbase : 2 ≤ base) (h : base ≤ n) :
    ofNat base n = ofNat base (n / base) ++ [digit (n % base)] := by
  rw [ofNat, if_neg (by omega)]

theorem ofNat_ne_nil (base n : Nat) : ofNat base n ≠ [] := by
  rw [ofNat]
  split
  · exact List.cons_ne_nil _ _
  · exact List.append_ne_nil_of_right_ne_nil _ (List.cons_ne_nil _ _)

theorem continueNat?_ofNat {base : Nat} (h2 : 2 ≤ base) (h16 : base ≤ 16) (n : Nat) :
    continueNat? base 0 (ofNat base n) = some n := by
  induction n using Nat.strongRecOn with
  | ind n ih =>
    by_cases hlt : n < base
    · rw [ofNat_of_lt hlt, continueNat?_digit h16 hlt, Nat.zero_mul, Nat.zero_add]
    · have hdiv : n / base < n := Nat.div_lt_self (by omega) (by omega)
      have hmod : n % base < base := Nat.mod_lt n (by omega)
      rw [ofNat_of_le h2 (Nat.le_of_not_lt hlt), continueNat?_append, ih _ hdiv]
      show continueNat? base (n / base) [digit (n % base)] = some n
      rw [continueNat?_digit h16 hmod, Nat.mul_comm, Nat.div_add_mod]

theorem toNat?_ofNat {base : Nat} (h2 : 2 ≤ base) (h16 : base ≤ 16) (n : Nat) :
    toNat? base (ofNat base n) = some n := by
  rw [toNat?_eq_continueNat? (ofNat_ne_nil base n), continueNat?_ofNat h2 h16]

theorem exists_digit_of_mem_ofNat {base n : Nat} (hbase : 2 ≤ base) {b : UInt8}
    (h : b ∈ ofNat base n) : ∃ d, d < base ∧ b = digit d := by
  induction n using Nat.strongRecOn with
  | ind n ih =>
    by_cases hlt : n < base
    · rw [ofNat_of_lt hlt] at h
      exact ⟨n, hlt, List.mem_singleton.mp h⟩
    · rw [ofNat_of_le hbase (Nat.le_of_not_lt hlt)] at h
      rcases List.mem_append.mp h with h | h
      · exact ih _ (Nat.div_lt_self (by omega) (by omega)) h
      · exact ⟨n % base, Nat.mod_lt n (by omega), List.mem_singleton.mp h⟩

theorem isDigit_of_mem_ofNat {n : Nat} {b : UInt8} (h : b ∈ ofNat 10 n) :
    Bytes.isDigit b = true := by
  obtain ⟨d, hd, rfl⟩ := exists_digit_of_mem_ofNat (by decide) h
  exact isDigit_digit hd

theorem toNat?_zero_cons {base : Nat} (hbase : 0 < base) {s : Bytes} (h : s ≠ []) :
    toNat? base ('0'.toUInt8 :: s) = toNat? base s := by
  have hzero : value? '0'.toUInt8 = some 0 := by decide
  rw [toNat?_eq_continueNat? (List.cons_ne_nil _ _), toNat?_eq_continueNat? h, continueNat?, hzero]
  show (if 0 < base then continueNat? base (0 * base + 0) s else none) = _
  rw [if_pos hbase, Nat.zero_mul]

/-- The first digit is zero for zero alone. -/
theorem exists_head_ofNat {n : Nat} (h : 0 < n) :
    ∃ d rest, 0 < d ∧ d < 10 ∧ ofNat 10 n = digit d :: rest := by
  induction n using Nat.strongRecOn with
  | ind n ih =>
    by_cases hlt : n < 10
    · exact ⟨n, [], h, hlt, ofNat_of_lt hlt⟩
    · obtain ⟨d, rest, hd, hd', heq⟩ := ih (n / 10) (Nat.div_lt_self h (by decide)) (by omega)
      exact ⟨d, rest ++ [digit (n % 10)], hd, hd', by
        rw [ofNat_of_le (by decide) (Nat.le_of_not_lt hlt), heq, List.cons_append]⟩

theorem utf8_toString (n : Nat) : utf8 (toString n) = ofNat 10 n := by
  have hdigit : ∀ d : Fin 10, String.utf8EncodeChar (Nat.digitChar d) = [digit d] := by decide
  rw [Bytes.utf8_eq_flatMap, Nat.toString_eq_repr, Nat.toList_repr]
  induction n using Nat.strongRecOn with
  | ind n ih =>
    by_cases hlt : n < 10
    · rw [Nat.toDigits_of_lt_base hlt, ofNat_of_lt hlt, List.flatMap_singleton]
      exact hdigit ⟨n, hlt⟩
    · have hle := Nat.le_of_not_lt hlt
      rw [Nat.toDigits_of_base_le (by decide) hle, ofNat_of_le (by decide) hle,
        List.flatMap_append, List.flatMap_singleton, ih _ (Nat.div_lt_self (by omega) (by decide))]
      exact congrArg (_ ++ ·) (hdigit ⟨n % 10, Nat.mod_lt n (by decide)⟩)

/-! ### Numbers of a fixed width -/

@[simp] theorem length_fixedWidth (width n : Nat) : (fixedWidth width n).length = width := by
  induction width generalizing n with
  | zero => rfl
  | succ width ih => simp [fixedWidth, ih]

theorem isDigit_of_mem_fixedWidth {width n : Nat} {b : UInt8} (h : b ∈ fixedWidth width n) :
    Bytes.isDigit b = true := by
  induction width generalizing n with
  | zero => cases h
  | succ width ih =>
    rcases List.mem_append.mp h with h | h
    · exact ih h
    · rw [List.mem_singleton.mp h]
      exact isDigit_digit (Nat.mod_lt n (by decide))

/-- Reading goes on with the last places of the number. -/
theorem continueNat?_fixedWidth (acc width n : Nat) :
    continueNat? 10 acc (fixedWidth width n)
      = some (acc * Nat.pow 10 width + n % Nat.pow 10 width) := by
  induction width generalizing n with
  | zero => simp [fixedWidth, continueNat?, Nat.mod_one]
  | succ width ih =>
    -- the last digit is read last, so the induction hypothesis is about the number without it
    have hpow : Nat.pow 10 (width + 1) = 10 * Nat.pow 10 width := Nat.mul_comm _ _
    rw [fixedWidth, continueNat?_append, ih]
    show continueNat? 10 _ [digit (n % 10)] = _
    rw [continueNat?_digit (by decide) (Nat.mod_lt n (by decide)), hpow, Nat.mod_mul,
      Nat.mul_left_comm]
    congr 1
    omega

end Digits

end Abacus
