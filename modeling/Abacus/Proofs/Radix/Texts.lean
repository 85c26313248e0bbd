import Abacus.Proofs.Binary64.Integers
import Abacus.Proofs.Binary64.Rounding
import Abacus.Proofs.Line.Literals
import Abacus.Proofs.Numeral
import Abacus.Proofs.Token.Lexicon

/-!
# Numbers written and read back

A number is written in a radix and read back from the text, and a decimal text gives every bit back.
-/

namespace Abacus

/-!
## Texts in the other radixes

What is written in a radix other than decimal, behind the sign, is one literal. It is in lower case,
shows the radix that it is written in, and its digits are read back as the number.
-/

namespace Radix

/-- The text of a magnitude: the mark of the radix and the digits. -/
def magnitude (radix : Radix) (n : Nat) : Bytes := radix.mark ++ Digits.ofNat radix.base n

theorem write?_of_ne_dec {radix : Radix} (hradix : radix ≠ .dec) (x : Binary64) :
    radix.write? x = (integer? x).map fun n ↦
      Decimal.sign (decide (n < 0)) ++ radix.magnitude n.natAbs := by
  cases radix with
  | dec => exact absurd rfl hradix
  | _ => simp only [write?, magnitude, List.append_assoc]

theorem base_bounds (radix : Radix) : 2 ≤ radix.base ∧ radix.base ≤ 16 := by
  cases radix with
  | dec | hex | bin | oct => decide

theorem exists_digit_of_mem (radix : Radix) {n : Nat} {b : UInt8}
    (h : b ∈ Digits.ofNat radix.base n) : ∃ d, d < radix.base ∧ b = Digits.digit d :=
  Digits.exists_digit_of_mem_ofNat radix.base_bounds.1 h

theorem lexeme_magnitude {radix : Radix} (hradix : radix ≠ .dec) (n : Nat) :
    Token.Lexeme (radix.magnitude n) .number := by
  cases radix with
  | dec => exact absurd rfl hradix
  | hex =>
    refine .hex (.inl rfl) fun b hb ↦ ?_
    obtain ⟨d, hd, rfl⟩ := exists_digit_of_mem .hex hb
    exact Digits.isHexDigit_digit hd
  | bin =>
    refine .binary (Digits.ofNat_ne_nil 2 n) fun b hb ↦ ?_
    obtain ⟨d, hd, rfl⟩ := exists_digit_of_mem .bin hb
    exact Digits.isBinaryDigit_digit hd
  | oct =>
    -- the mark of an octal number is itself a digit
    refine .whole (List.cons_ne_nil _ _) fun b hb ↦ ?_
    rcases List.mem_cons.mp hb with rfl | hb
    · decide
    · obtain ⟨d, hd, rfl⟩ := exists_digit_of_mem .oct hb
      exact Digits.isDigit_digit (Nat.lt_trans hd (by decide))

theorem lower_magnitude (radix : Radix) (n : Nat) :
    Bytes.lower (radix.magnitude n) = radix.magnitude n := by
  refine Bytes.lower_of_forall fun b hb ↦ ?_
  rcases List.mem_append.mp hb with hb | hb
  · have hall : ∀ radix : Radix, ∀ b ∈ radix.mark, Bytes.isUpper b = false := by
      intro radix
      cases radix with
      | dec | hex | bin | oct => decide +kernel
    exact hall radix b hb
  · obtain ⟨d, hd, rfl⟩ := exists_digit_of_mem radix hb
    exact Digits.isUpper_digit (Nat.lt_of_lt_of_le hd radix.base_bounds.2)

/-- A magnitude shows its radix: behind the zero of an octal number there is a digit, and no
point. -/
theorem detectUnsigned_magnitude {radix : Radix} (hradix : radix ≠ .dec) (n : Nat) :
    detectUnsigned (radix.magnitude n) = radix := by
  cases radix with
  | dec => exact absurd rfl hradix
  | hex => rfl
  | bin => rfl
  | oct =>
    obtain ⟨b, rest, hdigits⟩ := List.exists_cons_of_ne_nil (Digits.ofNat_ne_nil 8 n)
    have hclass : ∀ c ∈ b :: rest, Bytes.isDigit c = true := by
      intro c hc
      obtain ⟨d, hd, rfl⟩ := exists_digit_of_mem .oct (hdigits ▸ hc)
      exact Digits.isDigit_digit (Nat.lt_trans hd (by decide))
    have hx : ¬Bytes.lowerByte b = 'x'.toUInt8 := by
      have hb := hclass b List.mem_cons_self
      rw [Bytes.lowerByte, Bytes.isUpper_of_isDigit hb]
      rintro rfl
      exact absurd hb (by decide)
    have hpoint : '.'.toUInt8 ∉ b :: rest := fun hmem ↦ absurd (hclass _ hmem) (by decide)
    show detectUnsigned ('0'.toUInt8 :: Digits.ofNat 8 n) = .oct
    have hzero : ¬Bytes.lowerByte '0'.toUInt8 = 'b'.toUInt8 := by decide
    rw [hdigits]
    simp only [detectUnsigned, if_neg hzero, if_true, if_neg hx, if_neg hpoint]

theorem toNat?_digits?_magnitude {radix : Radix} (hradix : radix ≠ .dec) (n : Nat) :
    (radix.digits? (radix.magnitude n)).bind (Digits.toNat? radix.base) = some n := by
  have hread := Digits.toNat?_ofNat radix.base_bounds.1 radix.base_bounds.2 n
  cases radix with
  | dec => exact absurd rfl hradix
  | hex => exact hread
  | bin => exact hread
  | oct => exact (Digits.toNat?_zero_cons (by decide) (Digits.ofNat_ne_nil 8 n)).trans hread

/-!
## Whole numbers written and read back

A number is written in hexadecimal, octal or binary when its whole part has 64 bits. Then the text
is a line of one number, a minus sign included, whose value is that whole part with nothing lost,
so that it may be fed back and written in each of these radixes like the number itself.
-/

/-- The text of a whole number in a radix other than decimal. -/
def signed (radix : Radix) (n : Int) : Bytes :=
  Decimal.sign (decide (n < 0)) ++ radix.magnitude n.natAbs

theorem signed_of_neg (radix : Radix) {n : Int} (h : n < 0) :
    radix.signed n = '-'.toUInt8 :: radix.magnitude n.natAbs := by
  rw [signed, decide_eq_true h]
  rfl

theorem signed_of_not_neg (radix : Radix) {n : Int} (h : ¬n < 0) :
    radix.signed n = radix.magnitude n.natAbs := by
  rw [signed, decide_eq_false h]
  rfl

theorem lower_signed (radix : Radix) (n : Int) :
    Bytes.lower (radix.signed n) = radix.signed n := by
  by_cases hn : n < 0
  · rw [signed_of_neg radix hn, Bytes.lower, List.map_cons, ← Bytes.lower, lower_magnitude]
    rfl
  · rw [signed_of_not_neg radix hn, lower_magnitude]

theorem natAbs_le_magnitudeLimit {n : Int} (h : InRange n) :
    n.natAbs ≤ magnitudeLimit (decide (n < 0)) := by
  have h63 : Nat.pow 2 63 = 9223372036854775808 := by decide
  obtain ⟨hlower, hupper⟩ := h
  rw [h63] at hlower hupper
  by_cases hn : n < 0
  · rw [decide_eq_true hn]
    show n.natAbs ≤ Nat.pow 2 63
    omega
  · rw [decide_eq_false hn]
    show n.natAbs ≤ Nat.pow 2 63 - 1
    omega

section NotDecimal

variable {radix : Radix} (hradix : radix ≠ .dec)
include hradix

/-! ### Signs -/

theorem exists_cons_magnitude (n : Nat) :
    ∃ b rest, radix.magnitude n = b :: rest ∧ b ≠ '-'.toUInt8 := by
  obtain ⟨b, rest, heq, hb, -⟩ := Line.head_of_number (lexeme_magnitude hradix n)
  exact ⟨b, rest, heq, hb⟩

theorem splitSign_signed (n : Int) :
    splitSign (radix.signed n) = (decide (n < 0), radix.magnitude n.natAbs) :=
  splitSign_sign_append (exists_cons_magnitude hradix _) _

theorem detect_magnitude (n : Nat) : detect (radix.magnitude n) = radix := by
  obtain ⟨b, rest, heq, hb⟩ := exists_cons_magnitude hradix n
  rw [detect, heq, splitSign_of_ne hb, ← heq, detectUnsigned_magnitude hradix]

theorem detect_signed (n : Int) : detect (radix.signed n) = radix := by
  rw [detect, splitSign_signed hradix, detectUnsigned_magnitude hradix]

/-! ### Reading back -/

/-- A text of a whole number is a literal of the radix it is written in. -/
theorem literal_signed (n : Int) :
    Line.Literal ⟨radix.signed n, radix, lower_signed radix n⟩ := by
  have hlexeme := lexeme_magnitude hradix n.natAbs
  have hlower := lower_signed radix n
  rw [← Numeral.ofRadix_of_lower hlower]
  by_cases hn : n < 0
  · have hliteral := Line.Literal.negated hlexeme
    rwa [Numeral.negated, detect_magnitude hradix, ← signed_of_neg radix hn] at hliteral
  · have hliteral := Line.Literal.plain hlexeme
    rwa [Numeral.ofText, detect_magnitude hradix, ← signed_of_not_neg radix hn] at hliteral

theorem read_signed (n : Int) :
    Line.read (radix.signed n)
      = ⟨[⟨.number ⟨radix.signed n, radix, lower_signed radix n⟩, 0⟩,
          ⟨.endOfLine, (radix.signed n).length⟩], none⟩ :=
  Line.read_of_literal (literal_signed hradix n)

theorem read?_signed {n : Int} (h : InRange n) :
    radix.read? (radix.signed n) = some (.ofInt n) := by
  obtain ⟨digits, hdigits, hmagnitude⟩ :=
    Option.bind_eq_some_iff.mp (toNat?_digits?_magnitude hradix n.natAbs)
  have hinteger : readInteger? radix (radix.signed n) = some (decide (n < 0), n.natAbs) := by
    simp [readInteger?, splitSign_signed hradix, hdigits, hmagnitude, natAbs_le_magnitudeLimit h]
  rw [read?_of_ne_dec hradix, hinteger]
  rfl

/-! ### Numbers -/

theorem write?_eq_map_signed (x : Binary64) : radix.write? x = (integer? x).map radix.signed :=
  write?_of_ne_dec hradix x

/-- What is written depends on the whole part alone. -/
theorem write?_congr {x y : Binary64} (h : x.truncate = y.truncate) :
    radix.write? x = radix.write? y := by
  rw [write?_eq_map_signed hradix, write?_eq_map_signed hradix, integer?, integer?, h]

end NotDecimal

/-- **Whole numbers survive being written.** A number whose whole part has 64 bits is written in
hexadecimal, octal and binary as a text that is a line of one number in that radix. The value of
that number is the whole part, and it is written in each of these radixes like the number that it
comes from. All other numbers are written in none of them. -/
theorem write?_roundTrip {radix : Radix} (hradix : radix ≠ .dec) (x : Binary64) :
    (∀ n, x.truncate = some n → InRange n → ∃ text numeral y h,
      radix.write? x = some text
      ∧ Line.read text = ⟨[⟨.number numeral, 0⟩, ⟨.endOfLine, text.length⟩], none⟩
      ∧ numeral.text = text ∧ numeral.radix = radix ∧ detect text = radix
      ∧ numeral.number? = some y ∧ y = .finite (decide (n < 0)) (n.natAbs * Quanta.one) h
      ∧ ∀ other, other ≠ dec → other.write? y = other.write? x)
    ∧ ((∀ n, x.truncate = some n → ¬InRange n) → radix.write? x = none) := by
  constructor
  · intro n hn hrange
    have hrepresentable := Binary64.representable_of_truncate hn
    have hinteger : integer? x = some n := by
      rw [integer?, hn]
      exact Option.filter_some_pos (decide_eq_true hrange)
    refine ⟨radix.signed n, _, .ofInt n, hrepresentable, ?_, read_signed hradix n, rfl, rfl,
      detect_signed hradix n, read?_signed hradix hrange,
      Binary64.ofInt_eq_finite hrepresentable, ?_⟩
    · rw [write?_eq_map_signed hradix, hinteger]
      rfl
    · intro other hother
      exact write?_congr hother ((Binary64.truncate_ofInt hrepresentable).trans hn.symm)
  · intro hout
    rw [write?_eq_map_signed hradix, integer?]
    cases htruncate : x.truncate with
    | none => rfl
    | some n =>
      rw [Option.filter_some_neg (by simpa using hout n htruncate)]
      rfl

/-- A negative number in hexadecimal, which is then asked for in octal. -/
theorem write?_roundTrip_hex :
    let x := Binary64.ofInt (-255)
    hex ≠ .dec ∧ x.truncate = some (-255) ∧ InRange (-255)
      ∧ ∃ numeral y h, hex.write? x = some (utf8 "-0xff")
        ∧ Line.read (utf8 "-0xff") = ⟨[⟨.number numeral, 0⟩, ⟨.endOfLine, 5⟩], none⟩
        ∧ numeral.number? = some y ∧ y = .finite true (255 * Quanta.one) h
        ∧ oct.write? y = some (utf8 "-0377") := by
  intro x
  have hhex : hex ≠ .dec := by decide
  have htruncate : x.truncate = some (-255) := by decide +kernel
  have hrange : InRange (-255) := by decide
  have htext : hex.write? x = some (utf8 "-0xff") := by decide +kernel
  have hother : oct.write? x = some (utf8 "-0377") := by decide +kernel
  obtain ⟨text, numeral, y, h, hwrite, hread, -, -, -, hnumber, hy, hothers⟩ :=
    (write?_roundTrip hhex x).1 (-255) htruncate hrange
  obtain rfl : utf8 "-0xff" = text := Option.some.inj (htext.symm.trans hwrite)
  exact ⟨hhex, htruncate, hrange, numeral, y, h, htext, hread, hnumber, hy,
    (hothers oct (by decide)).trans hother⟩

/-- There is one more negative whole number of 64 bits than there are positive ones. -/
example : hex.write? (.ofInt (-9223372036854775808)) = some (utf8 "-0x8000000000000000")
    ∧ hex.write? (.ofInt 9223372036854775808) = none := by decide +kernel

end Radix

/-!
## Bit patterns through decimal texts

Between two operators a number is nothing but its decimal text. That text gives every pattern of
bits back, the sign of a zero included, and is a line of its own as long as the number is finite.
-/

namespace Decimal

/-- **A number passed on as text keeps every bit.** The text of any number but a NaN shows the
decimal radix, has no letter in upper case and is read as the same pattern of bits. The text of a
finite number is moreover read as a line, which is that one number. -/
theorem write_roundTrip {bits : UInt64} (hbits : Binary64.ofBits bits ≠ .nan) :
    let text := write (.ofBits bits)
    Radix.detect text = .dec ∧ Bytes.lower text = text
      ∧ (∃ x, Radix.dec.read? text = some x ∧ x.toBits = bits)
      ∧ ((Binary64.ofBits bits).toRat? ≠ none → ∃ numeral,
        Line.read text = ⟨[⟨.number numeral, 0⟩, ⟨.endOfLine, text.length⟩], none⟩
        ∧ numeral.radix = .dec ∧ numeral.text = text) := by
  intro text
  refine ⟨detect_write _, lower_write _, ?_, ?_⟩
  · exact ⟨_, read?_write _, Binary64.toBits_ofBits hbits⟩
  · intro hfinite
    have hliteral : Line.Literal (.ofNumber (.ofBits bits)) := by
      cases hx : Binary64.ofBits bits with
      | nan => exact absurd hx hbits
      | infinite negative =>
        rw [hx] at hfinite
        exact absurd rfl hfinite
      | finite negative n hn => exact Numeral.literal_ofNumber negative n hn
    have htext : (Numeral.ofNumber (.ofBits bits)).text = text := Numeral.text_ofNumber _
    refine ⟨_, ?_, rfl, htext⟩
    rw [← htext]
    exact Line.read_of_literal hliteral

/-- The negative zero keeps its sign, and the zero of its text is no mark of octal. -/
theorem write_roundTrip_negative_zero :
    Binary64.ofBits 0x8000000000000000 ≠ .nan
      ∧ write (.ofBits 0x8000000000000000) = utf8 "-0" ∧ Radix.detect (utf8 "-0") = .dec
      ∧ ∃ x, Radix.dec.read? (utf8 "-0") = some x ∧ x.toBits = 0x8000000000000000 := by
  have hbits : Binary64.ofBits 0x8000000000000000 ≠ .nan := by decide +kernel
  have htext : write (.ofBits 0x8000000000000000) = utf8 "-0" := by decide +kernel
  obtain ⟨hradix, -, hread, -⟩ := write_roundTrip hbits
  rw [htext] at hradix hread
  exact ⟨hbits, htext, hradix, hread⟩

end Decimal

end Abacus
