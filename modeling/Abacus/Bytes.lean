/-!
# Byte strings and digits

The texts of the calculator, and the whole numbers that are written in them.
-/

namespace Abacus

/-!
## Byte strings

Every text the calculator reads or prints is a list of bytes, and every position is a byte
offset. The character classes below are ASCII classes: a byte of a longer UTF-8 sequence belongs
to none of them. UTF-8 matters in two places only, namely how many bytes a stray character takes
(`leadLength`) and how many columns a line takes on a terminal (`columns`).
-/

/-- A line, a name, a message, the contents of a file. -/
abbrev Bytes := List UInt8

/-- The UTF-8 bytes of a literal text. -/
def utf8 (s : String) : Bytes := s.toUTF8.data.toList

namespace Bytes

/-! ### Character classes -/

/-- Space, tab, carriage return, line feed. -/
def isBlank (b : UInt8) : Bool :=
  b == ' '.toUInt8 || b == '\t'.toUInt8 || b == '\r'.toUInt8 || b == '\n'.toUInt8

/-- A decimal digit. -/
def isDigit (b : UInt8) : Bool := '0'.toUInt8 ≤ b && b ≤ '9'.toUInt8

/-- A binary digit. -/
def isBinaryDigit (b : UInt8) : Bool := b == '0'.toUInt8 || b == '1'.toUInt8

/-- An upper-case ASCII letter. -/
def isUpper (b : UInt8) : Bool := 'A'.toUInt8 ≤ b && b ≤ 'Z'.toUInt8

/-- A lower-case ASCII letter. -/
def isLower (b : UInt8) : Bool := 'a'.toUInt8 ≤ b && b ≤ 'z'.toUInt8

/-- An ASCII letter. -/
def isLetter (b : UInt8) : Bool := isUpper b || isLower b

/-- A byte that continues a word: a letter or an underscore. -/
def isWordByte (b : UInt8) : Bool := isLetter b || b == '_'.toUInt8

/-- A hexadecimal digit of either case. -/
def isHexDigit (b : UInt8) : Bool :=
  isDigit b || ('a'.toUInt8 ≤ b && b ≤ 'f'.toUInt8) || ('A'.toUInt8 ≤ b && b ≤ 'F'.toUInt8)

/-! ### Case and blanks -/

/-- The lower-case form of an ASCII letter; every other byte is itself. -/
def lowerByte (b : UInt8) : UInt8 := if isUpper b then b + 32 else b

/-- ASCII letters in lower case, all other bytes as they are. -/
def lower (s : Bytes) : Bytes := s.map lowerByte

theorem isUpper_iff (b : UInt8) : isUpper b = true ↔ 65 ≤ b.toNat ∧ b.toNat ≤ 90 := by
  have hA : 'A'.toUInt8.toNat = 65 := rfl
  have hZ : 'Z'.toUInt8.toNat = 90 := rfl
  rw [isUpper, Bool.and_eq_true, decide_eq_true_iff, decide_eq_true_iff, UInt8.le_iff_toNat_le,
    UInt8.le_iff_toNat_le, hA, hZ]

theorem lowerByte_lowerByte (b : UInt8) : lowerByte (lowerByte b) = lowerByte b := by
  by_cases h : isUpper b = true
  · have hnot : ¬isUpper (b + 32) = true := by
      have hb := (isUpper_iff b).mp h
      have h32 : (32 : UInt8).toNat = 32 := rfl
      rw [isUpper_iff, UInt8.toNat_add, h32]
      omega
    rw [lowerByte, lowerByte, if_pos h, if_neg hnot]
  · rw [lowerByte, lowerByte, if_neg h, if_neg h]

@[simp] theorem lower_lower (s : Bytes) : lower (lower s) = lower s := by
  simp [lower, lowerByte_lowerByte]

/-- The text without the blanks at its two ends. -/
def trim (s : Bytes) : Bytes := ((s.dropWhile isBlank).reverse.dropWhile isBlank).reverse

/-- The text before its first NUL byte. -/
def untilNul (s : Bytes) : Bytes := s.takeWhile (· ≠ 0)

/-- Texts with one separator between neighbours. -/
def joinWith (separator : Bytes) : List Bytes → Bytes
  | [] => []
  | [s] => s
  | s :: rest => s ++ separator ++ joinWith separator rest

/-- One more byte in front of the first of some texts. -/
def consHead (b : UInt8) : List Bytes → List Bytes
  | [] => [[b]]
  | l :: ls => (b :: l) :: ls

/-- The lines of a text: each ends at a line feed, and a last line without one counts too. -/
def lines : Bytes → List Bytes
  | [] => []
  | b :: rest => if b = '\n'.toUInt8 then [] :: lines rest else consHead b (lines rest)

/-! ### Quotation marks -/

/-- The quotation mark. -/
def quote : UInt8 := '"'.toUInt8

/-- The backslash. -/
def backslash : UInt8 := '\\'.toUInt8

/-- A text in quotation marks, with a backslash before each of its own quotation marks and
backslashes. -/
def quoted (s : Bytes) : Bytes :=
  quote :: s.flatMap (fun b ↦ if b = quote ∨ b = backslash then [backslash, b] else [b]) ++ [quote]

/-! ### UTF-8 -/

/-- The length in bytes of the UTF-8 sequence that a byte leads; `1` for a byte that leads none. -/
def leadLength (b : UInt8) : Nat :=
  if b &&& 0x80 = 0x00 then 1
  else if b &&& 0xE0 = 0xC0 then 2
  else if b &&& 0xF0 = 0xE0 then 3
  else if b &&& 0xF8 = 0xF0 then 4
  else 1

/-- A byte that continues a UTF-8 sequence and so takes no column of its own. -/
def isContinuation (b : UInt8) : Bool := b &&& 0xC0 == 0x80

/-- The columns a text takes on a terminal. -/
def columns (s : Bytes) : Nat := s.countP (!isContinuation ·)

end Bytes

/-!
## Positional digits

Natural numbers as digit texts in a base from 2 to 16, most significant digit first. Digits above
nine are the letters from `a` on; reading takes them in either case. `ofNat` writes no leading
zero, and `toNat?` reads any number of them.
-/

namespace Digits

/-- The digit of a value below 16. -/
def digit (d : Nat) : UInt8 := if d < 10 then (48 + d).toUInt8 else (87 + d).toUInt8

/-- The value of a digit byte of either case, whatever the base. -/
def value? (b : UInt8) : Option Nat :=
  if Bytes.isDigit b then some (b.toNat - 48)
  else if Bytes.isHexDigit b then some ((Bytes.lowerByte b).toNat - 87)
  else none

/-- The digits of `n` in a base of at least 2, without leading zeros. -/
def ofNat (base n : Nat) : Bytes :=
  if base < 2 ∨ n < base then [digit n] else ofNat base (n / base) ++ [digit (n % base)]
termination_by n
decreasing_by exact Nat.div_lt_self (by omega) (by omega)

/-- The value of a digit text that continues a number read so far. -/
def continueNat? (base : Nat) : Nat → Bytes → Option Nat
  | acc, [] => some acc
  | acc, b :: rest =>
    match value? b with
    | some d => if d < base then continueNat? base (acc * base + d) rest else none
    | none => none

/-- The value of a nonempty digit text in a base. -/
def toNat? (base : Nat) (s : Bytes) : Option Nat :=
  if s.isEmpty then none else continueNat? base 0 s

/-- A whole number in base ten, with a minus sign when it is negative. -/
def ofInt (n : Int) : Bytes :=
  if n < 0 then '-'.toUInt8 :: ofNat 10 n.natAbs else ofNat 10 n.natAbs

/-- The last `width` decimal digits of `n`, with leading zeros. -/
def fixedWidth : Nat → Nat → Bytes
  | 0, _ => []
  | width + 1, n => fixedWidth width (n / 10) ++ [digit (n % 10)]

end Digits

end Abacus
