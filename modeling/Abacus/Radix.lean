import Abacus.Binary64
import Abacus.Decimal

/-!
# Radixes and numerals

Texts of numbers in four radixes, and what the calculator keeps of a number.
-/

namespace Abacus

/-!
## Radixes

The calculator reads and writes numbers in four radixes. Decimal texts are those of `Decimal`; the
other three hold whole numbers of 64 bits, two's complement, behind a mark: `0x` for hexadecimal,
`b` for binary and a leading `0` for octal. A text alone tells its radix (`detect`).
-/

/-- A radix of a number's text. -/
inductive Radix where
  | dec
  | hex
  | bin
  | oct
  deriving DecidableEq, Repr

namespace Radix

/-- Every radix, in the order of their names in the help text. -/
def all : List Radix := [.dec, .hex, .bin, .oct]

/-- The name by which a line asks for a radix. -/
def name : Radix → Bytes
  | dec => utf8 "dec"
  | hex => utf8 "hex"
  | bin => utf8 "bin"
  | oct => utf8 "oct"

/-- The radix of a name. -/
def ofName? (s : Bytes) : Option Radix := all.find? (·.name = s)

/-- The number of digits a place can take. -/
def base : Radix → Nat
  | dec => 10
  | hex => 16
  | bin => 2
  | oct => 8

/-- What stands before the digits when a number is written. -/
def mark : Radix → Bytes
  | dec => []
  | hex => utf8 "0x"
  | bin => utf8 "b"
  | oct => utf8 "0"

/-! ### Detection -/

/-- The text without one leading minus sign, and whether it had one. -/
def splitSign : Bytes → Bool × Bytes
  | [] => (false, [])
  | b :: rest => if b = '-'.toUInt8 then (true, rest) else (false, b :: rest)

/-- The radix of an unsigned text. A leading zero means octal, unless a point makes the text a
decimal fraction. -/
def detectUnsigned : Bytes → Radix
  | [] => .dec
  | b :: rest =>
    if Bytes.lowerByte b = 'b'.toUInt8 then .bin
    else if b = '0'.toUInt8 then
      match rest with
      | [] => .dec
      | c :: _ =>
        if Bytes.lowerByte c = 'x'.toUInt8 then .hex
        else if '.'.toUInt8 ∈ rest then .dec
        else .oct
    else .dec

/-- The radix that a text shows by its mark. -/
def detect (s : Bytes) : Radix := detectUnsigned (splitSign s).2

/-! ### Reading -/

/-- The digits of an unsigned text of a radix other than decimal. The zero of an octal mark is a
digit like the others. -/
def digits? : Radix → Bytes → Option Bytes
  | hex, a :: b :: rest =>
    if a = '0'.toUInt8 ∧ Bytes.lowerByte b = 'x'.toUInt8 then some rest else none
  | bin, a :: rest => if Bytes.lowerByte a = 'b'.toUInt8 then some rest else none
  | oct, s => some s
  | _, _ => none

/-- The greatest magnitude of a signed 64-bit number. -/
def magnitudeLimit (negative : Bool) : Nat := if negative then Nat.pow 2 63 else Nat.pow 2 63 - 1

/-- The whole number of a text of a radix other than decimal, as its sign and magnitude. -/
def readInteger? (radix : Radix) (s : Bytes) : Option (Bool × Nat) := do
  let (negative, body) := splitSign s
  let digits ← radix.digits? body
  let magnitude ← Digits.toNat? radix.base digits
  if magnitude ≤ magnitudeLimit negative then some (negative, magnitude) else none

/-- The number of a text in a radix, rounded to the nearest. -/
def read? : Radix → Bytes → Option Binary64
  | dec, s => Decimal.read? s
  | radix, s => (readInteger? radix s).map fun (negative, magnitude) ↦
      .ofRatio negative (magnitude * Quanta.one) 1

/-! ### Writing -/

/-- The whole numbers of 64 bits. -/
def InRange (n : Int) : Prop := -(Nat.pow 2 63 : Int) ≤ n ∧ n < Nat.pow 2 63

instance (n : Int) : Decidable (InRange n) := inferInstanceAs (Decidable (_ ∧ _))

/-- The whole part of a number, when it has 64 bits. -/
def integer? (x : Binary64) : Option Int := x.truncate.filter fun n ↦ decide (InRange n)

/-- The text of a number in a radix: decimal keeps the fraction, the others drop it. -/
def write? : Radix → Binary64 → Option Bytes
  | dec, x => some (Decimal.write x)
  | radix, x => (integer? x).map fun n ↦
      Decimal.sign (decide (n < 0)) ++ radix.mark ++ Digits.ofNat radix.base n.natAbs

end Radix

/-!
## Numerals

The calculator keeps every number as it is written: a text in lower case together with the radix
it is read in. The radix is usually the one the text shows, but a loaded variable may say
otherwise, and then the text may have no value.
-/

/-- A written number. -/
structure Numeral where
  /-- Its text, in lower case. -/
  text : Bytes
  /-- The radix the text is read in. -/
  radix : Radix
  /-- No letter of the text is in upper case. -/
  lower_text : Bytes.lower text = text
  deriving DecidableEq, Repr

namespace Numeral

/-- A text in a given radix. -/
def ofRadix (text : Bytes) (radix : Radix) : Numeral :=
  ⟨Bytes.lower text, radix, Bytes.lower_lower text⟩

/-- A text in the radix it shows. -/
def ofText (text : Bytes) : Numeral := ofRadix text (Radix.detect text)

/-- The decimal numeral of a number. -/
def ofNumber (x : Binary64) : Numeral := ofRadix (Decimal.write x) .dec

/-- A minus sign in front of a literal, which keeps the radix that the literal shows alone. -/
def negated (text : Bytes) : Numeral := ofRadix ('-'.toUInt8 :: text) (Radix.detect text)

/-- The number, unless the text is malformed in its radix. -/
def number? (n : Numeral) : Option Binary64 := n.radix.read? n.text

end Numeral

/-- A numeral and the offset in a line that it was taken from. -/
structure Value where
  /-- The written number. -/
  numeral : Numeral
  /-- The offset. -/
  position : Nat
  deriving DecidableEq, Repr

end Abacus
