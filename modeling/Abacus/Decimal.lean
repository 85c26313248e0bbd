import Abacus.Binary64
import Abacus.Bytes

/-!
# Decimal texts of numbers

What a decimal text stands for, and the text that a number is written as.
-/

namespace Abacus

/-!
## Decimal literals

A literal is an optional minus sign and then digits with at most one point, on either side of which
the digits may be missing but not on both, and after them optionally an exponent; or it is an
infinity or a NaN by name, in any case, where a NaN may carry a tag in parentheses. Its value is
the nearest binary64 number. A literal that overflows, or whose digits are not all zero and that
still rounds to zero, has no value.
-/

namespace Decimal

/-- The digits of a literal as one whole number, and the power of ten they are multiplied by. -/
structure Scientific where
  /-- All digits, without the point. -/
  digits : Nat
  /-- How many digits there are. -/
  length : Nat
  /-- The power of ten. -/
  exponent : Int
  deriving DecidableEq

/-- The digits at the front of a text and what follows them. -/
def takeDigits (s : Bytes) : Bytes × Bytes := (s.takeWhile Bytes.isDigit, s.dropWhile Bytes.isDigit)

/-- The digits after a point at the front of a text, and what follows them. -/
def takeFraction : Bytes → Bytes × Bytes
  | [] => ([], [])
  | b :: rest => if b = '.'.toUInt8 then takeDigits rest else ([], b :: rest)

/-- An exponent without its letter: an optional sign and at least one digit. -/
def exponentValue? : Bytes → Option Int
  | [] => none
  | b :: rest =>
    if b = '-'.toUInt8 then (Digits.toNat? 10 rest).map fun n ↦ -(n : Int)
    else if b = '+'.toUInt8 then (Digits.toNat? 10 rest).map fun n ↦ (n : Int)
    else (Digits.toNat? 10 (b :: rest)).map fun n ↦ (n : Int)

/-- What follows the digits: nothing, or the letter `e` in either case and an exponent. -/
def exponentPart? : Bytes → Option Int
  | [] => some 0
  | b :: rest => if Bytes.lowerByte b = 'e'.toUInt8 then exponentValue? rest else none

/-- A literal without its sign. -/
def Scientific.read? (s : Bytes) : Option Scientific := do
  let (whole, afterWhole) := takeDigits s
  let (fraction, afterFraction) := takeFraction afterWhole
  let digits ← Digits.toNat? 10 (whole ++ fraction)
  let exponent ← exponentPart? afterFraction
  return ⟨digits, (whole ++ fraction).length, exponent - fraction.length⟩

/-- The nearest binary64 number of a sign. An exponent so far from zero that no digit is left in
range acts like the nearest one of that kind, which keeps the powers of ten small. -/
def Scientific.toBinary64 (negative : Bool) (x : Scientific) : Binary64 :=
  let limit := x.length + 400
  if 0 ≤ x.exponent then
    .ofRatio negative (x.digits * Nat.pow 10 (min x.exponent.toNat limit) * Quanta.one) 1
  else
    .ofRatio negative (x.digits * Quanta.one) (Nat.pow 10 (min (-x.exponent).toNat limit))

/-- The value is a number of the format that stands for the literal: finite, and zero only for
zero. -/
def Scientific.fits (x : Scientific) : Binary64 → Bool
  | .finite _ n _ => n ≠ 0 || x.digits = 0
  | _ => false

/-- A letter, a digit or an underscore, as in the tag of a NaN. -/
def isTagByte (b : UInt8) : Bool := Bytes.isWordByte b || Bytes.isDigit b

/-- The tag of a NaN: bytes of a tag in parentheses. -/
def isTag : Bytes → Bool
  | [] => false
  | b :: rest => b = '('.toUInt8 && rest.dropWhile isTagByte = [')'.toUInt8]

/-- An infinity or a NaN by name. -/
def named? (negative : Bool) (s : Bytes) : Option Binary64 :=
  let s := Bytes.lower s
  if s = utf8 "inf" ∨ s = utf8 "infinity" then some (.infinite negative)
  else if s = utf8 "nan" ∨ (s.take 3 = utf8 "nan" ∧ isTag (s.drop 3)) then some .nan
  else none

/-- A literal after its sign. -/
def readUnsigned? (negative : Bool) (s : Bytes) : Option Binary64 :=
  match Scientific.read? s with
  | some x =>
    let value := x.toBinary64 negative
    if x.fits value then some value else none
  | none => named? negative s

/-- The value of a decimal literal. -/
def read? : Bytes → Option Binary64
  | [] => none
  | b :: rest =>
    if b = '-'.toUInt8 then readUnsigned? true rest else readUnsigned? false (b :: rest)

/-!
## Shortest decimal texts

A finite number is written in positional notation, never with an exponent. A whole number has all
its digits. Any other number has the fewest fraction digits that read back as the same number, and
among the texts with so many digits the one nearest to the number, a tie going to the even last
digit. Some text reads back, because every finite number has at most 1074 fraction digits.
-/

/-- The decimal `digits / 10 ^ places` rounds to `n` quanta. -/
def ReadsBack (n digits places : Nat) : Prop :=
  Quanta.round (digits * Quanta.one) (Nat.pow 10 places) = n

instance (n digits places : Nat) : Decidable (ReadsBack n digits places) :=
  inferInstanceAs (Decidable (_ = _))

/-- The two decimals next to `n` quanta with some number of places, the nearer one first. -/
def neighbours (n places : Nat) : List Nat :=
  let low := n * Nat.pow 10 places / Quanta.one
  let twice := 2 * (n * Nat.pow 10 places % Quanta.one)
  if twice < Quanta.one ∨ (twice = Quanta.one ∧ low % 2 = 0) then [low, low + 1]
  else [low + 1, low]

/-- The nearest decimal with some number of places that reads back. -/
def nearest? (n places : Nat) : Option Nat :=
  (neighbours n places).find? fun digits ↦ decide (ReadsBack n digits places)

/-- The decimal with the fewest places that reads back, as its digits and the number of places;
the search covers the places from the second argument on, as many as the third says. -/
def searchFrom (n : Nat) : Nat → Nat → Nat × Nat
  | places, 0 => (n * Nat.pow 10 places / Quanta.one, places)
  | places, more + 1 =>
    match nearest? n places with
    | some digits => (digits, places)
    | none => searchFrom n (places + 1) more

/-- The digits of `n` quanta that are written, and how many of them follow the point. -/
def shortest (n : Nat) : Nat × Nat := searchFrom n 0 1074

/-- A decimal with its point; there is none when no place follows it. -/
def positional (digits places : Nat) : Bytes :=
  if places = 0 then Digits.ofNat 10 digits
  else
    Digits.ofNat 10 (digits / Nat.pow 10 places) ++ '.'.toUInt8 :: Digits.fixedWidth places digits

/-- The text of a count of quanta. -/
def magnitude (n : Nat) : Bytes :=
  if n % Quanta.one = 0 then Digits.ofNat 10 (n / Quanta.one)
  else positional (shortest n).1 (shortest n).2

/-- The minus sign of a negative number. -/
def sign (negative : Bool) : Bytes := if negative then ['-'.toUInt8] else []

/-- The decimal text of a number. -/
def write : Binary64 → Bytes
  | .nan => utf8 "nan"
  | .infinite negative => sign negative ++ utf8 "inf"
  | .finite negative n _ => sign negative ++ magnitude n

end Decimal

end Abacus
