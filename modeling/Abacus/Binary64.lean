/-!
# Binary64 numbers

The number format of the calculator and its arithmetic.
-/

namespace Abacus

/-!
## Binary64 numbers

A finite number of the IEEE 754 binary64 format is a sign and a whole number of *quanta*, where a
quantum is `2 ^ -1074`, the least positive number of the format. A count of quanta is
representable when at most 53 of its leading bits are in use and it stays below `2 ^ 2098`, which
is the number `2 ^ 1024`. Zero has two signs; a NaN has neither sign nor payload.

With whole quanta all arithmetic is exact arithmetic on natural numbers followed by one rounding,
`ofRatio`: to the nearest representable number, a tie to the one whose last bit is zero, and from
`2 ^ 1024` on to an infinity.
-/

namespace Quanta

/-- The number one. -/
@[irreducible] def one : Nat := Nat.pow 2 1074

/-- The first count of quanta that is out of range. -/
@[irreducible] def bound : Nat := Nat.pow 2 2098

/-- The binary exponent of the gap between neighbouring representable counts at `n`. -/
def gapExponent (n : Nat) : Nat := n.log2 - 52

/-- The counts of quanta of finite binary64 numbers. -/
def Representable (n : Nat) : Prop := Nat.pow 2 (gapExponent n) ∣ n ∧ n < bound

instance (n : Nat) : Decidable (Representable n) := inferInstanceAs (Decidable (_ ∧ _))

/-- A significand of 53 bits, or one more than the largest, shifted into place. -/
theorem dvd_mul_two_pow {m e : Nat} (hm : m ≤ Nat.pow 2 53) :
    Nat.pow 2 (gapExponent (m * Nat.pow 2 e)) ∣ m * Nat.pow 2 e := by
  rcases Nat.lt_or_eq_of_le hm with hlt | rfl
  · refine Nat.dvd_trans (Nat.pow_dvd_pow 2 ?_) (Nat.dvd_mul_left _ _)
    by_cases h0 : m * Nat.pow 2 e = 0
    · rw [h0]
      exact Nat.zero_le e
    · have hb : m * Nat.pow 2 e < Nat.pow 2 (53 + e) :=
        Nat.lt_of_lt_of_eq ((Nat.mul_lt_mul_right (Nat.two_pow_pos e)).mpr hlt)
          (Nat.pow_add 2 53 e).symm
      have := (Nat.log2_lt h0).mpr hb
      simp only [gapExponent]
      omega
  · have hmul : Nat.pow 2 53 * Nat.pow 2 e = Nat.pow 2 (53 + e) := (Nat.pow_add 2 53 e).symm
    have hlog : (Nat.pow 2 (53 + e)).log2 = 53 + e := Nat.log2_two_pow
    rw [hmul, gapExponent, hlog]
    exact Nat.pow_dvd_pow 2 (by omega)

/-- The whole number nearest to `num / den`; a tie goes to the even one. -/
def roundDiv (num den : Nat) : Nat :=
  let q := num / den
  let twice := 2 * (num % den)
  if twice < den ∨ (twice = den ∧ q % 2 = 0) then q else q + 1

/-- The gap exponent at `num / den` quanta. -/
def ratioExponent (num den : Nat) : Nat := gapExponent (num / den)

/-- `num / den` quanta rounded to 53 significant bits, with no upper limit. -/
def round (num den : Nat) : Nat :=
  roundDiv num (den * Nat.pow 2 (ratioExponent num den)) * Nat.pow 2 (ratioExponent num den)

theorem roundDiv_le (num den : Nat) : roundDiv num den ≤ num / den + 1 := by
  simp only [roundDiv]
  split
  · omega
  · omega

/-- In units of its gap a ratio has 53 bits before the point. -/
theorem div_ratio_lt (num den : Nat) :
    num / (den * Nat.pow 2 (ratioExponent num den)) < Nat.pow 2 53 := by
  rw [← Nat.div_div_eq_div_mul]
  have hlt : num / den < Nat.pow 2 53 * Nat.pow 2 (ratioExponent num den) := by
    refine Nat.lt_of_lt_of_eq ?_ (Nat.pow_add 2 53 (ratioExponent num den))
    refine Nat.lt_of_lt_of_le Nat.lt_log2_self (Nat.pow_le_pow_right (by omega) ?_)
    simp only [ratioExponent, gapExponent]
    omega
  exact Nat.div_lt_of_lt_mul (Nat.mul_comm _ _ ▸ hlt)

theorem roundDiv_ratio_le (num den : Nat) :
    roundDiv num (den * Nat.pow 2 (ratioExponent num den)) ≤ Nat.pow 2 53 :=
  Nat.le_trans (roundDiv_le _ _) (div_ratio_lt num den)

theorem dvd_round (num den : Nat) : Nat.pow 2 (gapExponent (round num den)) ∣ round num den :=
  dvd_mul_two_pow (roundDiv_ratio_le num den)

theorem bound_pos : 0 < bound := by
  unfold bound
  -- the exponent is generalized so that nothing computes the power
  generalize 2098 = e
  exact Nat.two_pow_pos e

theorem representable_zero : Representable 0 := ⟨Nat.dvd_zero _, bound_pos⟩

end Quanta

/-- A binary64 number. -/
inductive Binary64 where
  | nan
  | infinite (negative : Bool)
  | finite (negative : Bool) (quanta : Nat) (representable : Quanta.Representable quanta)
  deriving DecidableEq

namespace Binary64

/-- Zero of a sign. -/
def zero (negative : Bool) : Binary64 := .finite negative 0 Quanta.representable_zero

instance : Inhabited Binary64 := ⟨zero false⟩

/-- The number nearest to `num / den` quanta of a sign. -/
def ofRatio (negative : Bool) (num den : Nat) : Binary64 :=
  if h : Quanta.round num den < Quanta.bound then
    .finite negative (Quanta.round num den) ⟨Quanta.dvd_round num den, h⟩
  else .infinite negative

/-- The number nearest to a whole number; zero is positive. -/
def ofInt (n : Int) : Binary64 := ofRatio (decide (n < 0)) (n.natAbs * Quanta.one) 1

/-! ### Bits -/

/-- The 63 bits of a magnitude: the gap exponent added onto the 53 significant bits, the highest of
which thereby counts as one in the exponent field. -/
def magnitudeBits (n : Nat) : Nat :=
  n / Nat.pow 2 (Quanta.gapExponent n) + Quanta.gapExponent n * Nat.pow 2 52

/-- The bit pattern; a NaN has the quiet pattern without payload. -/
def toBits : Binary64 → UInt64
  | nan => 0x7ff8000000000000
  | infinite negative => UInt64.ofNat ((if negative then Nat.pow 2 63 else 0) + 2047 * Nat.pow 2 52)
  | finite negative n _ => UInt64.ofNat ((if negative then Nat.pow 2 63 else 0) + magnitudeBits n)

/-- The number of a bit pattern. -/
def ofBits (bits : UInt64) : Binary64 :=
  let negative := decide (Nat.pow 2 63 ≤ bits.toNat)
  let exponent := bits.toNat / Nat.pow 2 52 % Nat.pow 2 11
  let fraction := bits.toNat % Nat.pow 2 52
  if exponent = 2047 then
    if fraction = 0 then .infinite negative else .nan
  else if exponent = 0 then ofRatio negative fraction 1
  else ofRatio negative ((Nat.pow 2 52 + fraction) * Nat.pow 2 (exponent - 1)) 1

/-!
## Binary64 arithmetic

The operations of IEEE 754 on `Binary64`, each an exact operation on whole quanta followed by at
most one rounding. `remainder`, `floor` and `truncate` are exact. The power function alone is the
platform's: its last bit is not fixed by the standard, so `pow` hands the two bit patterns over.
-/

/-- The number is not a number. -/
def isNaN : Binary64 → Bool
  | nan => true
  | _ => false

/-- The number is below zero; `-0` and NaN are not. -/
def isNegative : Binary64 → Bool
  | nan => false
  | infinite negative => negative
  | finite negative n _ => negative && n ≠ 0

/-- The number is zero of either sign. -/
def isZero : Binary64 → Bool
  | finite _ n _ => n = 0
  | _ => false

/-- The number with the other sign. -/
def neg : Binary64 → Binary64
  | nan => nan
  | infinite negative => infinite (!negative)
  | finite negative n h => finite (!negative) n h

/-- The number without its sign. -/
def abs : Binary64 → Binary64
  | nan => nan
  | infinite _ => infinite false
  | finite _ n h => finite false n h

/-- A count of quanta with its sign. -/
def signedQuanta (negative : Bool) (n : Nat) : Int := if negative then -n else n

/-- The rounded sum; an exact zero is negative only as the sum of two negative zeros. -/
def add : Binary64 → Binary64 → Binary64
  | nan, _ => nan
  | _, nan => nan
  | infinite s, infinite t => if s = t then infinite s else nan
  | infinite s, finite .. => infinite s
  | finite .., infinite t => infinite t
  | finite s m _, finite t n _ =>
    let sum := signedQuanta s m + signedQuanta t n
    if sum = 0 then zero (s && t) else ofRatio (decide (sum < 0)) sum.natAbs 1

/-- The rounded difference. -/
def sub (x y : Binary64) : Binary64 := add x (neg y)

/-- The rounded product. -/
def mul : Binary64 → Binary64 → Binary64
  | nan, _ => nan
  | _, nan => nan
  | infinite s, infinite t => infinite (s ^^ t)
  | infinite s, finite t n _ => if n = 0 then nan else infinite (s ^^ t)
  | finite s m _, infinite t => if m = 0 then nan else infinite (s ^^ t)
  | finite s m _, finite t n _ => ofRatio (s ^^ t) (m * n) Quanta.one

/-- The rounded quotient; a nonzero number over zero is an infinity. -/
def div : Binary64 → Binary64 → Binary64
  | nan, _ => nan
  | _, nan => nan
  | infinite _, infinite _ => nan
  | infinite s, finite t _ _ => infinite (s ^^ t)
  | finite s _ _, infinite t => zero (s ^^ t)
  | finite s m _, finite t n _ =>
    if n = 0 then (if m = 0 then nan else infinite (s ^^ t))
    else ofRatio (s ^^ t) (m * Quanta.one) n

/-- What is left of `x` after the whole multiples of `y` on the way to zero, with the sign of
`x`. -/
def remainder : Binary64 → Binary64 → Binary64
  | nan, _ => nan
  | _, nan => nan
  | infinite _, _ => nan
  | finite s m h, infinite _ => finite s m h
  | finite s m _, finite _ n _ => if n = 0 then nan else ofRatio s (m % n) 1

/-- The greatest whole number that is not above `x`; the sign of a zero is kept. -/
def floor : Binary64 → Binary64
  | finite negative n _ =>
    let up := if negative ∧ n % Quanta.one ≠ 0 then 1 else 0
    ofRatio negative ((n / Quanta.one + up) * Quanta.one) 1
  | x => x

/-- The whole part on the way to zero, unless the number is infinite or NaN. -/
def truncate : Binary64 → Option Int
  | finite negative n _ => some (signedQuanta negative (n / Quanta.one))
  | _ => none

/-- `x` to the power of `y`. -/
def pow (x y : Binary64) : Binary64 :=
  ofBits ((Float.ofBits x.toBits).pow (Float.ofBits y.toBits)).toBits

end Binary64

end Abacus
