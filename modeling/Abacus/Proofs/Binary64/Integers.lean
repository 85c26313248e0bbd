import Abacus.Proofs.Binary64.Nearest

/-!
# Whole numbers, significands and bits

What rounding does to whole numbers and to their quotients, and how numbers are laid out in bits.
-/

namespace Abacus

/-!
## Whole numbers of 64 bits, rounded

A whole number of 64 bits may have more bits than a significand. Rounded it is whole again
(`one_dvd_of_isNearest`), because beyond 53 bits the gaps are wider than one. It stays below
`2 ^ 63`, except that the topmost 512 magnitudes are rounded to `2 ^ 63` itself (`eq_limit_iff`).
-/

namespace Quanta

/-- One is a power of two, whose exponent is kept apart so that nothing computes the power. -/
theorem exists_one_eq : ∃ d, d = 1074 ∧ one = Nat.pow 2 d := by
  refine ⟨1074, rfl, ?_⟩
  unfold one
  rfl

theorem two_pow_mul_one (e : ℕ) : Nat.pow 2 e * one = Nat.pow 2 (e + 1074) := by
  obtain ⟨d, hd, hone⟩ := exists_one_eq
  rw [hone, ← hd]
  exact (Nat.pow_add 2 e d).symm

theorem onGrid_two_pow_mul_one (e : ℕ) : OnGrid (Nat.pow 2 e * one) := by
  rw [two_pow_mul_one]
  exact onGrid_two_pow _

theorem gapExponent_two_pow_mul_one (e : ℕ) :
    gapExponent (Nat.pow 2 e * one) = e + 1074 - 52 := by
  have hlog : (Nat.pow 2 (e + 1074)).log2 = e + 1074 := Nat.log2_two_pow
  rw [two_pow_mul_one, gapExponent, hlog]

theorem onGrid_mul_one {m : ℕ} (h : m ≤ Nat.pow 2 53) : OnGrid (m * one) := by
  obtain ⟨d, -, hone⟩ := exists_one_eq
  rw [hone]
  exact dvd_mul_two_pow h

variable {m n : ℕ}

theorem one_dvd_of_isNearest (h : IsNearest ((m * one : ℕ) : ℚ) n) : one ∣ n := by
  rcases Nat.le_total m (Nat.pow 2 53) with hm | hm
  · -- a whole number that fits is itself the nearest
    have hgrid := onGrid_mul_one hm
    have hle := h.le_of_le hgrid le_rfl
    have hge := h.le_of_ge hgrid le_rfl
    rw [Nat.le_antisymm hle hge]
    exact Nat.dvd_mul_left one m
  · -- so far from zero no gap is narrower than one
    have hge : Nat.pow 2 53 * one ≤ n := by
      refine h.le_of_ge (onGrid_two_pow_mul_one 53) ?_
      exact_mod_cast Nat.mul_le_mul_right one hm
    have hgap : 1074 ≤ gapExponent n := by
      have hmono := gapExponent_mono hge
      rw [gapExponent_two_pow_mul_one] at hmono
      omega
    obtain ⟨d, hd, hone⟩ := exists_one_eq
    rw [hone]
    rw [← hd] at hgap
    exact Nat.dvd_trans (Nat.pow_dvd_pow 2 hgap) h.onGrid

/-! ### The upper end -/

theorem limit_lt_bound : Nat.pow 2 63 * one < bound := by
  rw [two_pow_mul_one]
  unfold bound
  -- the exponents are generalized so that nothing computes the powers
  have hlt : 63 + 1074 < 2098 := by decide
  generalize 63 + 1074 = d at hlt ⊢
  generalize 2098 = e at hlt ⊢
  exact Nat.pow_lt_pow_right (by decide) hlt

theorem representable_mul_one (h : m ≤ Nat.pow 2 53) : Representable (m * one) := by
  refine ⟨onGrid_mul_one h, Nat.lt_of_le_of_lt (Nat.mul_le_mul_right one ?_) limit_lt_bound⟩
  exact Nat.le_trans h (by decide)

/-- A magnitude of 64 bits is rounded to one whole number that is no greater than `2 ^ 63`. -/
theorem exists_whole_of_isNearest (hm : m ≤ Nat.pow 2 63)
    (h : IsNearest ((m * one : ℕ) : ℚ) n) :
    ∃ k, n = k * one ∧ k ≤ Nat.pow 2 63 ∧ Representable n := by
  obtain ⟨k, rfl⟩ := one_dvd_of_isNearest h
  have hle : one * k ≤ Nat.pow 2 63 * one := by
    refine h.le_of_le (onGrid_two_pow_mul_one 63) ?_
    exact_mod_cast Nat.mul_le_mul_right one hm
  refine ⟨k, Nat.mul_comm one k, ?_, h.onGrid, Nat.lt_of_le_of_lt hle limit_lt_bound⟩
  rw [Nat.mul_comm one k] at hle
  exact Nat.le_of_mul_le_mul_right hle one_pos

/-- The last whole number of 64 bits that a significand holds. -/
theorem gap_below_limit : OnGrid ((Nat.pow 2 63 - 1024) * one)
    ∧ ¬EndsEven ((Nat.pow 2 63 - 1024) * one)
    ∧ ∀ g, OnGrid g → g ≤ (Nat.pow 2 63 - 1024) * one ∨ Nat.pow 2 63 * one ≤ g := by
  obtain ⟨d, -, hone⟩ := exists_one_eq
  have hsplit : ∀ k : ℕ, k * Nat.pow 2 10 * one = k * Nat.pow 2 (10 + d) := by
    intro k
    rw [hone, Nat.mul_assoc]
    exact congrArg (k * ·) (Nat.pow_add 2 10 d).symm
  have hlower : Nat.pow 2 63 - 1024 = (Nat.pow 2 53 - 1) * Nat.pow 2 10 := by decide
  have hupper : Nat.pow 2 63 = (Nat.pow 2 53 - 1 + 1) * Nat.pow 2 10 := by decide
  rw [hlower, hsplit, hupper, hsplit]
  refine ⟨dvd_mul_two_pow (by decide), not_endsEven_mul (by decide) (by decide), ?_⟩
  intro g hg
  exact hg.le_or_le (.inr (by decide))

/-- The topmost magnitudes of 64 bits are rounded up to `2 ^ 63`: there the gap is 1024, and a tie
goes up. -/
theorem eq_limit_iff (hm : m < Nat.pow 2 63) (h : IsNearest ((m * one : ℕ) : ℚ) n) :
    n = Nat.pow 2 63 * one ↔ Nat.pow 2 63 - 512 ≤ m := by
  obtain ⟨hgrid, hodd, hnone⟩ := gap_below_limit
  have hlt : (Nat.pow 2 63 - 1024) * one < Nat.pow 2 63 * one :=
    Nat.mul_lt_mul_of_pos_right (by decide) one_pos
  have hle : ((m * one : ℕ) : ℚ) ≤ (Nat.pow 2 63 * one : ℕ) := by
    exact_mod_cast Nat.mul_le_mul_right one hm.le
  rw [h.eq_upper_iff hgrid (onGrid_two_pow_mul_one 63) hlt hodd hnone hle]
  have hsum : (Nat.pow 2 63 - 1024) * one + Nat.pow 2 63 * one ≤ 2 * (m * one)
      ↔ Nat.pow 2 63 - 512 ≤ m := by
    have h63 : Nat.pow 2 63 = 9223372036854775808 := by decide
    rw [← Nat.add_mul, ← Nat.mul_assoc, Nat.mul_le_mul_right_iff one_pos, h63]
    omega
  rw [← hsum]
  exact_mod_cast Iff.rfl

end Quanta

namespace Binary64

/-- A magnitude of 64 bits is rounded to a whole number of its sign. -/
theorem exists_ofRatio_whole (negative : Bool) {m : ℕ} (hm : m ≤ Nat.pow 2 63) :
    ∃ k h, ofRatio negative (m * Quanta.one) 1 = .finite negative (k * Quanta.one) h
      ∧ k ≤ Nat.pow 2 63 ∧ (m < Nat.pow 2 63 → (k = Nat.pow 2 63 ↔ Nat.pow 2 63 - 512 ≤ m)) := by
  have hnear : Quanta.IsNearest ((m * Quanta.one : ℕ) : ℚ) (Quanta.round (m * Quanta.one) 1) := by
    have hnear := Quanta.isNearest_round (m * Quanta.one) Nat.one_pos
    rwa [Nat.cast_one, div_one] at hnear
  obtain ⟨k, hk, hle, hrepresentable⟩ := Quanta.exists_whole_of_isNearest hm hnear
  rw [hk] at hnear hrepresentable
  refine ⟨k, hrepresentable, ofRatio_eq_finite hk hrepresentable, hle, fun hlt ↦ ?_⟩
  rw [← Quanta.eq_limit_iff hlt hnear, Nat.mul_right_cancel_iff Quanta.one_pos]

/-!
## Whole numbers that fit a significand

Some whole numbers of 64 bits are numbers of the format as they are: those of which 53 bits hold
everything but zeros at the end. A whole part is one of them (`fitsSignificand_of_truncate`). To
shift it in either direction leaves it one, and so does to drop bits at its upper end.
-/

/-- A whole number of at most 53 bits, or one more than the largest, with zeros behind it. -/
def FitsSignificand (n : ℤ) : Prop :=
  ∃ (s : ℤ) (e : ℕ), n = s * Nat.pow 2 e ∧ s.natAbs ≤ Nat.pow 2 53

theorem cast_two_pow_pos (e : ℕ) : (0 : ℤ) < Nat.pow 2 e :=
  Int.natCast_pos.mpr (Nat.pow_pos (by decide))

theorem cast_two_pow_add (a b : ℕ) : (Nat.pow 2 (a + b) : ℤ) = Nat.pow 2 a * Nat.pow 2 b := by
  have hadd : Nat.pow 2 (a + b) = Nat.pow 2 a * Nat.pow 2 b := Nat.pow_add 2 a b
  rw [hadd, Nat.cast_mul]

theorem fitsSignificand_of_natAbs_le {n : ℤ} (h : n.natAbs ≤ Nat.pow 2 53) : FitsSignificand n :=
  ⟨n, 0, (mul_one n).symm, h⟩

theorem fitsSignificand_of_truncate {x : Binary64} {n : ℤ} (h : x.truncate = some n) :
    FitsSignificand n := by
  obtain ⟨k, hk, hlt, -⟩ := Quanta.OnGrid.exists_eq_mul (representable_of_truncate h).1
  obtain ⟨d, -, hone⟩ := Quanta.exists_one_eq
  rw [hone] at hk
  generalize Quanta.gapExponent (n.natAbs * Nat.pow 2 d) = g at hk
  have hpos : 0 < Nat.pow 2 d := Nat.pow_pos (by decide)
  rcases Nat.le_total d g with hle | hle
  · -- the zeros at the end reach beyond the point
    obtain ⟨c, rfl⟩ := Nat.exists_eq_add_of_le' hle
    have hadd : Nat.pow 2 (c + d) = Nat.pow 2 c * Nat.pow 2 d := Nat.pow_add 2 c d
    rw [hadd, ← Nat.mul_assoc] at hk
    have habs : n.natAbs = k * Nat.pow 2 c := Nat.mul_right_cancel hpos hk
    rcases Int.natAbs_eq n with hn | hn
    · exact ⟨k, c, by rw [hn, habs, Nat.cast_mul], hlt.le⟩
    · exact ⟨-k, c, by rw [hn, habs, Nat.cast_mul, neg_mul], by rw [Int.natAbs_neg]; exact hlt.le⟩
  · refine fitsSignificand_of_natAbs_le (Nat.le_trans ?_ hlt.le)
    have hpow : Nat.pow 2 g ≤ Nat.pow 2 d := Nat.pow_le_pow_right (by decide) hle
    have hmul : n.natAbs * Nat.pow 2 d ≤ k * Nat.pow 2 d := hk ▸ Nat.mul_le_mul_left k hpow
    exact Nat.le_of_mul_le_mul_right hmul hpos

variable {n : ℤ}

theorem FitsSignificand.mul_two_pow (h : FitsSignificand n) (c : ℕ) :
    FitsSignificand (n * Nat.pow 2 c) := by
  obtain ⟨s, e, rfl, hs⟩ := h
  exact ⟨s, e + c, by rw [cast_two_pow_add, mul_assoc], hs⟩

theorem FitsSignificand.ediv_two_pow (h : FitsSignificand n) (c : ℕ) :
    FitsSignificand (n / Nat.pow 2 c) := by
  obtain ⟨s, e, rfl, hs⟩ := h
  rcases Nat.le_total c e with hle | hle
  · -- only zeros are shifted out
    obtain ⟨r, rfl⟩ := Nat.exists_eq_add_of_le' hle
    rw [cast_two_pow_add, ← mul_assoc, Int.mul_ediv_cancel _ (cast_two_pow_pos c).ne']
    exact ⟨s, r, rfl, hs⟩
  · obtain ⟨r, rfl⟩ := Nat.exists_eq_add_of_le' hle
    rw [cast_two_pow_add, Int.mul_ediv_mul_of_pos_left _ _ (cast_two_pow_pos e)]
    exact fitsSignificand_of_natAbs_le (Nat.le_trans (Int.natAbs_ediv_le_natAbs _ _) hs)

/-- A number that differs by a multiple of `2 ^ w`, and is no further from zero, keeps the zeros at
the end. -/
theorem FitsSignificand.of_dvd_sub (h : FitsSignificand n) {m : ℤ} {w : ℕ}
    (hdvd : (Nat.pow 2 w : ℤ) ∣ n - m) (hle : m.natAbs ≤ n.natAbs) (hlt : m.natAbs < Nat.pow 2 w) :
    FitsSignificand m := by
  obtain ⟨s, e, rfl, hs⟩ := h
  rcases Nat.le_total w e with hwe | hew
  · -- nothing but zeros is left of it
    obtain ⟨r, rfl⟩ := Nat.exists_eq_add_of_le' hwe
    have hm : (Nat.pow 2 w : ℤ) ∣ m := by
      rw [cast_two_pow_add, ← mul_assoc] at hdvd
      exact (dvd_sub_right (dvd_mul_left _ _)).mp hdvd
    have hzero : m = 0 := Int.eq_zero_of_dvd_of_natAbs_lt_natAbs hm (by rwa [Int.natAbs_natCast])
    rw [hzero]
    exact fitsSignificand_of_natAbs_le (Nat.zero_le _)
  · obtain ⟨r, rfl⟩ := Nat.exists_eq_add_of_le' hew
    have hm : (Nat.pow 2 e : ℤ) ∣ m := by
      rw [cast_two_pow_add] at hdvd
      exact (dvd_sub_right (dvd_mul_left _ _)).mp ((dvd_mul_left _ _).trans hdvd)
    obtain ⟨t, rfl⟩ := hm
    rw [mul_comm, Int.natAbs_mul, Int.natAbs_mul, Int.natAbs_natCast] at hle
    have hts : t.natAbs ≤ s.natAbs :=
      Nat.le_of_mul_le_mul_right hle (Nat.pow_pos (by decide))
    exact ⟨t, e, mul_comm _ _, Nat.le_trans hts hs⟩

theorem FitsSignificand.representable (h : FitsSignificand n) (hle : n.natAbs ≤ Nat.pow 2 63) :
    Quanta.Representable (n.natAbs * Quanta.one) := by
  refine ⟨?_, Nat.lt_of_le_of_lt (Nat.mul_le_mul_right _ hle) Quanta.limit_lt_bound⟩
  obtain ⟨s, e, rfl, hs⟩ := h
  rw [Int.natAbs_mul, Int.natAbs_natCast, Nat.mul_assoc, Quanta.two_pow_mul_one]
  exact Quanta.dvd_mul_two_pow hs

end Binary64

/-!
## Quotients of whole numbers, rounded

A ratio is rounded by half a gap at most, and the gap is a small part of the ratio unless it is a
single quantum (`round_error`). The quotient of two whole numbers of 53 bits is further than that
from the whole numbers around it, unless it is one of them. So it has the same whole part when it is
rounded, and is whole only if it was so before (`round_div_one`).
-/

namespace Quanta

/-- A ratio is rounded by half of its gap at most, and it has `2 ^ 52` gaps below it unless these
are single quanta. -/
theorem round_error (num : ℕ) {den : ℕ} (hden : 0 < den) :
    2 * |(num / den : ℚ) - round num den| ≤ (Nat.pow 2 (ratioExponent num den) : ℕ)
      ∧ (ratioExponent num den = 0
        ∨ (Nat.pow 2 52 : ℕ) * (Nat.pow 2 (ratioExponent num den) : ℕ) ≤ (num / den : ℚ)) := by
  have hr : num % (den * Nat.pow 2 (ratioExponent num den))
      < den * Nat.pow 2 (ratioExponent num den) :=
    Nat.mod_lt num (Nat.mul_pos hden (Nat.pow_pos (by decide)))
  have hsum : den * Nat.pow 2 (ratioExponent num den) * gapsBelow num den
      + num % (den * Nat.pow 2 (ratioExponent num den)) = num := Nat.div_add_mod ..
  obtain ⟨hle, hge⟩ := compare_dist hden hsum
  obtain ⟨hbelow, habove⟩ := le_div_and_div_le hden hsum hr
  constructor
  · rcases round_cases num den with ⟨hround, hhalf, -⟩ | ⟨hround, hhalf, -⟩
    · rw [hround, abs_of_nonneg (by linarith)]
      exact hle.mp hhalf
    · have hupper := hge.mp hhalf
      rw [hround, Nat.succ_mul, Nat.cast_add, abs_of_nonpos (by linarith)]
      linarith
  · refine (le_gapsBelow num den).imp_right fun hgaps ↦ le_trans ?_ hbelow
    exact_mod_cast Nat.mul_le_mul_right _ hgaps

section Quotient

variable {a b : ℕ} (ha : a < Nat.pow 2 53) (hb : 0 < b) (hb' : b < Nat.pow 2 53)
include ha hb hb'

theorem mul_abs_sub_round_lt :
    b * |((a * one : ℕ) / b : ℚ) - round (a * one) b| < one := by
  have hbpos : (0 : ℚ) < b := by exact_mod_cast hb
  have hpow : (0 : ℚ) < (Nat.pow 2 53 : ℕ) := by exact_mod_cast Nat.pow_pos (by decide)
  obtain ⟨hround, hgap⟩ := round_error (a * one) hb
  have hdistance := abs_nonneg ((a * one : ℕ) / b - round (a * one) b : ℚ)
  have hquotient : (b : ℚ) * ((a * one : ℕ) / b) = a * one := by
    rw [mul_div_cancel₀ _ hbpos.ne', Nat.cast_mul]
  generalize |((a * one : ℕ) / b - round (a * one) b : ℚ)| = distance at hround hdistance ⊢
  generalize ((a * one : ℕ) / b : ℚ) = q at hgap hquotient
  rcases hgap with hgap | hgap
  · -- single quanta are nothing against one
    have hone : (Nat.pow 2 53 : ℕ) ≤ (one : ℚ) := by
      obtain ⟨d, hd, hone⟩ := exists_one_eq
      rw [hone]
      exact_mod_cast Nat.pow_le_pow_right (by decide : 0 < 2) (by omega : 53 ≤ d)
    have hlt : (b : ℚ) < (Nat.pow 2 53 : ℕ) := by exact_mod_cast hb'
    have hsingle : (Nat.pow 2 0 : ℕ) = 1 := rfl
    rw [hgap, hsingle, Nat.cast_one] at hround
    calc b * distance ≤ b * 1 := mul_le_mul_of_nonneg_left (by linarith) hbpos.le
      _ < one := by linarith
  · have hdividend : (a : ℚ) < (Nat.pow 2 53 : ℕ) := by exact_mod_cast ha
    have hone : (0 : ℚ) < one := by exact_mod_cast one_pos
    have h53 : ((Nat.pow 2 53 : ℕ) : ℚ) = (Nat.pow 2 52 : ℕ) * 2 := by norm_num
    have hpart : (Nat.pow 2 53 : ℕ) * distance ≤ q := by
      rw [h53, mul_assoc]
      exact (mul_le_mul_of_nonneg_left hround (Nat.cast_nonneg _)).trans hgap
    refine lt_of_mul_lt_mul_left ?_ hpow.le
    calc (Nat.pow 2 53 : ℕ) * (b * distance) = b * ((Nat.pow 2 53 : ℕ) * distance) := by ring
      _ ≤ b * q := mul_le_mul_of_nonneg_left hpart hbpos.le
      _ = a * one := hquotient
      _ < (Nat.pow 2 53 : ℕ) * one := mul_lt_mul_of_pos_right hdividend hone

/-- A rounded quotient does not reach the next multiple of one over the divisor. -/
theorem mul_round_lt :
    b * round (a * one) b < (a + 1) * one ∧ a * one < b * round (a * one) b + one := by
  have hbpos : (0 : ℚ) < b := by exact_mod_cast hb
  have hlt := mul_abs_sub_round_lt ha hb hb'
  rw [← abs_of_pos hbpos, ← abs_mul, mul_sub, abs_of_pos hbpos, mul_div_cancel₀ _ hbpos.ne',
    abs_lt] at hlt
  obtain ⟨hlower, hupper⟩ := hlt
  constructor
  · rw [Nat.succ_mul]
    exact_mod_cast (by push_cast at hlower ⊢; linarith :
      ((b * round (a * one) b : ℕ) : ℚ) < (a * one + one : ℕ))
  · exact_mod_cast (by push_cast at hupper ⊢; linarith :
      ((a * one : ℕ) : ℚ) < (b * round (a * one) b + one : ℕ))

/-- **The whole part of a quotient is not lost in rounding.** The rounded quotient of two whole
numbers of 53 bits has the whole part of the quotient, and is whole only where the division is
exact. -/
theorem round_div_one :
    round (a * one) b / one = a / b ∧ (round (a * one) b % one = 0 ↔ a % b = 0) := by
  have hone := one_pos
  have hsplit : b * (a / b) + a % b = a := Nat.div_add_mod a b
  have hle : a / b ≤ a := Nat.div_le_self a b
  generalize hk : a / b = k at hsplit hle ⊢
  rcases Nat.eq_zero_or_pos (a % b) with hexact | hpos
  · have hround : round (a * one) b = k * one := by
      have heq : a * one = k * one * b := by
        rw [← hsplit, hexact, Nat.add_zero, Nat.mul_comm b, Nat.mul_right_comm]
      rw [heq]
      exact round_mul_of_representable (representable_mul_one (Nat.le_trans hle ha.le)) hb
    rw [hround, hexact, Nat.mul_div_cancel k hone, Nat.mul_mod_left]
    exact ⟨rfl, Iff.rfl⟩
  · obtain ⟨hupper, hlower⟩ := mul_round_lt ha hb hb'
    have hrest := Nat.mod_lt a hb
    -- both neighbours are at least one over the divisor away
    have hgt : k * one < round (a * one) b := by
      refine Nat.lt_of_mul_lt_mul_left (a := b) ?_
      have hmul : (b * k + 1) * one ≤ a * one := Nat.mul_le_mul_right one (by omega)
      rw [Nat.succ_mul, Nat.mul_assoc] at hmul
      omega
    have hlt : round (a * one) b < (k + 1) * one := by
      refine Nat.lt_of_mul_lt_mul_left (a := b) (Nat.lt_of_lt_of_le hupper ?_)
      rw [← Nat.mul_assoc, Nat.mul_succ]
      exact Nat.mul_le_mul_right one (by omega)
    have hdiv : round (a * one) b / one = k := Nat.div_eq_of_lt_le hgt.le hlt
    refine ⟨hdiv, fun hwhole ↦ ?_, fun hexact ↦ absurd hexact hpos.ne'⟩
    have heq := Nat.div_add_mod (round (a * one) b) one
    rw [hdiv, hwhole, Nat.mul_comm] at heq
    exact absurd heq hgt.ne

end Quotient

/-!
## Bit patterns

A bit pattern holds a sign, an exponent field and a fraction. Below the last exponent the two fields
stand for a count of quanta (`Quanta.ofFields`), and each representable count has its fields
(`Quanta.exists_ofFields_eq`). So a number that is no NaN is as good as its bit pattern
(`Binary64.ofBits_toBits`, `Binary64.toBits_ofBits`).
-/

theorem gapExponent_of_lt {k : ℕ} (h : k < Nat.pow 2 53) : gapExponent k = 0 := by
  by_cases hk : k = 0
  · rw [hk]
    decide
  · have hlog := (Nat.log2_lt hk).mpr h
    rw [gapExponent]
    omega

theorem two_pow_le_mul {k a : ℕ} (h : Nat.pow 2 a ≤ k) (e : ℕ) :
    Nat.pow 2 (a + e) ≤ k * Nat.pow 2 e := by
  have hadd : Nat.pow 2 (a + e) = Nat.pow 2 a * Nat.pow 2 e := Nat.pow_add ..
  rw [hadd]
  exact Nat.mul_le_mul_right _ h

theorem mul_lt_two_pow {k a : ℕ} (h : k < Nat.pow 2 a) (e : ℕ) :
    k * Nat.pow 2 e < Nat.pow 2 (a + e) := by
  have hadd : Nat.pow 2 (a + e) = Nat.pow 2 a * Nat.pow 2 e := Nat.pow_add ..
  rw [hadd]
  exact Nat.mul_lt_mul_of_pos_right h (Nat.pow_pos (by decide))

/-- A significand that uses all its bits, shifted into place, shows the width of its gap. -/
theorem gapExponent_mul_two_pow {k e : ℕ} (hlower : Nat.pow 2 52 ≤ k) (hupper : k < Nat.pow 2 53) :
    gapExponent (k * Nat.pow 2 e) = e := by
  have hne : k * Nat.pow 2 e ≠ 0 :=
    (Nat.lt_of_lt_of_le (Nat.pow_pos (by decide)) (two_pow_le_mul hlower e)).ne'
  have hle := (Nat.le_log2 hne).mpr (two_pow_le_mul hlower e)
  have hlt := (Nat.log2_lt hne).mpr (mul_lt_two_pow hupper e)
  rw [gapExponent]
  omega

theorem mul_two_pow_lt_bound {k e : ℕ} (hk : k < Nat.pow 2 53) (he : e < 2046) :
    k * Nat.pow 2 e < bound := by
  refine Nat.lt_of_lt_of_le (mul_lt_two_pow hk e) ?_
  have hle : 53 + e ≤ 2098 := by omega
  unfold bound
  -- the exponent is generalized so that nothing computes the power
  generalize 2098 = d at hle
  exact Nat.pow_le_pow_right (by decide) hle

theorem lt_of_mul_two_pow_lt_bound {k e : ℕ} (hk : Nat.pow 2 52 ≤ k)
    (h : k * Nat.pow 2 e < bound) : e < 2046 := by
  have hlt : Nat.pow 2 (52 + e) < bound := Nat.lt_of_le_of_lt (two_pow_le_mul hk e) h
  have hexponent : 52 + e < 2098 := by
    unfold bound at hlt
    generalize 2098 = d at hlt ⊢
    exact (Nat.pow_lt_pow_iff_right (by decide)).mp hlt
  omega

/-! ### Fields -/

/-- The count of quanta that an exponent field and a fraction stand for. -/
def ofFields (exponent fraction : ℕ) : ℕ :=
  if exponent = 0 then fraction
  else (Nat.pow 2 52 + fraction) * Nat.pow 2 (exponent - 1)

section Fields

variable {exponent fraction : ℕ} (hfraction : fraction < Nat.pow 2 52)
include hfraction

theorem representable_ofFields (hexponent : exponent < 2047) :
    Representable (ofFields exponent fraction) := by
  have h53 : Nat.pow 2 53 = Nat.pow 2 52 + Nat.pow 2 52 := by decide
  rw [ofFields]
  split
  · have hlt : fraction < Nat.pow 2 53 := by omega
    have hbound : fraction * Nat.pow 2 0 < bound := mul_two_pow_lt_bound hlt (by decide)
    have hone : fraction * Nat.pow 2 0 = fraction := Nat.mul_one fraction
    rw [hone] at hbound
    refine ⟨?_, hbound⟩
    rw [gapExponent_of_lt hlt]
    exact Nat.one_dvd fraction
  · exact ⟨dvd_mul_two_pow (by omega), mul_two_pow_lt_bound (by omega) (by omega)⟩

theorem magnitudeBits_ofFields :
    Binary64.magnitudeBits (ofFields exponent fraction) = fraction + exponent * Nat.pow 2 52 := by
  have h53 : Nat.pow 2 53 = Nat.pow 2 52 + Nat.pow 2 52 := by decide
  rw [ofFields, Binary64.magnitudeBits]
  split
  · next hexponent =>
    rw [gapExponent_of_lt (by omega), hexponent]
    exact congrArg (· + 0 * Nat.pow 2 52) (Nat.div_one fraction)
  · next hexponent =>
    -- the first bit of the significand counts as one in the exponent field
    obtain ⟨e, rfl⟩ := Nat.exists_eq_succ_of_ne_zero hexponent
    have hpos : 0 < Nat.pow 2 e := Nat.pow_pos (by decide)
    rw [Nat.succ_sub_one, gapExponent_mul_two_pow (by omega) (by omega),
      Nat.mul_div_cancel _ hpos, Nat.succ_mul]
    omega

end Fields

theorem exists_ofFields_eq {n : ℕ} (h : Representable n) :
    ∃ exponent fraction, exponent < 2047 ∧ fraction < Nat.pow 2 52
      ∧ n = ofFields exponent fraction := by
  have h53 : Nat.pow 2 53 = Nat.pow 2 52 + Nat.pow 2 52 := by decide
  obtain ⟨k, hk, hlt, hgaps⟩ := OnGrid.exists_eq_mul h.1
  generalize gapExponent n = e at hk hgaps
  rcases Nat.lt_or_ge k (Nat.pow 2 52) with hsmall | hlarge
  · -- a magnitude with bits to spare has the least gap
    obtain rfl : e = 0 := hgaps.resolve_right (by omega)
    exact ⟨0, k, by decide, hsmall, hk.trans (Nat.mul_one k)⟩
  · have he : e < 2046 := lt_of_mul_two_pow_lt_bound hlarge (hk ▸ h.2)
    refine ⟨e + 1, k - Nat.pow 2 52, by omega, by omega, ?_⟩
    rw [ofFields, if_neg (Nat.succ_ne_zero e), Nat.add_sub_cancel, Nat.add_sub_of_le hlarge]
    exact hk

end Quanta

namespace Binary64

/-! ### Patterns -/

theorem ofBits_eq_finite {bits : UInt64} {negative : Bool} {exponent fraction : ℕ}
    (hfraction : fraction < Nat.pow 2 52) (hexponent : exponent < 2047)
    (h : bits.toNat
      = (if negative then Nat.pow 2 63 else 0) + (fraction + exponent * Nat.pow 2 52)) :
    ofBits bits = .finite negative (Quanta.ofFields exponent fraction)
      (Quanta.representable_ofFields hfraction hexponent) := by
  have h52 : Nat.pow 2 52 = 4503599627370496 := by decide
  have h63 : Nat.pow 2 63 = 9223372036854775808 := by decide
  have h11 : Nat.pow 2 11 = 2048 := by decide
  have hsign : decide (Nat.pow 2 63 ≤ bits.toNat) = negative := by
    rw [h52] at hfraction h
    rw [h63] at h ⊢
    cases negative with
    | false => exact decide_eq_false (by simp only [Bool.false_eq_true, if_false] at h; omega)
    | true => exact decide_eq_true (by simp only [if_true] at h; omega)
  have hfield : bits.toNat / Nat.pow 2 52 % Nat.pow 2 11 = exponent := by
    rw [h52, h63] at h
    rw [h52] at hfraction ⊢
    rw [h11]
    split at h
    · omega
    · omega
  have hrest : bits.toNat % Nat.pow 2 52 = fraction := by
    rw [h52, h63] at h
    rw [h52] at hfraction ⊢
    split at h
    · omega
    · omega
  have hrepresentable := Quanta.representable_ofFields hfraction hexponent
  simp only [ofBits, hsign, hfield, hrest, if_neg hexponent.ne]
  rw [← ofRatio_eq_finite (Quanta.round_one hrepresentable) hrepresentable, Quanta.ofFields]
  split
  · rfl
  · rfl

theorem toNat_eq_fields (bits : UInt64) :
    bits.toNat = (if decide (Nat.pow 2 63 ≤ bits.toNat) = true then Nat.pow 2 63 else 0)
      + (bits.toNat % Nat.pow 2 52 + bits.toNat / Nat.pow 2 52 % Nat.pow 2 11 * Nat.pow 2 52) := by
  have h52 : Nat.pow 2 52 = 4503599627370496 := by decide
  have h63 : Nat.pow 2 63 = 9223372036854775808 := by decide
  have h11 : Nat.pow 2 11 = 2048 := by decide
  have hlt := bits.toNat_lt
  rw [h52, h63, h11]
  split
  · next h =>
    have hle := of_decide_eq_true h
    omega
  · next h =>
    have hle := of_decide_eq_false (Bool.eq_false_iff.mpr h)
    omega

/-- The pattern of a number that is no NaN is the one that the number was taken from. -/
theorem toBits_ofBits {bits : UInt64} (h : ofBits bits ≠ .nan) : (ofBits bits).toBits = bits := by
  have h52 : Nat.pow 2 52 = 4503599627370496 := by decide
  have h11 : Nat.pow 2 11 = 2048 := by decide
  have hfields := toNat_eq_fields bits
  have hfraction : bits.toNat % Nat.pow 2 52 < Nat.pow 2 52 := Nat.mod_lt _ (by decide)
  by_cases hlast : bits.toNat / Nat.pow 2 52 % Nat.pow 2 11 = 2047
  · have hinfinite : bits.toNat % Nat.pow 2 52 = 0 := by
      by_contra hne
      exact h (by simp only [ofBits, hlast, if_true, if_neg hne])
    have heq : ofBits bits = .infinite (decide (Nat.pow 2 63 ≤ bits.toNat)) := by
      simp only [ofBits, hlast, hinfinite, if_true]
    rw [hlast, hinfinite, Nat.zero_add] at hfields
    rw [heq, toBits, ← hfields, UInt64.ofNat_toNat]
  · have hexponent : bits.toNat / Nat.pow 2 52 % Nat.pow 2 11 < 2047 := by
      have hlt := Nat.mod_lt (bits.toNat / Nat.pow 2 52) (y := Nat.pow 2 11) (by decide)
      omega
    rw [ofBits_eq_finite hfraction hexponent hfields, toBits,
      Quanta.magnitudeBits_ofFields hfraction, ← hfields, UInt64.ofNat_toNat]

theorem ofBits_toBits (x : Binary64) : ofBits x.toBits = x := by
  cases x with
  | nan => decide
  | infinite negative =>
    cases negative with
    | false | true => decide
  | finite negative n hn =>
    obtain ⟨exponent, fraction, hexponent, hfraction, rfl⟩ := Quanta.exists_ofFields_eq hn
    refine ofBits_eq_finite hfraction hexponent ?_
    have h52 : Nat.pow 2 52 = 4503599627370496 := by decide
    have h63 : Nat.pow 2 63 = 9223372036854775808 := by decide
    rw [toBits, Quanta.magnitudeBits_ofFields hfraction]
    refine UInt64.toNat_ofNat_of_lt' ?_
    rw [h52] at hfraction ⊢
    rw [h63]
    have hsize : UInt64.size = 18446744073709551616 := by decide
    rw [hsize]
    split
    · omega
    · omega

end Binary64

end Abacus
