import Abacus.Binary64

/-!
# Rounding and whole numbers

What needs no more than the arithmetic of natural numbers.
-/

namespace Abacus

/-!
## Rounding

Rounding depends on the ratio alone, however it is written, and leaves a representable count of
quanta as it is.
-/

namespace Quanta

/-! ### Ratios -/

theorem roundDiv_mul_right (num den : Nat) {c : Nat} (hc : 0 < c) :
    roundDiv (num * c) (den * c) = roundDiv num den := by
  -- the comparison with a half, and with that a tie, scales with both sides
  have hlt : 2 * (num % den * c) < den * c ↔ 2 * (num % den) < den := by
    rw [← Nat.mul_assoc]
    exact Nat.mul_lt_mul_right hc
  have heq : 2 * (num % den * c) = den * c ↔ 2 * (num % den) = den := by
    rw [← Nat.mul_assoc]
    exact Nat.mul_right_cancel_iff hc
  simp only [roundDiv, Nat.mul_div_mul_right num den hc, Nat.mul_mod_mul_right, hlt, heq]

theorem round_mul_right (num den : Nat) {c : Nat} (hc : 0 < c) :
    round (num * c) (den * c) = round num den := by
  have hexp : ratioExponent (num * c) (den * c) = ratioExponent num den := by
    rw [ratioExponent, ratioExponent, Nat.mul_div_mul_right num den hc]
  rw [round, round, hexp, Nat.mul_right_comm, roundDiv_mul_right num _ hc]

theorem roundDiv_of_dvd {num den : Nat} (hden : 0 < den) (h : den ∣ num) :
    roundDiv num den = num / den := by
  rw [roundDiv, Nat.mod_eq_zero_of_dvd h]
  exact if_pos (.inl hden)

/-! ### Representable counts -/

theorem round_one {n : Nat} (h : Representable n) : round n 1 = n := by
  have hexp : ratioExponent n 1 = gapExponent n := by rw [ratioExponent, Nat.div_one]
  have hpos : 0 < Nat.pow 2 (gapExponent n) := Nat.pow_pos (by decide)
  rw [round, hexp, Nat.one_mul, roundDiv_of_dvd hpos h.1]
  exact Nat.div_mul_cancel h.1

theorem gapExponent_mono {m n : Nat} (h : m ≤ n) : gapExponent m ≤ gapExponent n := by
  refine Nat.sub_le_sub_right ?_ 52
  by_cases hm : m = 0
  · rw [hm, Nat.log2_zero]
    exact Nat.zero_le _
  · exact (Nat.le_log2 (by omega)).mpr (Nat.le_trans (Nat.log2_self_le hm) h)

/-- Without its fraction a representable count has no more bits than before. -/
theorem representable_whole {n : Nat} (h : Representable n) : Representable (n / one * one) := by
  have hle : n / one * one ≤ n := Nat.div_mul_le_self n one
  refine ⟨?_, Nat.lt_of_le_of_lt hle h.2⟩
  have hgap : gapExponent (n / one * one) ≤ gapExponent n := gapExponent_mono hle
  unfold one at hgap ⊢
  -- the exponent is generalized so that nothing computes the power
  generalize 1074 = e at hgap ⊢
  rcases Nat.le_total (gapExponent n) e with hsmall | hlarge
  · exact Nat.dvd_mul_left_of_dvd (Nat.pow_dvd_pow 2 (Nat.le_trans hgap hsmall)) _
  · -- so far from zero there is no fraction to drop
    have hdvd : Nat.pow 2 e ∣ n := Nat.dvd_trans (Nat.pow_dvd_pow 2 hlarge) h.1
    rw [Nat.div_mul_cancel hdvd]
    exact h.1

theorem round_mul_of_representable {n c : Nat} (h : Representable n) (hc : 0 < c) :
    round (n * c) c = n := by
  have hround := round_mul_right n 1 hc
  rwa [Nat.one_mul, round_one h] at hround

end Quanta

namespace Binary64

theorem ofRatio_ne_nan (negative : Bool) (num den : Nat) : ofRatio negative num den ≠ .nan := by
  rw [ofRatio]
  split
  · nofun
  · nofun

theorem ofRatio_eq_finite {negative : Bool} {num den n : Nat} (hround : Quanta.round num den = n)
    (h : Quanta.Representable n) : ofRatio negative num den = .finite negative n h := by
  subst hround
  rw [ofRatio, dif_pos h.2]

end Binary64

/-!
## Whole numbers

The whole part of a number is again a number of the format, so nothing is lost when it is rounded.
-/

theorem Quanta.one_pos : 0 < Quanta.one := by
  unfold Quanta.one
  -- the exponent is generalized so that nothing computes the power
  generalize 1074 = e
  exact Nat.pow_pos (by decide)

namespace Binary64

@[simp] theorem natAbs_signedQuanta (negative : Bool) (n : Nat) :
    (signedQuanta negative n).natAbs = n := by
  cases negative
  · exact Int.natAbs_natCast n
  · exact (Int.natAbs_neg n).trans (Int.natAbs_natCast n)

theorem signedQuanta_natAbs (n : Int) : signedQuanta (decide (n < 0)) n.natAbs = n := by
  by_cases hn : n < 0
  · rw [decide_eq_true hn]
    show -(n.natAbs : Int) = n
    omega
  · rw [decide_eq_false hn]
    show (n.natAbs : Int) = n
    omega

theorem representable_of_truncate {x : Binary64} {n : Int} (h : x.truncate = some n) :
    Quanta.Representable (n.natAbs * Quanta.one) := by
  cases x with
  | nan => cases h
  | infinite negative => cases h
  | finite negative quanta hquanta =>
    obtain rfl : signedQuanta negative (quanta / Quanta.one) = n := Option.some.inj h
    rw [natAbs_signedQuanta]
    exact Quanta.representable_whole hquanta

theorem ofInt_eq_finite {n : Int} (h : Quanta.Representable (n.natAbs * Quanta.one)) :
    ofInt n = .finite (decide (n < 0)) (n.natAbs * Quanta.one) h :=
  ofRatio_eq_finite (Quanta.round_one h) h

theorem truncate_ofInt {n : Int} (h : Quanta.Representable (n.natAbs * Quanta.one)) :
    (ofInt n).truncate = some n := by
  rw [ofInt_eq_finite h, truncate, Nat.mul_div_cancel _ Quanta.one_pos, signedQuanta_natAbs]

end Binary64

end Abacus
