import Abacus.Proofs.Binary64.Rounding
import Mathlib.Algebra.Order.Field.Rat
import Mathlib.Tactic.FieldSimp
import Mathlib.Tactic.Linarith
import Mathlib.Tactic.Positivity
import Mathlib.Tactic.Ring

/-!
# The nearest number

What it means to round correctly, said without bits and remainders. The grid holds the counts of
quanta that would be representable if the format had no upper limit. A rational count of quanta is
rounded to the point of the grid nearest to it, and from two that are equally near to the one whose
last bit is zero (`IsNearest`). There is only one such point, and `round` finds it.

A rational number is rounded to the number of its sign whose count of quanta is nearest, or to an
infinity where that count exceeds the limit (`Binary64.RoundsTo`). So of two numbers that a rational
rounds to, both are the same, or both are zero.
-/

namespace Abacus

namespace Quanta

/-! ## The grid -/

/-- Nothing but the upper limit keeps this count of quanta from being representable. -/
def OnGrid (n : ℕ) : Prop := Nat.pow 2 (gapExponent n) ∣ n

/-- The last bit in use of a count of quanta is zero. -/
def EndsEven (n : ℕ) : Prop := Nat.pow 2 (gapExponent n + 1) ∣ n

/-- The point of the grid that is nearest to a rational count of quanta, and even in a tie. -/
structure IsNearest (q : ℚ) (n : ℕ) : Prop where
  onGrid : OnGrid n
  dist_le : ∀ m, OnGrid m → |q - n| ≤ |q - m|
  endsEven : ∀ m, OnGrid m → m ≠ n → |q - m| = |q - n| → EndsEven n

theorem pow_dvd_of_lt {e m : ℕ} (hm : OnGrid m) (h : Nat.pow 2 52 * Nat.pow 2 e < m) :
    Nat.pow 2 e ∣ m := by
  have hsum : Nat.pow 2 52 * Nat.pow 2 e = Nat.pow 2 (52 + e) := (Nat.pow_add 2 52 e).symm
  rw [hsum] at h
  have hlog : 52 + e ≤ m.log2 := (Nat.le_log2 (by omega)).mpr (Nat.le_of_lt h)
  have hgap : e ≤ gapExponent m := by
    rw [gapExponent]
    omega
  exact Nat.dvd_trans (Nat.pow_dvd_pow 2 hgap) hm

theorem OnGrid.le_or_le {e k m : ℕ} (hm : OnGrid m) (hk : e = 0 ∨ Nat.pow 2 52 ≤ k) :
    m ≤ k * Nat.pow 2 e ∨ (k + 1) * Nat.pow 2 e ≤ m := by
  by_contra! h
  obtain ⟨hlow, hhigh⟩ := h
  have hdvd : Nat.pow 2 e ∣ m := by
    rcases hk with rfl | hk
    · exact Nat.one_dvd m
    · exact pow_dvd_of_lt hm (lt_of_le_of_lt (Nat.mul_le_mul_right _ hk) hlow)
  obtain ⟨c, rfl⟩ := hdvd
  rw [Nat.mul_comm _ c] at hlow hhigh
  have hkc := Nat.lt_of_mul_lt_mul_right hlow
  have hck := Nat.lt_of_mul_lt_mul_right hhigh
  omega

theorem endsEven_mul {k e : ℕ} (hk : k ≤ Nat.pow 2 53) (heven : k % 2 = 0) :
    EndsEven (k * Nat.pow 2 e) := by
  obtain ⟨i, rfl⟩ := Nat.dvd_of_mod_eq_zero heven
  have hi : i ≤ Nat.pow 2 52 := by
    have h53 : Nat.pow 2 53 = 2 * Nat.pow 2 52 := by decide
    omega
  have heq : 2 * i * Nat.pow 2 e = i * Nat.pow 2 (e + 1) := by
    have hsucc : Nat.pow 2 (e + 1) = Nat.pow 2 e * 2 := rfl
    rw [hsucc, Nat.mul_comm 2 i, Nat.mul_assoc, Nat.mul_comm 2]
  rw [heq, EndsEven]
  rcases Nat.lt_or_eq_of_le hi with hlt | rfl
  · -- with a bit to spare the gap is that of the shift at most
    refine Nat.dvd_trans (Nat.pow_dvd_pow 2 ?_) (Nat.dvd_mul_left _ _)
    by_cases h0 : i * Nat.pow 2 (e + 1) = 0
    · rw [h0]
      exact Nat.le_add_left 1 e
    · have hbound : i * Nat.pow 2 (e + 1) < Nat.pow 2 (52 + (e + 1)) := by
        have hadd : Nat.pow 2 (52 + (e + 1)) = Nat.pow 2 52 * Nat.pow 2 (e + 1) := Nat.pow_add ..
        rw [hadd]
        exact (Nat.mul_lt_mul_right (Nat.pow_pos (by decide))).mpr hlt
      have hlog := (Nat.log2_lt h0).mpr hbound
      rw [gapExponent]
      omega
  · have hadd : Nat.pow 2 52 * Nat.pow 2 (e + 1) = Nat.pow 2 (52 + (e + 1)) :=
      (Nat.pow_add ..).symm
    have hlog : (Nat.pow 2 (52 + (e + 1))).log2 = 52 + (e + 1) := Nat.log2_two_pow
    rw [hadd]
    refine Nat.pow_dvd_pow 2 ?_
    rw [gapExponent, hlog]
    omega

theorem not_endsEven_mul {k e : ℕ} (hk : Nat.pow 2 52 ≤ k) (hodd : k % 2 = 1) :
    ¬EndsEven (k * Nat.pow 2 e) := by
  intro h
  have hle : Nat.pow 2 (52 + e) ≤ k * Nat.pow 2 e := by
    have hadd : Nat.pow 2 (52 + e) = Nat.pow 2 52 * Nat.pow 2 e := Nat.pow_add ..
    rw [hadd]
    exact Nat.mul_le_mul_right _ hk
  have hpos : 0 < Nat.pow 2 e := Nat.pow_pos (by decide)
  have hgap : e + 1 ≤ gapExponent (k * Nat.pow 2 e) + 1 := by
    have hne : k * Nat.pow 2 e ≠ 0 := Nat.mul_ne_zero (by omega) hpos.ne'
    have hlog := (Nat.le_log2 hne).mpr hle
    rw [gapExponent]
    omega
  have hdvd : Nat.pow 2 (e + 1) ∣ k * Nat.pow 2 e := Nat.dvd_trans (Nat.pow_dvd_pow 2 hgap) h
  have hsucc : Nat.pow 2 (e + 1) = 2 * Nat.pow 2 e := Nat.mul_comm _ _
  rw [hsucc] at hdvd
  have htwo := Nat.dvd_of_mul_dvd_mul_right hpos hdvd
  omega

/-! ## The neighbours of a ratio -/

section Neighbours

variable (num den : ℕ)

/-- How many gaps of its own size a ratio has below it. -/
def gapsBelow : ℕ := num / (den * Nat.pow 2 (ratioExponent num den))

theorem gapsBelow_lt : gapsBelow num den < Nat.pow 2 53 := div_ratio_lt num den

theorem le_gapsBelow : ratioExponent num den = 0 ∨ Nat.pow 2 52 ≤ gapsBelow num den := by
  by_cases hexp : ratioExponent num den = 0
  · exact .inl hexp
  right
  have hlog : (num / den).log2 = 52 + ratioExponent num den := by
    have hgap : ratioExponent num den = (num / den).log2 - 52 := rfl
    omega
  have hne : num / den ≠ 0 := by
    intro h0
    rw [ratioExponent, h0] at hexp
    exact hexp rfl
  have hle : Nat.pow 2 (52 + ratioExponent num den) ≤ num / den := by
    rw [← hlog]
    exact Nat.log2_self_le hne
  have hadd : Nat.pow 2 (52 + ratioExponent num den)
      = Nat.pow 2 52 * Nat.pow 2 (ratioExponent num den) := Nat.pow_add ..
  rw [hadd] at hle
  rw [gapsBelow, ← Nat.div_div_eq_div_mul]
  exact (Nat.le_div_iff_mul_le (Nat.pow_pos (by decide))).mpr hle

/-- A ratio is rounded to the next point of the grid below or above it. -/
theorem round_cases :
    (round num den = gapsBelow num den * Nat.pow 2 (ratioExponent num den)
      ∧ 2 * (num % (den * Nat.pow 2 (ratioExponent num den)))
        ≤ den * Nat.pow 2 (ratioExponent num den)
      ∧ (2 * (num % (den * Nat.pow 2 (ratioExponent num den)))
        = den * Nat.pow 2 (ratioExponent num den) → gapsBelow num den % 2 = 0))
    ∨ (round num den = (gapsBelow num den + 1) * Nat.pow 2 (ratioExponent num den)
      ∧ den * Nat.pow 2 (ratioExponent num den)
        ≤ 2 * (num % (den * Nat.pow 2 (ratioExponent num den)))
      ∧ (2 * (num % (den * Nat.pow 2 (ratioExponent num den)))
        = den * Nat.pow 2 (ratioExponent num den) → (gapsBelow num den + 1) % 2 = 0)) := by
  rw [round, roundDiv, ← gapsBelow]
  generalize num % (den * Nat.pow 2 (ratioExponent num den)) = r
  generalize den * Nat.pow 2 (ratioExponent num den) = d
  split
  · next h => exact .inl ⟨rfl, by omega, by omega⟩
  · next h => exact .inr ⟨rfl, by omega, by omega⟩

end Neighbours

/-! ## Nearness -/

theorem dist_lower_le {q a g m : ℚ} (ha : a ≤ q) (hhalf : 2 * (q - a) ≤ g)
    (hm : m ≤ a ∨ a + g ≤ m) :
    |q - a| ≤ |q - m| ∧ (m ≠ a → |q - m| = |q - a| → 2 * (q - a) = g) := by
  rw [abs_of_nonneg (by linarith : 0 ≤ q - a)]
  rcases hm with hm | hm
  · rw [abs_of_nonneg (by linarith : 0 ≤ q - m)]
    refine ⟨by linarith, fun hne heq ↦ absurd ?_ hne⟩
    linarith
  · rw [abs_of_nonpos (by linarith : q - m ≤ 0)]
    exact ⟨by linarith, fun _ heq ↦ by linarith⟩

theorem dist_upper_le {q a g m : ℚ} (hb : q ≤ a + g) (hhalf : g ≤ 2 * (q - a))
    (hm : m ≤ a ∨ a + g ≤ m) :
    |q - (a + g)| ≤ |q - m| ∧ (m ≠ a + g → |q - m| = |q - (a + g)| → 2 * (q - a) = g) := by
  rw [abs_of_nonpos (by linarith : q - (a + g) ≤ 0)]
  rcases hm with hm | hm
  · rw [abs_of_nonneg (by linarith : 0 ≤ q - m)]
    exact ⟨by linarith, fun _ heq ↦ by linarith⟩
  · rw [abs_of_nonpos (by linarith : q - m ≤ 0)]
    refine ⟨by linarith, fun hne heq ↦ absurd ?_ hne⟩
    linarith

section Interval

variable {q : ℚ} {k e : ℕ}

theorem OnGrid.cast_le_or_le {m : ℕ} (hm : OnGrid m) (hk : e = 0 ∨ Nat.pow 2 52 ≤ k) :
    (m : ℚ) ≤ (k * Nat.pow 2 e : ℕ)
      ∨ ((k * Nat.pow 2 e : ℕ) + (Nat.pow 2 e : ℕ) : ℚ) ≤ m := by
  rcases hm.le_or_le hk with h | h
  · exact .inl (Nat.cast_le.mpr h)
  · rw [Nat.succ_mul] at h
    exact .inr (by exact_mod_cast h)

theorem isNearest_lower (hk53 : k ≤ Nat.pow 2 53) (hk : e = 0 ∨ Nat.pow 2 52 ≤ k)
    (hle : ((k * Nat.pow 2 e : ℕ) : ℚ) ≤ q)
    (hhalf : 2 * (q - (k * Nat.pow 2 e : ℕ)) ≤ (Nat.pow 2 e : ℕ))
    (htie : 2 * (q - (k * Nat.pow 2 e : ℕ)) = (Nat.pow 2 e : ℕ) → k % 2 = 0) :
    IsNearest q (k * Nat.pow 2 e) := by
  constructor
  · exact dvd_mul_two_pow hk53
  · intro m hm
    exact (dist_lower_le hle hhalf (hm.cast_le_or_le hk)).1
  · intro m hm hne heq
    have hne' : (m : ℚ) ≠ (k * Nat.pow 2 e : ℕ) := by exact_mod_cast hne
    exact endsEven_mul hk53 (htie ((dist_lower_le hle hhalf (hm.cast_le_or_le hk)).2 hne' heq))

theorem isNearest_upper (hk53 : k + 1 ≤ Nat.pow 2 53) (hk : e = 0 ∨ Nat.pow 2 52 ≤ k)
    (hle : q ≤ (k * Nat.pow 2 e : ℕ) + (Nat.pow 2 e : ℕ))
    (hhalf : (Nat.pow 2 e : ℕ) ≤ 2 * (q - (k * Nat.pow 2 e : ℕ)))
    (htie : 2 * (q - (k * Nat.pow 2 e : ℕ)) = (Nat.pow 2 e : ℕ) → (k + 1) % 2 = 0) :
    IsNearest q ((k + 1) * Nat.pow 2 e) := by
  have hcast : (((k + 1) * Nat.pow 2 e : ℕ) : ℚ) = (k * Nat.pow 2 e : ℕ) + (Nat.pow 2 e : ℕ) := by
    rw [Nat.succ_mul, Nat.cast_add]
  constructor
  · exact dvd_mul_two_pow hk53
  · intro m hm
    rw [hcast]
    exact (dist_upper_le hle hhalf (hm.cast_le_or_le hk)).1
  · intro m hm hne heq
    have hne' : (m : ℚ) ≠ (k * Nat.pow 2 e : ℕ) + (Nat.pow 2 e : ℕ) := by
      rw [← hcast]
      exact_mod_cast hne
    rw [hcast] at heq
    exact endsEven_mul hk53 (htie ((dist_upper_le hle hhalf (hm.cast_le_or_le hk)).2 hne' heq))

end Interval

/-- Twice the distance of a ratio from a point of the grid below it, compared with the gap. -/
theorem compare_dist {num den k w r : ℕ} (hden : 0 < den) (hsum : den * w * k + r = num) :
    (2 * r ≤ den * w ↔ 2 * ((num / den : ℚ) - (k * w : ℕ)) ≤ w)
    ∧ (den * w ≤ 2 * r ↔ (w : ℚ) ≤ 2 * ((num / den : ℚ) - (k * w : ℕ))) := by
  have hd : (0 : ℚ) < den := by exact_mod_cast hden
  have hdist : 2 * ((num / den : ℚ) - (k * w : ℕ)) = (2 * r : ℕ) / den := by
    rw [eq_div_iff hd.ne', ← hsum]
    push_cast
    field_simp
    ring
  have hgap : (w : ℚ) = (den * w : ℕ) / den := by
    rw [eq_div_iff hd.ne']
    push_cast
    ring
  constructor
  · rw [hdist, hgap, div_le_div_iff_of_pos_right hd, Nat.cast_le]
  · rw [hdist, hgap, div_le_div_iff_of_pos_right hd, Nat.cast_le]

theorem le_div_and_div_le {num den k w r : ℕ} (hden : 0 < den) (hsum : den * w * k + r = num)
    (hr : r < den * w) : ((k * w : ℕ) : ℚ) ≤ num / den ∧ (num / den : ℚ) ≤ (k * w : ℕ) + w := by
  have hd : (0 : ℚ) < den := by exact_mod_cast hden
  rw [le_div_iff₀ hd, div_le_iff₀ hd, ← hsum]
  constructor
  · exact_mod_cast (by nlinarith : k * w * den ≤ den * w * k + r)
  · exact_mod_cast (by nlinarith : den * w * k + r ≤ (k * w + w) * den)

/-- **Rounding finds the nearest point of the grid.** -/
theorem isNearest_round (num : ℕ) {den : ℕ} (hden : 0 < den) :
    IsNearest (num / den : ℚ) (round num den) := by
  have hlt := gapsBelow_lt num den
  have hgaps := le_gapsBelow num den
  have hr : num % (den * Nat.pow 2 (ratioExponent num den))
      < den * Nat.pow 2 (ratioExponent num den) :=
    Nat.mod_lt num (Nat.mul_pos hden (Nat.pow_pos (by decide)))
  have hsum : den * Nat.pow 2 (ratioExponent num den) * gapsBelow num den
      + num % (den * Nat.pow 2 (ratioExponent num den)) = num := Nat.div_add_mod ..
  obtain ⟨hle, hge⟩ := compare_dist hden hsum
  obtain ⟨hbelow, habove⟩ := le_div_and_div_le hden hsum hr
  rcases round_cases num den with ⟨hround, hhalf, htie⟩ | ⟨hround, hhalf, htie⟩
  · rw [hround]
    refine isNearest_lower hlt.le hgaps hbelow (hle.mp hhalf) fun h ↦ htie ?_
    exact Nat.le_antisymm hhalf (hge.mpr h.ge)
  · rw [hround]
    refine isNearest_upper hlt hgaps habove (hge.mp hhalf) fun h ↦ htie ?_
    exact Nat.le_antisymm (hle.mpr h.le) hhalf

/-! ## Only one point is nearest -/

/-- A point of the grid is a whole number of its gaps, and no more than the format has. -/
theorem OnGrid.exists_eq_mul {n : ℕ} (hn : OnGrid n) : ∃ k, n = k * Nat.pow 2 (gapExponent n)
    ∧ k < Nat.pow 2 53 ∧ (gapExponent n = 0 ∨ Nat.pow 2 52 ≤ k) := by
  have hexp : ratioExponent n 1 = gapExponent n := by rw [ratioExponent, Nat.div_one]
  have hlt := gapsBelow_lt n 1
  have hgaps := le_gapsBelow n 1
  rw [gapsBelow, hexp, Nat.one_mul] at hlt hgaps
  exact ⟨n / Nat.pow 2 (gapExponent n), (Nat.div_mul_cancel hn).symm, hlt, hgaps⟩

theorem OnGrid.add_gap {n : ℕ} (hn : OnGrid n) : OnGrid (n + Nat.pow 2 (gapExponent n))
    ∧ ∀ m, OnGrid m → n < m → n + Nat.pow 2 (gapExponent n) ≤ m := by
  obtain ⟨k, hk, hlt, hgaps⟩ := hn.exists_eq_mul
  have hnext : n + Nat.pow 2 (gapExponent n) = (k + 1) * Nat.pow 2 (gapExponent n) := by
    rw [Nat.succ_mul, ← hk]
  rw [hnext]
  constructor
  · exact dvd_mul_two_pow hlt
  · intro m hm hnm
    exact (hm.le_or_le hgaps).resolve_left (by omega)

/-- Of two neighbours on the grid one is odd. -/
theorem not_endsEven_add_gap {n : ℕ} (hn : EndsEven n) :
    ¬EndsEven (n + Nat.pow 2 (gapExponent n)) := by
  intro h
  have hmono : gapExponent n + 1 ≤ gapExponent (n + Nat.pow 2 (gapExponent n)) + 1 :=
    Nat.succ_le_succ (gapExponent_mono (Nat.le_add_right n _))
  have hsum : Nat.pow 2 (gapExponent n + 1) ∣ n + Nat.pow 2 (gapExponent n) :=
    Nat.dvd_trans (Nat.pow_dvd_pow 2 hmono) h
  have hgap := (Nat.dvd_add_right hn).mp hsum
  have hle : Nat.pow 2 (gapExponent n) * 2 ≤ Nat.pow 2 (gapExponent n) :=
    Nat.le_of_dvd (Nat.pow_pos (by decide)) hgap
  have hpos : 0 < Nat.pow 2 (gapExponent n) := Nat.pow_pos (by decide)
  omega

theorem IsNearest.not_lt {q : ℚ} {n m : ℕ} (hn : IsNearest q n) (hm : IsNearest q m) :
    ¬n < m := by
  intro hlt
  have heq : |q - n| = |q - m| := le_antisymm (hn.dist_le m hm.onGrid) (hm.dist_le n hn.onGrid)
  have hlt' : (n : ℚ) < m := by exact_mod_cast hlt
  -- the rational is in the middle between the two
  have hmid : q - n = m - q := by
    rcases abs_eq_abs.mp heq with h | h
    · linarith
    · linarith
  obtain ⟨hgrid, hnext⟩ := hn.onGrid.add_gap
  -- and there is no third point between them
  have hneighbour : n + Nat.pow 2 (gapExponent n) = m := by
    refine Nat.le_antisymm (hnext m hm.onGrid hlt) (Nat.le_of_not_lt fun hbetween ↦ ?_)
    have hdist := hm.dist_le _ hgrid
    have hpos : (0 : ℚ) < (Nat.pow 2 (gapExponent n) : ℕ) := by
      exact_mod_cast Nat.pow_pos (by decide)
    have hbetween' : ((n + Nat.pow 2 (gapExponent n) : ℕ) : ℚ) < m := by exact_mod_cast hbetween
    rw [Nat.cast_add] at hdist hbetween'
    rw [abs_of_nonpos (by linarith : q - m ≤ 0)] at hdist
    rcases le_abs.mp hdist with h | h
    · linarith
    · linarith
  have heven : EndsEven n := hn.endsEven m hm.onGrid hlt.ne' heq.symm
  have heven' : EndsEven m := hm.endsEven n hn.onGrid hlt.ne heq
  rw [← hneighbour] at heven'
  exact not_endsEven_add_gap heven heven'

/-- No two points are nearest: in a tie one of two neighbours is odd. -/
theorem IsNearest.eq {q : ℚ} {n m : ℕ} (hn : IsNearest q n) (hm : IsNearest q m) : n = m :=
  Nat.le_antisymm (Nat.le_of_not_lt (hm.not_lt hn)) (Nat.le_of_not_lt (hn.not_lt hm))

/-! ## Bounds on the grid -/

theorem IsNearest.le_of_le {q : ℚ} {n g : ℕ} (hn : IsNearest q n) (hg : OnGrid g) (h : q ≤ g) :
    n ≤ g := by
  by_contra! hlt
  have hlt' : (g : ℚ) < n := by exact_mod_cast hlt
  have hdist := hn.dist_le g hg
  rw [abs_of_nonpos (by linarith : q - n ≤ 0), abs_of_nonpos (by linarith : q - g ≤ 0)] at hdist
  linarith

theorem IsNearest.le_of_ge {q : ℚ} {n g : ℕ} (hn : IsNearest q n) (hg : OnGrid g) (h : g ≤ q) :
    g ≤ n := by
  by_contra! hlt
  have hlt' : (n : ℚ) < g := by exact_mod_cast hlt
  have hdist := hn.dist_le g hg
  rw [abs_of_nonneg (by linarith : 0 ≤ q - n), abs_of_nonneg (by linarith : 0 ≤ q - g)] at hdist
  linarith

/-- Below a point of the grid, and behind an odd neighbour of it, exactly the upper half of the
rationals between the two is rounded up. -/
theorem IsNearest.eq_upper_iff {q : ℚ} {n a b : ℕ} (hn : IsNearest q n) (ha : OnGrid a)
    (hb : OnGrid b) (hab : a < b) (hodd : ¬EndsEven a)
    (hnone : ∀ g, OnGrid g → g ≤ a ∨ b ≤ g) (hq : q ≤ b) : n = b ↔ (a + b : ℚ) ≤ 2 * q := by
  have hab' : (a : ℚ) < b := by exact_mod_cast hab
  have hbq : |q - b| = b - q := by rw [abs_sub_comm, abs_of_nonneg (by linarith)]
  constructor
  · rintro rfl
    have hdist := hn.dist_le a ha
    rw [hbq] at hdist
    rcases le_abs.mp hdist with h | h
    · linarith
    · linarith
  · intro hhalf
    by_contra hne
    have hle : n ≤ a := (hnone n hn.onGrid).resolve_right fun hge ↦
      hne (Nat.le_antisymm (hn.le_of_le hb hq) hge)
    have hle' : (n : ℚ) ≤ a := by exact_mod_cast hle
    have hnq : |q - n| = q - n := abs_of_nonneg (by linarith)
    have hdist := hn.dist_le b hb
    rw [hbq, hnq] at hdist
    -- the point below can only be as near as the one above, and then it is the odd neighbour
    have heq : n = a := by
      have heq' : (n : ℚ) = a := by linarith
      exact_mod_cast heq'
    have heven := hn.endsEven b hb (Ne.symm hne) (by rw [hbq, hnq]; linarith)
    exact hodd (heq ▸ heven)

theorem onGrid_two_pow (e : ℕ) : OnGrid (Nat.pow 2 e) := by
  have hlog : (Nat.pow 2 e).log2 = e := Nat.log2_two_pow
  rw [OnGrid, gapExponent, hlog]
  exact Nat.pow_dvd_pow 2 (Nat.sub_le e 52)

end Quanta

namespace Binary64

/-! ## Correct rounding -/

/-- A rational number with a sign of its own. -/
def signedRat (negative : Bool) (q : ℚ) : ℚ := if negative then -q else q

/-- The rational number that a finite number is. -/
def toRat? : Binary64 → Option ℚ
  | finite negative n _ => some (signedRat negative (n / Quanta.one))
  | _ => none

theorem toRat?_of_isZero {x : Binary64} (h : x.isZero = true) : x.toRat? = some 0 := by
  rcases x with _ | _ | ⟨negative, n, hn⟩
  · cases h
  · cases h
  obtain rfl : n = 0 := of_decide_eq_true h
  rcases negative with _ | _
  · simp [toRat?, signedRat]
  · simp [toRat?, signedRat]

/-- A number that a rational number is rounded to: of its sign, with the nearest count of quanta, as
long as that is within the limit of the format. The sign of a zero is free. -/
inductive RoundsTo (v : ℚ) : Binary64 → Prop where
  | finite {negative : Bool} {n : ℕ} {h : Quanta.Representable n}
      (hnear : Quanta.IsNearest (|v| * Quanta.one) n) (hsign : n = 0 ∨ (negative = true ↔ v < 0)) :
    RoundsTo v (.finite negative n h)
  | infinite {negative : Bool} {n : ℕ} (hnear : Quanta.IsNearest (|v| * Quanta.one) n)
      (hbound : Quanta.bound ≤ n) (hsign : negative = true ↔ v < 0) :
    RoundsTo v (.infinite negative)

theorem abs_signedRat (negative : Bool) {q : ℚ} (hq : 0 ≤ q) : |signedRat negative q| = q := by
  cases negative with
  | true => exact (abs_neg q).trans (abs_of_nonneg hq)
  | false => exact abs_of_nonneg hq

theorem signedRat_lt_zero_iff {negative : Bool} {q : ℚ} (hq : 0 < q) :
    negative = true ↔ signedRat negative q < 0 := by
  cases negative with
  | true => exact ⟨fun _ ↦ neg_lt_zero.mpr hq, fun _ ↦ rfl⟩
  | false => exact ⟨nofun, fun h ↦ absurd h hq.not_gt⟩

/-- **Ratios are rounded correctly.** -/
theorem roundsTo_ofRatio (negative : Bool) (num : ℕ) {den : ℕ} (hden : 0 < den) :
    RoundsTo (signedRat negative (num / den / Quanta.one)) (ofRatio negative num den) := by
  have hone : (0 : ℚ) < Quanta.one := by exact_mod_cast Quanta.one_pos
  have hnear : Quanta.IsNearest (|signedRat negative (num / den / Quanta.one)| * Quanta.one)
      (Quanta.round num den) := by
    rw [abs_signedRat negative (by positivity), div_mul_cancel₀ _ hone.ne']
    exact Quanta.isNearest_round num hden
  have hsign : Quanta.round num den = 0
      ∨ (negative = true ↔ signedRat negative (num / den / Quanta.one) < 0) := by
    rcases Nat.eq_zero_or_pos num with rfl | hnum
    · left
      rw [Quanta.round, Quanta.roundDiv]
      simp [hden]
    · right
      have hd : (0 : ℚ) < den := by exact_mod_cast hden
      have hn : (0 : ℚ) < num := by exact_mod_cast hnum
      exact signedRat_lt_zero_iff (by positivity)
  rw [ofRatio]
  split
  · exact .finite hnear hsign
  · next hbound =>
    have hle : Quanta.bound ≤ Quanta.round num den := Nat.le_of_not_lt hbound
    have hpos := Quanta.bound_pos
    exact .infinite hnear hle (hsign.resolve_left (by omega))

theorem abs_sub_signedRat {v q : ℚ} {negative : Bool} (hq : 0 ≤ q)
    (hsign : q = 0 ∨ (negative = true ↔ v < 0)) : |v - signedRat negative q| = |(|v| - q)| := by
  rcases hsign with rfl | hsign
  · have hzero : signedRat negative 0 = 0 := by rw [signedRat, neg_zero, ite_self]
    rw [hzero, sub_zero, sub_zero, abs_abs]
  cases negative with
  | true =>
    rw [abs_of_neg (hsign.mp rfl), signedRat, if_pos rfl, ← abs_neg]
    congr 1
    ring
  | false =>
    have hv : 0 ≤ v := le_of_not_gt fun hv ↦ Bool.false_ne_true (hsign.mpr hv)
    rw [abs_of_nonneg hv, signedRat, if_neg Bool.false_ne_true]

theorem RoundsTo.dist_le {v : ℚ} {x y : Binary64} (h : RoundsTo v x) {a b : ℚ}
    (hx : x.toRat? = some a) (hy : y.toRat? = some b) : |v - a| ≤ |v - b| := by
  cases h with
  | infinite => cases hx
  | @finite negative n hn hnear hsign =>
    cases y with
    | nan => cases hy
    | infinite => cases hy
    | finite negative' m hm =>
      obtain rfl := Option.some.inj hx
      obtain rfl := Option.some.inj hy
      have hone : (0 : ℚ) < Quanta.one := by exact_mod_cast Quanta.one_pos
      have hscale (k : ℕ) : |(|v| - k / Quanta.one)| * Quanta.one = |(|v| * Quanta.one - k)| := by
        rw [← abs_of_pos hone, ← abs_mul, abs_of_pos hone, sub_mul, div_mul_cancel₀ _ hone.ne']
      calc |v - signedRat negative (n / Quanta.one)|
          = |(|v| - n / Quanta.one)| :=
            abs_sub_signedRat (by positivity) (hsign.imp_left fun hzero ↦ by simp [hzero])
        _ ≤ |(|v| - m / Quanta.one)| := by
            rw [← mul_le_mul_iff_of_pos_right hone, hscale, hscale]
            exact hnear.dist_le m hm.1
        _ = |(|v| - |signedRat negative' (m / Quanta.one)|)| := by
            rw [abs_signedRat negative' (by positivity)]
        _ ≤ |v - signedRat negative' (m / Quanta.one)| := abs_abs_sub_abs_le _ _

/-- Only the sign of a zero is left open by correct rounding. -/
theorem RoundsTo.eq_or_isZero {v : ℚ} {x y : Binary64} (hx : RoundsTo v x) (hy : RoundsTo v y) :
    x = y ∨ x.isZero = true ∧ y.isZero = true := by
  cases hx with
  | @finite negative n h hnear hsign =>
    cases hy with
    | @finite negative' n' h' hnear' hsign' =>
      obtain rfl := hnear.eq hnear'
      by_cases hn : n = 0
      · exact .inr ⟨by simp [isZero, hn], by simp [isZero, hn]⟩
      · left
        have hiff := (hsign.resolve_left hn).trans (hsign'.resolve_left hn).symm
        rw [Bool.eq_iff_iff.mpr hiff]
    | infinite hnear' hbound _ =>
      rw [← hnear.eq hnear'] at hbound
      exact absurd h.2 (Nat.not_lt_of_le hbound)
  | infinite hnear hbound hsign =>
    cases hy with
    | @finite _ _ h' hnear' _ =>
      rw [hnear.eq hnear'] at hbound
      exact absurd h'.2 (Nat.not_lt_of_le hbound)
    | infinite _ _ hsign' => exact .inl (congrArg _ (Bool.eq_iff_iff.mpr (hsign.trans hsign'.symm)))

end Binary64

end Abacus
