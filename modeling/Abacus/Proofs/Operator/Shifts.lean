import Abacus.Proofs.Binary64.Integers
import Abacus.Proofs.Except
import Abacus.Proofs.Expression.Value
import Abacus.Proofs.Radix.Positional
import Mathlib.Data.Rat.Floor

/-!
# Shifts

A shift moves the bits of a signed 64-bit number. To the left that is a multiplication by a power of
two of which the lowest 64 bits are kept, to the right a division that is rounded down, whatever the
count (`shiftedLeft_eq_bmod`, `shiftedRight_eq_floor`). As its operand is a whole part, the result
has no more than 53 bits before its zeros at the end, so that it is a number of the format
(`fitsSignificand_shiftedLeft`, `fitsSignificand_shiftedRight`).
-/

namespace Abacus

namespace Radix

theorem integer?_eq_some_iff {x : Binary64} {n : ℤ} :
    integer? x = some n ↔ x.truncate = some n ∧ InRange n := by
  rw [integer?, Option.filter_eq_some_iff, decide_eq_true_iff]

theorem integer?_eq_none_iff {x : Binary64} :
    integer? x = none ↔ ∀ n, x.truncate = some n → ¬InRange n := by
  rw [integer?, Option.filter_eq_none_iff]
  exact forall₂_congr fun n _ ↦ by rw [decide_eq_true_iff]

theorem InRange.natAbs_le {n : ℤ} (h : InRange n) : n.natAbs ≤ Nat.pow 2 63 := by
  have h63 : Nat.pow 2 63 = 9223372036854775808 := by decide
  obtain ⟨hlower, hupper⟩ := h
  rw [h63] at hlower hupper ⊢
  omega

end Radix

namespace Operator

open Radix (InRange)
open Binary64 (FitsSignificand)

/-! ## To the left -/

theorem wrap_eq_bmod (n : ℤ) : wrap n = n.bmod (Nat.pow 2 64) := by
  have h63 : Nat.pow 2 63 = 9223372036854775808 := by decide
  have h64 : Nat.pow 2 64 = 18446744073709551616 := by decide
  rw [wrap, Int.bmod, h63, h64]
  omega

/-- A shift to the left by 64 bits and more leaves nothing of the lowest 64. -/
theorem shiftedLeft_eq_bmod (a : ℤ) (count : ℕ) :
    shiftedLeft a count = (a * Nat.pow 2 count).bmod (Nat.pow 2 64) := by
  rw [shiftedLeft]
  split
  · next hcount =>
    have hdvd : Nat.pow 2 64 ∣ Nat.pow 2 count := Nat.pow_dvd_pow 2 hcount
    exact (Int.bmod_eq_zero_of_dvd ((Int.natCast_dvd_natCast.mpr hdvd).mul_left a)).symm
  · exact wrap_eq_bmod _

theorem inRange_bmod (n : ℤ) : InRange (n.bmod (Nat.pow 2 64)) := by
  have h63 : Nat.pow 2 63 = 9223372036854775808 := by decide
  have h64 : Nat.pow 2 64 = 18446744073709551616 := by decide
  rw [InRange, Int.bmod, h63, h64]
  omega

/-- A number is no nearer to zero than the one of 64 bits that it is reduced to. -/
theorem natAbs_bmod_le (n : ℤ) : (n.bmod (Nat.pow 2 64)).natAbs ≤ n.natAbs := by
  have h64 : Nat.pow 2 64 = 18446744073709551616 := by decide
  rw [Int.bmod, h64]
  omega

theorem fitsSignificand_shiftedLeft {a : ℤ} (h : FitsSignificand a) (count : ℕ) :
    FitsSignificand (shiftedLeft a count) := by
  rw [shiftedLeft_eq_bmod]
  refine (h.mul_two_pow count).of_dvd_sub Int.dvd_self_sub_bmod (natAbs_bmod_le _) ?_
  exact Nat.lt_of_le_of_lt (inRange_bmod _).natAbs_le (by decide)

/-! ## To the right -/

/-- A number of 64 bits is rounded down to the last bit of its sign when all others are gone. -/
theorem ediv_two_pow_of_le {a : ℤ} (ha : InRange a) {count : ℕ} (hcount : 64 ≤ count) :
    a / Nat.pow 2 count = if a < 0 then -1 else 0 := by
  have hpow : Nat.pow 2 63 < Nat.pow 2 count :=
    Nat.pow_lt_pow_right (by decide) (Nat.lt_of_lt_of_le (by decide) hcount)
  have hlt : (Nat.pow 2 63 : ℤ) < Nat.pow 2 count := Int.ofNat_lt.mpr hpow
  obtain ⟨hlower, hupper⟩ := ha
  split
  · next hneg => exact Int.ediv_eq_neg_one_of_neg_of_le hneg (by omega)
  · next hneg => exact Int.ediv_eq_zero_of_lt (Int.not_lt.mp hneg) (by omega)

theorem shiftedRight_eq_ediv {a : ℤ} (ha : InRange a) (count : ℕ) :
    shiftedRight a count = a / Nat.pow 2 count := by
  rw [shiftedRight]
  split
  · next hcount => exact (ediv_two_pow_of_le ha hcount).symm
  · rfl

theorem shiftedRight_eq_floor {a : ℤ} (ha : InRange a) (count : ℕ) :
    shiftedRight a count = ⌊(a : ℚ) / (Nat.pow 2 count : ℕ)⌋ := by
  rw [shiftedRight_eq_ediv ha, Rat.floor_intCast_div_natCast]

theorem inRange_shiftedRight {a : ℤ} (ha : InRange a) (count : ℕ) :
    InRange (shiftedRight a count) := by
  have hpos : (0 : ℤ) < Nat.pow 2 count := Binary64.cast_two_pow_pos count
  obtain ⟨hlower, hupper⟩ := ha
  rw [shiftedRight_eq_ediv ⟨hlower, hupper⟩]
  rcases lt_or_ge a 0 with hneg | hnonneg
  · have hle : a ≤ a / Nat.pow 2 count := by
      have habs := Int.natAbs_ediv_le_natAbs a (Nat.pow 2 count)
      have hneg' := Int.ediv_neg_of_neg_of_pos hneg hpos
      omega
    have hneg' := Int.ediv_neg_of_neg_of_pos hneg hpos
    exact ⟨hlower.trans hle, by omega⟩
  · have hle : a / Nat.pow 2 count ≤ a := Int.ediv_le_self _ hnonneg
    have hnonneg' : 0 ≤ a / Nat.pow 2 count := Int.ediv_nonneg hnonneg hpos.le
    exact ⟨by omega, Int.lt_of_le_of_lt hle hupper⟩

theorem fitsSignificand_shiftedRight {a : ℤ} (h : FitsSignificand a) (ha : InRange a) (count : ℕ) :
    FitsSignificand (shiftedRight a count) := by
  rw [shiftedRight_eq_ediv ha]
  exact h.ediv_two_pow count

/-! ## Operators that shift -/

theorem exists_shift_eq_error_iff (move : ℤ → ℕ → ℤ) {x y : Binary64} :
    (∃ failure, shift move x y = .error failure) ↔
      (∀ a, x.truncate = some a → ¬InRange a) ∨ (∀ n, y.truncate = some n → ¬InRange n)
        ∨ ∃ n, y.truncate = some n ∧ n < 0 := by
  rw [← Radix.integer?_eq_none_iff, ← Radix.integer?_eq_none_iff, shift]
  cases hx : Radix.integer? x with
  | none => simp
  | some a =>
    cases hy : Radix.integer? y with
    | none => simp
    | some n =>
      obtain ⟨htruncate, -⟩ := Radix.integer?_eq_some_iff.mp hy
      by_cases hn : n < 0
      · simp [htruncate, hn]
      · simp [htruncate, hn]

theorem shift_eq_ok {move : ℤ → ℕ → ℤ} {x y : Binary64} {a n : ℤ} (hx : x.truncate = some a)
    (hy : y.truncate = some n) (ha : InRange a) (hn : InRange n) (hcount : 0 ≤ n) :
    shift move x y = .ok (.ofInt (move a n.toNat)) := by
  have hx' := Radix.integer?_eq_some_iff.mpr ⟨hx, ha⟩
  have hy' := Radix.integer?_eq_some_iff.mpr ⟨hy, hn⟩
  simp only [shift, hx', hy']
  exact if_neg (Int.not_lt.mpr hcount)

theorem shift_ne_nan (move : ℤ → ℕ → ℤ) (x y : Binary64) : shift move x y ≠ .ok .nan := by
  intro h
  unfold shift at h
  split at h
  · cases h
  · cases h
  · split at h
    · cases h
    · exact Binary64.ofRatio_ne_nan _ _ _ (Except.ok.inj h)

/-- Both shifts move a whole part within 64 bits, and within what a significand holds. -/
theorem exists_apply_eq_shift {op : Operator} (hop : op = .shiftLeft ∨ op = .shiftRight) :
    ∃ move : ℤ → ℕ → ℤ, (∀ x y, op.apply x y = shift move x y)
      ∧ ∀ a count, InRange a →
        (op = .shiftLeft → move a count = (a * Nat.pow 2 count).bmod (Nat.pow 2 64))
        ∧ (op = .shiftRight → move a count = ⌊(a : ℚ) / (Nat.pow 2 count : ℕ)⌋)
        ∧ InRange (move a count) ∧ (FitsSignificand a → FitsSignificand (move a count)) := by
  rcases hop with rfl | rfl
  · refine ⟨shiftedLeft, fun x y ↦ apply_eq_compute (shift_ne_nan _ x y), fun a count _ ↦ ?_⟩
    refine ⟨fun _ ↦ shiftedLeft_eq_bmod a count, nofun, ?_, (fitsSignificand_shiftedLeft · count)⟩
    rw [shiftedLeft_eq_bmod]
    exact inRange_bmod _
  · refine ⟨shiftedRight, fun x y ↦ apply_eq_compute (shift_ne_nan _ x y), fun a count ha ↦ ?_⟩
    exact ⟨nofun, fun _ ↦ shiftedRight_eq_floor ha count, inRange_shiftedRight ha count,
      (fitsSignificand_shiftedRight · ha count)⟩

end Operator

namespace Evaluation

open Operator Radix

section Operands

variable {store : Store} {left right : Node} {x y : Binary64}
  (hx : readOperand store left = .ok x) (hy : readOperand store right = .ok y)
include hx hy

theorem operatorNode_of_ok {op : Operator} {z : Binary64} (h : op.apply x y = .ok z)
    (position : ℕ) :
    operatorNode store op position left right = .ok ⟨.number (.ofNumber z), left.position⟩ := by
  simp only [operatorNode, hx, hy, ok_bind, h]

theorem operatorNode_eq_error_iff {op : Operator} {position : ℕ} {e : Error} :
    operatorNode store op position left right = .error e ↔
      ∃ failure, op.apply x y = .error failure ∧ e = .operation op position failure := by
  simp only [operatorNode, hx, hy, ok_bind]
  cases op.apply x y with
  | ok z => exact ⟨nofun, nofun⟩
  | error failure =>
    constructor
    · rintro ⟨⟩
      exact ⟨failure, rfl, rfl⟩
    · rintro ⟨_, ⟨⟩, rfl⟩
      rfl

/-- **Shifts are exact shifts of 64 bits.** A shift fails at operands without a whole part of 64
bits and at negative counts, and nowhere else; it is reported in its place with its symbol. All
other shifts move the bits of a whole part in two's complement, to the left with those above the
lowest 64 dropped, to the right with the sign repeated. The result has no more bits than a
significand, so that it is the number which is returned, without any rounding. -/
theorem operatorNode_shift {op : Operator} (hop : op = .shiftLeft ∨ op = .shiftRight)
    (position : ℕ) :
    ((∃ e, operatorNode store op position left right = .error e) ↔
      (∀ a, x.truncate = some a → ¬InRange a) ∨ (∀ n, y.truncate = some n → ¬InRange n)
        ∨ ∃ n, y.truncate = some n ∧ n < 0)
    ∧ (∀ e, operatorNode store op position left right = .error e →
      ∃ message, e.fault = .report .invalidNumber message op.symbol position)
    ∧ ∀ a n, x.truncate = some a → y.truncate = some n → InRange a → InRange n → 0 ≤ n →
      ∃ v : ℤ, (op = .shiftLeft → v = (a * Nat.pow 2 n.toNat).bmod (Nat.pow 2 64))
        ∧ (op = .shiftRight → v = ⌊(a : ℚ) / (Nat.pow 2 n.toNat : ℕ)⌋)
        ∧ InRange v ∧ (Binary64.ofInt v).toRat? = some (v : ℚ)
        ∧ operatorNode store op position left right
          = .ok ⟨.number (.ofNumber (.ofInt v)), left.position⟩ := by
  obtain ⟨move, happly, hmove⟩ := exists_apply_eq_shift hop
  refine ⟨?_, ?_, ?_⟩
  · rw [← exists_shift_eq_error_iff move, ← happly]
    constructor
    · rintro ⟨e, he⟩
      obtain ⟨failure, hfailure, -⟩ := (operatorNode_eq_error_iff hx hy).mp he
      exact ⟨failure, hfailure⟩
    · rintro ⟨failure, hfailure⟩
      exact ⟨_, (operatorNode_eq_error_iff hx hy).mpr ⟨failure, hfailure, rfl⟩⟩
  · intro e he
    obtain ⟨failure, -, rfl⟩ := (operatorNode_eq_error_iff hx hy).mp he
    exact ⟨failureMessage op failure, rfl⟩
  · intro a n ha hn harange hnrange hcount
    obtain ⟨hleft, hright, hrange, hfits⟩ := hmove a n.toNat harange
    have hrepresentable :=
      (hfits (Binary64.fitsSignificand_of_truncate ha)).representable hrange.natAbs_le
    refine ⟨move a n.toNat, hleft, hright, hrange, ?_, ?_⟩
    · rw [Binary64.ofInt_eq_finite hrepresentable, Binary64.toRat?_whole,
        Binary64.signedQuanta_natAbs]
    · have happlied := (happly x y).trans (shift_eq_ok ha hn harange hnrange hcount)
      exact operatorNode_of_ok hx hy happlied _

end Operands

/-- A negative number, moved so far to the left that its highest bits are lost. -/
theorem operatorNode_shift_wrapped :
    let left : Node := ⟨.number (.ofText (utf8 "-5")), 0⟩
    let right : Node := ⟨.number (.ofText (utf8 "62")), 6⟩
    readOperand .empty left = .ok (.ofInt (-5)) ∧ readOperand .empty right = .ok (.ofInt 62)
      ∧ operatorNode .empty .shiftLeft 3 left right
        = .ok ⟨.number (.ofNumber (.ofInt (-4611686018427387904))), 0⟩ := by
  intro left right
  have hleft : readOperand .empty left = .ok (.ofInt (-5)) := by decide +kernel
  have hright : readOperand .empty right = .ok (.ofInt 62) := by decide +kernel
  have hx : (Binary64.ofInt (-5)).truncate = some (-5) := by decide +kernel
  have hy : (Binary64.ofInt 62).truncate = some 62 := by decide +kernel
  obtain ⟨-, -, hvalue⟩ := operatorNode_shift hleft hright (.inl rfl) 3
  obtain ⟨v, hv, -, -, -, hnode⟩ := hvalue _ _ hx hy (by decide) (by decide) (by decide)
  have hwrapped : v = -4611686018427387904 := (hv rfl).trans (by decide)
  rw [hwrapped] at hnode
  exact ⟨hleft, hright, hnode⟩

end Evaluation

end Abacus
