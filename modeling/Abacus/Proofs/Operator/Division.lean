import Abacus.Node
import Abacus.Profile
import Abacus.Proofs.Binary64.Integers
import Abacus.Proofs.Expression.Value
import Abacus.Proofs.Line.Canonical
import Abacus.Proofs.Line.Literals
import Abacus.Proofs.Session.Answers
import Mathlib.Data.Rat.Floor

/-!
# Floored division

Quotients and remainders of whole numbers, and the lines that ask for them.
-/

namespace Abacus

/-!
## Floored division of whole numbers

Of two whole numbers of 53 bits the floored quotient and remainder are exact, although the quotient
is rounded before it is taken down to a whole number. They are computed on signs and magnitudes, and
so is what is said of them here (`floorMagnitude`, `restMagnitude`); on whole numbers with their
signs they are the floor of the quotient and what the multiple by it leaves.

A zero keeps a sign of its own. The quotient of zero by a negative number is the negative zero, and
so is the remainder of a negative number that is divided exactly.
-/

namespace Binary64

theorem ofRatio_mul_right (negative : Bool) (num den : ℕ) {c : ℕ} (hc : 0 < c) :
    ofRatio negative (num * c) (den * c) = ofRatio negative num den := by
  simp only [ofRatio, Quanta.round_mul_right num den hc]

section Whole

variable {s t : Bool} {a b : ℕ} {ha : Quanta.Representable (a * Quanta.one)}
  {hb : Quanta.Representable (b * Quanta.one)} (hpos : 0 < b)
include hpos

/-- The quotient of two whole numbers is that of their magnitudes, rounded once. -/
theorem div_whole :
    div (.finite s (a * Quanta.one) ha) (.finite t (b * Quanta.one) hb)
      = ofRatio (s ^^ t) (a * Quanta.one) b := by
  have hne : b * Quanta.one ≠ 0 := Nat.mul_ne_zero hpos.ne' Quanta.one_pos.ne'
  rw [div, if_neg hne, ofRatio_mul_right _ _ _ Quanta.one_pos]

theorem remainder_whole {h : Quanta.Representable (a % b * Quanta.one)} :
    remainder (.finite s (a * Quanta.one) ha) (.finite t (b * Quanta.one) hb)
      = .finite s (a % b * Quanta.one) h := by
  have hne : b * Quanta.one ≠ 0 := Nat.mul_ne_zero hpos.ne' Quanta.one_pos.ne'
  rw [remainder, if_neg hne, Nat.mul_mod_mul_right, ofRatio_eq_finite (Quanta.round_one h) h]

end Whole

theorem signedQuanta_not_add {t : Bool} {k l : ℕ} (h : k < l) :
    signedQuanta (!t) k + signedQuanta t l = signedQuanta t (l - k) := by
  cases t with
  | false =>
    show -(k : ℤ) + (l : ℤ) = ((l - k : ℕ) : ℤ)
    omega
  | true =>
    show (k : ℤ) + -(l : ℤ) = -((l - k : ℕ) : ℤ)
    omega

theorem signedQuanta_eq_zero_iff {t : Bool} {k : ℕ} : signedQuanta t k = 0 ↔ k = 0 := by
  rw [← Int.natAbs_eq_zero, natAbs_signedQuanta]

theorem signedQuanta_pos_iff {t : Bool} {k : ℕ} (h : 0 < k) : 0 < signedQuanta t k ↔ t = false := by
  cases t with
  | false => exact ⟨fun _ ↦ rfl, fun _ ↦ Int.natCast_pos.mpr h⟩
  | true =>
    have hneg : signedQuanta true k < 0 := Int.neg_neg_of_pos (Int.natCast_pos.mpr h)
    exact ⟨fun hpos ↦ absurd hpos hneg.le.not_gt, nofun⟩

theorem decide_signedQuanta_lt_zero {t : Bool} {k : ℕ} (h : 0 < k) :
    decide (signedQuanta t k < 0) = t := by
  cases t with
  | false => exact decide_eq_false (Int.not_lt.mpr (Int.natCast_nonneg k))
  | true => exact decide_eq_true (Int.neg_neg_of_pos (Int.natCast_pos.mpr h))

theorem add_whole {t : Bool} {m b : ℕ} (hlt : m < b) {hm : Quanta.Representable (m * Quanta.one)}
    {hb : Quanta.Representable (b * Quanta.one)}
    {h : Quanta.Representable ((b - m) * Quanta.one)} :
    add (.finite (!t) (m * Quanta.one) hm) (.finite t (b * Quanta.one) hb)
      = .finite t ((b - m) * Quanta.one) h := by
  have hquanta : m * Quanta.one < b * Quanta.one := Nat.mul_lt_mul_of_pos_right hlt Quanta.one_pos
  have hpos : 0 < (b - m) * Quanta.one := Nat.mul_pos (by omega) Quanta.one_pos
  have hsum : signedQuanta (!t) (m * Quanta.one) + signedQuanta t (b * Quanta.one)
      = signedQuanta t ((b - m) * Quanta.one) := by
    rw [Nat.sub_mul]
    exact signedQuanta_not_add hquanta
  have hnonzero : signedQuanta t ((b - m) * Quanta.one) ≠ 0 := by
    rw [← Int.natAbs_ne_zero, natAbs_signedQuanta]
    exact hpos.ne'
  simp only [add, hsum, if_neg hnonzero, natAbs_signedQuanta, decide_signedQuanta_lt_zero hpos]
  exact ofRatio_eq_finite (Quanta.round_one h) h

end Binary64

/-- A whole number is written as one, except for the negative zero. -/
theorem Decimal.write_whole {negative : Bool} {k : ℕ} {h : Quanta.Representable (k * Quanta.one)} :
    write (.finite negative (k * Quanta.one) h)
      = if negative = true ∧ k = 0 then utf8 "-0"
        else Digits.ofInt (Binary64.signedQuanta negative k) := by
  rw [write, magnitude, if_pos (Nat.mul_mod_left k _), Nat.mul_div_cancel k Quanta.one_pos]
  cases negative with
  | false =>
    have hsign : ¬(Binary64.signedQuanta false k < 0) := Int.not_lt.mpr (Int.natCast_nonneg k)
    rw [if_neg (fun h ↦ Bool.false_ne_true h.1), Digits.ofInt, if_neg hsign,
      Binary64.natAbs_signedQuanta]
    rfl
  | true =>
    rcases Nat.eq_zero_or_pos k with rfl | hpos
    · rw [if_pos ⟨rfl, rfl⟩, Digits.ofNat_of_lt (by decide)]
      rfl
    · have hsign : Binary64.signedQuanta true k < 0 :=
        Int.neg_neg_of_pos (Int.natCast_pos.mpr hpos)
      rw [if_neg (fun h ↦ hpos.ne' h.2), Digits.ofInt, if_pos hsign, Binary64.natAbs_signedQuanta]
      rfl

theorem Decimal.write_ofInt {n : ℤ} (h : Quanta.Representable (n.natAbs * Quanta.one)) :
    write (.ofInt n) = Digits.ofInt n := by
  have hsign : ¬(decide (n < 0) = true ∧ n.natAbs = 0) := by
    rw [decide_eq_true_iff]
    omega
  rw [Binary64.ofInt_eq_finite h, write_whole, if_neg hsign, Binary64.signedQuanta_natAbs]

namespace Operator

open Binary64 (signedQuanta signedRat)

/-! ### Signs and magnitudes -/

/-- The magnitude of a quotient that is rounded down, given its sign. -/
def floorMagnitude (negative : Bool) (a b : ℕ) : ℕ :=
  a / b + if negative = true ∧ a % b ≠ 0 then 1 else 0

/-- The magnitude of the remainder behind a quotient that is rounded down, given the signs of the
dividend and the divisor. -/
def restMagnitude (s t : Bool) (a b : ℕ) : ℕ :=
  if a % b ≠ 0 ∧ s ≠ t then b - a % b else a % b

section Magnitudes

variable {s t negative : Bool} {a b : ℕ} (hpos : 0 < b)
include hpos

/-- Rounded down, the magnitude of a quotient grows if it is negative and not whole. -/
theorem signedQuanta_floorMagnitude :
    signedQuanta negative (floorMagnitude negative a b) = ⌊signedRat negative (a / b)⌋ := by
  rw [floorMagnitude]
  cases negative with
  | false =>
    simp only [signedQuanta, signedRat, Bool.false_eq_true, if_false, false_and, Nat.add_zero]
    rw [Rat.floor_natCast_div_natCast, Int.natCast_ediv]
  | true =>
    have hneg : -((a : ℚ) / b) = ((-(a : ℤ) : ℤ) : ℚ) / (b : ℕ) := by
      push_cast
      ring
    have hsign : (b : ℤ).sign = 1 := Int.sign_eq_one_of_pos (Int.natCast_pos.mpr hpos)
    simp only [signedQuanta, signedRat, if_true, true_and]
    rw [hneg, Rat.floor_intCast_div_natCast, Int.neg_ediv, hsign, ← Int.natCast_ediv]
    by_cases hexact : a % b = 0
    · have hdvd : (b : ℤ) ∣ a := Int.natCast_dvd_natCast.mpr (Nat.dvd_of_mod_eq_zero hexact)
      rw [if_neg (not_not.mpr hexact), if_pos hdvd]
      omega
    · have hdvd : ¬(b : ℤ) ∣ a := fun hdvd ↦
        hexact (Nat.mod_eq_zero_of_dvd (Int.natCast_dvd_natCast.mp hdvd))
      rw [if_pos hexact, if_neg hdvd]
      omega

theorem signedQuanta_restMagnitude :
    signedQuanta (if a % b = 0 then s else t) (restMagnitude s t a b)
      = signedQuanta s a
        - signedQuanta t b * signedQuanta (s ^^ t) (floorMagnitude (s ^^ t) a b) := by
  have hsplit := Nat.div_add_mod a b
  have hlt := Nat.mod_lt a hpos
  rw [restMagnitude, floorMagnitude]
  generalize a / b = k at hsplit ⊢
  generalize a % b = m at hsplit hlt ⊢
  subst hsplit
  by_cases hm : m = 0
  · subst hm
    cases s with
    | false =>
      cases t with
      | false | true => simp [signedQuanta]
    | true =>
      cases t with
      | false | true => simp [signedQuanta]
  · cases s with
    | false =>
      cases t with
      | false => simp [signedQuanta]
      | true =>
        simp [signedQuanta, hm, hlt.le, Nat.cast_sub]
        ring
    | true =>
      cases t with
      | false =>
        simp [signedQuanta, hm, hlt.le, Nat.cast_sub]
        ring
      | true => simp [signedQuanta]

theorem restMagnitude_lt :
    restMagnitude s t a b < b ∧ (restMagnitude s t a b = 0 ↔ a % b = 0) := by
  have hlt := Nat.mod_lt a hpos
  rw [restMagnitude]
  split
  · omega
  · omega

omit hpos in
/-- Only zero divided by a number of the other sign has a zero for its negative quotient. -/
theorem floorMagnitude_true_eq_zero_iff : floorMagnitude true a b = 0 ↔ a = 0 := by
  have hsplit := Nat.div_add_mod a b
  rw [floorMagnitude]
  constructor
  · intro h
    obtain ⟨hquotient, hrest⟩ := Nat.add_eq_zero_iff.mp h
    have hexact : a % b = 0 := by
      by_contra hne
      rw [if_pos ⟨rfl, hne⟩] at hrest
      cases hrest
    rw [← hsplit, hquotient, hexact, Nat.mul_zero]
  · rintro rfl
    simp

/-! ### Values -/

section Values

variable {ha : Quanta.Representable (a * Quanta.one)} {hb : Quanta.Representable (b * Quanta.one)}
  (hdividend : a < Nat.pow 2 53) (hdivisor : b < Nat.pow 2 53)
include hdivisor

include hdividend in
/-- The floored quotient of two whole numbers of 53 bits is not touched by the rounding before. -/
theorem floorQuotient_whole : ∃ h,
    floorQuotient (.finite s (a * Quanta.one) ha) (.finite t (b * Quanta.one) hb)
      = .finite (s ^^ t) (floorMagnitude (s ^^ t) a b * Quanta.one) h := by
  obtain ⟨hdiv, hmod⟩ := Quanta.round_div_one hdividend hpos hdivisor
  have hle : a / b ≤ a := Nat.div_le_self a b
  have hmagnitude : floorMagnitude (s ^^ t) a b ≤ Nat.pow 2 53 := by
    rw [floorMagnitude]
    split
    · omega
    · omega
  have hrounded : Quanta.Representable (Quanta.round (a * Quanta.one) b) := by
    refine ⟨Quanta.dvd_round _ _, ?_⟩
    have hlt : Quanta.round (a * Quanta.one) b < (a / b + 1) * Quanta.one := by
      refine (Nat.div_lt_iff_lt_mul Quanta.one_pos).mp ?_
      rw [hdiv]
      exact Nat.lt_succ_self _
    exact hlt.trans (Quanta.representable_mul_one (by omega)).2
  have hrepresentable := Quanta.representable_mul_one hmagnitude
  refine ⟨hrepresentable, ?_⟩
  rw [floorQuotient, Binary64.div_whole hpos, Binary64.ofRatio_eq_finite rfl hrounded,
    Binary64.floor]
  simp only [hdiv, ne_eq, hmod]
  exact Binary64.ofRatio_eq_finite (Quanta.round_one hrepresentable) hrepresentable

/-- The floored remainder of two whole numbers of 53 bits is exact, the correction included. -/
theorem floorRemainder_whole : ∃ h,
    floorRemainder (.finite s (a * Quanta.one) ha) (.finite t (b * Quanta.one) hb)
      = .finite (if a % b = 0 then s else t) (restMagnitude s t a b * Quanta.one) h := by
  have hlt := Nat.mod_lt a hpos
  have hmod := Quanta.representable_mul_one (Nat.le_trans hlt.le hdivisor.le)
  have hrest := (restMagnitude_lt (s := s) (t := t) (a := a) hpos).1
  have hrepresentable := Quanta.representable_mul_one (Nat.le_trans hrest.le hdivisor.le)
  refine ⟨hrepresentable, ?_⟩
  have hremainder : Binary64.remainder (.finite s (a * Quanta.one) ha)
      (.finite t (b * Quanta.one) hb) = .finite s (a % b * Quanta.one) hmod :=
    Binary64.remainder_whole hpos
  simp only [floorRemainder, hremainder]
  by_cases hexact : a % b = 0
  · simp [Binary64.isZero, restMagnitude, hexact]
  · have hnonzero : a % b * Quanta.one ≠ 0 := Nat.mul_ne_zero hexact Quanta.one_pos.ne'
    have hdivisor : b * Quanta.one ≠ 0 := Nat.mul_ne_zero hpos.ne' Quanta.one_pos.ne'
    by_cases hsign : s = t
    · simp [Binary64.isZero, Binary64.isNegative, restMagnitude, hexact, hnonzero, hdivisor, hsign]
    · -- only here the remainder has to be corrected
      obtain rfl : s = !t := Bool.eq_not_of_ne hsign
      have hcorrected : restMagnitude (!t) t a b = b - a % b := if_pos ⟨hexact, hsign⟩
      simp only [hcorrected] at hrepresentable ⊢
      have hsum : Binary64.add (.finite (!t) (a % b * Quanta.one) hmod)
          (.finite t (b * Quanta.one) hb) = .finite t ((b - a % b) * Quanta.one) hrepresentable :=
        Binary64.add_whole hlt
      simp [Binary64.isZero, Binary64.isNegative, hexact, hnonzero, hdivisor, hsum]

end Values

end Magnitudes

/-! ### Whole numbers with their signs -/

theorem signedRat_natAbs_div (a b : ℤ) :
    signedRat (decide (a < 0) ^^ decide (b < 0)) (a.natAbs / b.natAbs) = (a : ℚ) / b := by
  have hcast : ∀ n : ℤ, (n : ℚ) = signedRat (decide (n < 0)) n.natAbs := by
    intro n
    rw [Nat.cast_natAbs]
    by_cases hn : n < 0
    · rw [decide_eq_true hn, signedRat, if_pos rfl, abs_of_neg hn, Int.cast_neg, neg_neg]
    · rw [decide_eq_false hn, signedRat, if_neg Bool.false_ne_true, abs_of_nonneg (not_lt.mp hn)]
  rw [hcast a, hcast b]
  rcases decide (a < 0) with _ | _
  · rcases decide (b < 0) with _ | _
    · simp [signedRat]
    · simp [signedRat, div_neg]
  · rcases decide (b < 0) with _ | _
    · simp [signedRat, neg_div]
    · simp [signedRat, neg_div, div_neg]

section Integers

variable {a b : ℤ} (ha : a.natAbs < Nat.pow 2 53) (hb : b.natAbs < Nat.pow 2 53) (hne : b ≠ 0)
include ha hb hne

theorem exists_apply_floorDiv : ∃ z, floorDiv.apply (.ofInt a) (.ofInt b) = .ok z
    ∧ Decimal.write z
      = if a = 0 ∧ b < 0 then utf8 "-0" else Digits.ofInt ⌊(a : ℚ) / b⌋ := by
  have hpos : 0 < b.natAbs := Int.natAbs_pos.mpr hne
  obtain ⟨h, hquotient⟩ : ∃ h, floorQuotient (.ofInt a) (.ofInt b)
      = .finite (decide (a < 0) ^^ decide (b < 0))
        (floorMagnitude (decide (a < 0) ^^ decide (b < 0)) a.natAbs b.natAbs * Quanta.one) h := by
    rw [Binary64.ofInt_eq_finite (Quanta.representable_mul_one ha.le),
      Binary64.ofInt_eq_finite (Quanta.representable_mul_one hb.le)]
    exact floorQuotient_whole hpos ha hb
  have hcompute : floorDiv.compute (.ofInt a) (.ofInt b)
      = .ok (floorQuotient (.ofInt a) (.ofInt b)) :=
    rfl
  rw [hquotient] at hcompute
  refine ⟨_, (apply_eq_compute (by rw [hcompute]; nofun)).trans hcompute, ?_⟩
  rw [Decimal.write_whole, signedQuanta_floorMagnitude hpos, signedRat_natAbs_div]
  -- the quotient is the negative zero only where zero is divided by a negative number
  have hzero : ((decide (a < 0) ^^ decide (b < 0)) = true
      ∧ floorMagnitude (decide (a < 0) ^^ decide (b < 0)) a.natAbs b.natAbs = 0)
      ↔ a = 0 ∧ b < 0 := by
    constructor
    · rintro ⟨hnegative, hzero⟩
      rw [hnegative, floorMagnitude_true_eq_zero_iff, Int.natAbs_eq_zero] at hzero
      subst hzero
      simpa using hnegative
    · rintro ⟨rfl, hb⟩
      simp [hb, floorMagnitude]
  exact if_congr hzero rfl rfl

/-- The floored remainder of whole numbers of 53 bits is what the multiple of the divisor by the
floor of the quotient leaves. It is zero or has the sign of the divisor, and is smaller. -/
theorem exists_apply_mod : ∃ z r, mod.apply (.ofInt a) (.ofInt b) = .ok z
    ∧ r = a - b * ⌊(a : ℚ) / b⌋ ∧ (r = 0 ∨ (0 < r ↔ 0 < b)) ∧ r.natAbs < b.natAbs
    ∧ Decimal.write z = if a < 0 ∧ r = 0 then utf8 "-0" else Digits.ofInt r := by
  have hpos : 0 < b.natAbs := Int.natAbs_pos.mpr hne
  obtain ⟨h, hremainder⟩ : ∃ h, floorRemainder (.ofInt a) (.ofInt b)
      = .finite (if a.natAbs % b.natAbs = 0 then decide (a < 0) else decide (b < 0))
        (restMagnitude (decide (a < 0)) (decide (b < 0)) a.natAbs b.natAbs * Quanta.one) h := by
    rw [Binary64.ofInt_eq_finite (Quanta.representable_mul_one ha.le),
      Binary64.ofInt_eq_finite (Quanta.representable_mul_one hb.le)]
    exact floorRemainder_whole hpos hb
  have hcompute : mod.compute (.ofInt a) (.ofInt b) = .ok (floorRemainder (.ofInt a) (.ofInt b)) :=
    rfl
  rw [hremainder] at hcompute
  obtain ⟨hlt, hzero⟩ :=
    restMagnitude_lt (s := decide (a < 0)) (t := decide (b < 0)) (a := a.natAbs) hpos
  have hrest := signedQuanta_restMagnitude (s := decide (a < 0)) (t := decide (b < 0))
    (a := a.natAbs) hpos
  rw [Binary64.signedQuanta_natAbs, Binary64.signedQuanta_natAbs, signedQuanta_floorMagnitude hpos,
    signedRat_natAbs_div] at hrest
  refine ⟨_, _, (apply_eq_compute (by rw [hcompute]; nofun)).trans hcompute, hrest, ?_, ?_, ?_⟩
  · by_cases hexact : a.natAbs % b.natAbs = 0
    · exact .inl (Binary64.signedQuanta_eq_zero_iff.mpr (hzero.mpr hexact))
    · right
      have hrestpos := Nat.pos_of_ne_zero fun h ↦ hexact (hzero.mp h)
      rw [if_neg hexact, Binary64.signedQuanta_pos_iff hrestpos, decide_eq_false_iff_not]
      omega
  · rwa [Binary64.natAbs_signedQuanta]
  · rw [Decimal.write_whole]
    -- a remainder of zero keeps the sign of the dividend
    have hsign : restMagnitude (decide (a < 0)) (decide (b < 0)) a.natAbs b.natAbs = 0 →
        ((if a.natAbs % b.natAbs = 0 then decide (a < 0) else decide (b < 0)) = true ↔ a < 0) :=
      fun h ↦ by rw [if_pos (hzero.mp h), decide_eq_true_iff]
    refine if_congr ?_ rfl rfl
    rw [Binary64.signedQuanta_eq_zero_iff]
    exact and_congr_left hsign

end Integers

end Operator

/-!
## Lines that divide

A line of two literals with an operator between them is answered with the decimal text of what the
operator computes (`run_evaluate_operation`). For the floored quotient and the remainder of two
whole numbers of 53 bits this is a plain whole number, except that a zero keeps its sign.
-/

namespace Line

/-! ### Lines of one operator -/

theorem Literal.exists_derives {numeral : Numeral} (h : Literal numeral) :
    ∃ ts position, Derives .operand ts [⟨.number numeral, position⟩]
      ∧ ∀ t ∈ ts, Token.Lexeme t.lexeme t.kind := by
  cases h with
  | @plain l h => exact ⟨[⟨.number, l, 0⟩], 0, .number rfl, by simpa using h⟩
  | @negated l h =>
    have hminus : Token.Lexeme (utf8 "-") (.operator .sub) := .symbol (.operator .sub)
    exact ⟨[⟨.operator .sub, utf8 "-", 0⟩, ⟨.number, l, 0⟩], 0, .negative rfl rfl,
      by simpa using ⟨hminus, h⟩⟩

theorem exists_read_operation {x y : Numeral} (hx : Literal x) (hy : Literal y) (op : Operator) :
    (read (Bytes.joinWith (utf8 " ") [x.text, op.symbol, y.text])).error = none
      ∧ ∃ p q r e, (read (Bytes.joinWith (utf8 " ") [x.text, op.symbol, y.text])).nodes
        = [⟨.number x, p⟩, ⟨.operator op, q⟩, ⟨.number y, r⟩] ++ [⟨.endOfLine, e⟩] := by
  obtain ⟨ts, p, hderives, hts⟩ := hx.exists_derives
  obtain ⟨ts', p', hderives', hts'⟩ := hy.exists_derives
  have hop : Token.Lexeme op.symbol (.operator op) := .symbol (.operator op)
  have hsentence : Sentence (ts ++ ⟨.operator op, op.symbol, 0⟩ :: ts')
      [⟨.number x, p⟩, ⟨.operator op, 0⟩, ⟨.number y, p'⟩] :=
    .plain (.chain (.single hderives) rfl hderives')
  have hlexemes : ∀ t ∈ ts ++ ⟨.operator op, op.symbol, 0⟩ :: ts',
      Token.Lexeme t.lexeme t.kind := by
    intro t ht
    rcases List.mem_append.mp ht with ht | ht
    · exact hts t ht
    · rcases List.mem_cons.mp ht with rfl | ht
      · exact hop
      · exact hts' t ht
  obtain ⟨herror, hshapes⟩ := hsentence.read_joined hlexemes
  refine ⟨herror, ?_⟩
  change (read (Bytes.joinWith (utf8 " ") [x.text, op.symbol, y.text])).nodes.map Node.shape
    = [.number x, .operator op, .number y, .endOfLine] at hshapes
  generalize (read (Bytes.joinWith (utf8 " ") [x.text, op.symbol, y.text])).nodes = nodes at hshapes
  -- the shapes say everything but where the nodes stand
  obtain ⟨⟨_, p₁⟩, _, rfl, rfl, h₁⟩ := List.map_eq_cons_iff.mp hshapes
  obtain ⟨⟨_, p₂⟩, _, rfl, rfl, h₂⟩ := List.map_eq_cons_iff.mp h₁
  obtain ⟨⟨_, p₃⟩, _, rfl, rfl, h₃⟩ := List.map_eq_cons_iff.mp h₂
  obtain ⟨⟨_, p₄⟩, _, rfl, rfl, h₄⟩ := List.map_eq_cons_iff.mp h₃
  obtain rfl := List.map_eq_nil_iff.mp h₄
  exact ⟨p₁, p₂, p₃, p₄, rfl⟩

end Line

namespace Session

open Evaluation

variable {σ : Type} [ProfileStorage σ]

theorem run_evaluate_operation {x y : Numeral} (hx : Line.Literal x) (hy : Line.Literal y)
    {u v z : Binary64} (hu : x.number? = some u) (hv : y.number? = some v) {op : Operator}
    (h : op.apply u v = .ok z) (commit : Bool) (s : Session σ) :
    Action.run (evaluate (Bytes.joinWith (utf8 " ") [x.text, op.symbol, y.text]) commit) s
      = (.ok (Decimal.write z), s) := by
  obtain ⟨herror, p, q, r, e, hnodes⟩ := Line.exists_read_operation hx hy op
  have hnode : operatorNode s.store op q ⟨.number x, p⟩ ⟨.number y, r⟩
      = .ok ⟨.number (.ofNumber z), p⟩ := by
    simp [operatorNode, readOperand, readValue, readNumber, hu, hv, h]
  have hreduce : reduce s.store
      ([⟨.number x, p⟩, ⟨.operator op, q⟩, ⟨.number y, r⟩] ++ [⟨.endOfLine, e⟩])
      = .ok ⟨.number (.ofNumber z), p⟩ := by
    have hafter : ∀ m ∈ [(⟨.number y, r⟩ : Node), ⟨.endOfLine, e⟩], m.strength ≤ op.strength := by
      simp [Node.strength]
    have hoperands := reduce_operands s.store (x := ⟨.number x, p⟩) q rfl rfl
      (List.forall_mem_nil _) hafter
    rw [hnode, ok_bind] at hoperands
    exact hoperands.trans (reduce_leaf rfl (.inr ⟨e, rfl⟩))
  have hanswer : answer s.store
      ([⟨.number x, p⟩, ⟨.operator op, q⟩, ⟨.number y, r⟩] ++ [⟨.endOfLine, e⟩])
      = .ok (Decimal.write z) := by
    simp only [answer, Evaluation.evaluate, hreduce, ok_bind, readValue, readNumber,
      Numeral.number?_ofNumber, Numeral.text_ofNumber, pure, Except.pure]
  rw [evaluate, herror, hnodes, exec_append_endOfLine, execFrom_of_startsOperand rfl, run_consult,
    ← List.cons_append, hanswer]
  rfl

/-! ### Division of whole numbers -/

theorem literal_ofInt {n : ℤ} (h : Quanta.Representable (n.natAbs * Quanta.one)) :
    Line.Literal (.ofNumber (.ofInt n)) ∧ (Numeral.ofNumber (.ofInt n)).text = Digits.ofInt n := by
  rw [Numeral.text_ofNumber, Decimal.write_ofInt h, Binary64.ofInt_eq_finite h]
  exact ⟨Numeral.literal_ofNumber _ _ h, rfl⟩

theorem run_evaluate_integers {a b : ℤ} (ha : Quanta.Representable (a.natAbs * Quanta.one))
    (hb : Quanta.Representable (b.natAbs * Quanta.one)) {op : Operator} {z : Binary64}
    (h : op.apply (.ofInt a) (.ofInt b) = .ok z) (commit : Bool) (s : Session σ) :
    Action.run
      (evaluate (Digits.ofInt a ++ (utf8 " " ++ (op.symbol ++ (utf8 " " ++ Digits.ofInt b))))
        commit) s = (.ok (Decimal.write z), s) := by
  obtain ⟨hliteral, htext⟩ := literal_ofInt ha
  obtain ⟨hliteral', htext'⟩ := literal_ofInt hb
  have hrun := run_evaluate_operation hliteral hliteral' (Numeral.number?_ofNumber _)
    (Numeral.number?_ofNumber _) h commit s
  rw [htext, htext'] at hrun
  simpa only [Bytes.joinWith, List.append_assoc] using hrun

/-- **Division of whole numbers is floored and exact.** A line that divides two whole numbers of 53
bits, the divisor not being zero, is answered with the floor of the quotient, or with what the
multiple of the divisor by it leaves, as a plain whole number. That remainder is zero or has the
sign of the divisor, and is smaller than it. Only a zero keeps a sign that it got from the operands:
zero divided by a negative number is answered with `-0`, and so is the remainder of a negative
number that is divided exactly. -/
theorem evaluate_floored {a b : ℤ} (ha : a.natAbs < Nat.pow 2 53) (hb : b.natAbs < Nat.pow 2 53)
    (hne : b ≠ 0) (commit : Bool) (s : Session σ) :
    ∃ q r : ℤ, q = ⌊(a : ℚ) / b⌋ ∧ r = a - b * q ∧ a = b * q + r
      ∧ (r = 0 ∨ (0 < r ↔ 0 < b)) ∧ r.natAbs < b.natAbs
      ∧ Action.run (evaluate (Digits.ofInt a ++ utf8 " // " ++ Digits.ofInt b) commit) s
        = (.ok (if a = 0 ∧ b < 0 then utf8 "-0" else Digits.ofInt q), s)
      ∧ Action.run (evaluate (Digits.ofInt a ++ utf8 " % " ++ Digits.ofInt b) commit) s
        = (.ok (if a < 0 ∧ r = 0 then utf8 "-0" else Digits.ofInt r), s) := by
  have hrepresentable := Quanta.representable_mul_one ha.le
  have hrepresentable' := Quanta.representable_mul_one hb.le
  obtain ⟨z, hquotient, hz⟩ := Operator.exists_apply_floorDiv ha hb hne
  obtain ⟨w, r, hmod, hr, hsign, hlt, hw⟩ := Operator.exists_apply_mod ha hb hne
  refine ⟨_, r, rfl, hr, by omega, hsign, hlt, ?_, ?_⟩
  · rw [← hz, ← run_evaluate_integers hrepresentable hrepresentable' hquotient commit s,
      List.append_assoc]
    rfl
  · rw [← hw, ← run_evaluate_integers hrepresentable hrepresentable' hmod commit s,
      List.append_assoc]
    rfl

/-- A negative number divided by a positive one. -/
theorem evaluate_floored_down :
    let s : Session Shelf := start none
    (-7 : ℤ).natAbs < Nat.pow 2 53 ∧ (3 : ℤ).natAbs < Nat.pow 2 53 ∧ (3 : ℤ) ≠ 0
      ∧ Action.run (evaluate (utf8 "-7 // 3") true) s = (.ok (utf8 "-3"), s)
      ∧ Action.run (evaluate (utf8 "-7 % 3") true) s = (.ok (utf8 "2"), s) := by
  intro s
  have ha : (-7 : ℤ).natAbs < Nat.pow 2 53 := by decide
  have hb : (3 : ℤ).natAbs < Nat.pow 2 53 := by decide
  obtain ⟨q, r, hq, hr, -, -, -, hquotient, hmod⟩ := evaluate_floored ha hb (by decide) true s
  have hfloor : q = -3 := hq.trans (by norm_num [Int.floor_eq_iff])
  obtain rfl : r = 2 := by rw [hr, hfloor]; rfl
  have hline : Digits.ofInt (-7) ++ utf8 " // " ++ Digits.ofInt 3 = utf8 "-7 // 3" := by
    decide +kernel
  have hline' : Digits.ofInt (-7) ++ utf8 " % " ++ Digits.ofInt 3 = utf8 "-7 % 3" := by
    decide +kernel
  have hthree : Digits.ofInt (-3) = utf8 "-3" := by decide +kernel
  have htwo : Digits.ofInt 2 = utf8 "2" := by decide +kernel
  rw [hline, if_neg (by decide), hfloor, hthree] at hquotient
  rw [hline', if_neg (by decide), htwo] at hmod
  exact ⟨ha, hb, by decide, hquotient, hmod⟩

/-- Both ways to get a negative zero, where a whole number would be written without a sign. -/
theorem evaluate_negative_zero :
    let s : Session Shelf := start none
    (Action.run (evaluate (Digits.ofInt (-6) ++ utf8 " % " ++ Digits.ofInt 3) true) s).1
        = .ok (utf8 "-0")
      ∧ Digits.ofInt (-6 - 3 * ⌊((-6 : ℤ) : ℚ) / (3 : ℤ)⌋) ≠ utf8 "-0"
      ∧ (Action.run (evaluate (Digits.ofInt 0 ++ utf8 " // " ++ Digits.ofInt (-5)) true) s).1
        = .ok (utf8 "-0")
      ∧ Digits.ofInt ⌊((0 : ℤ) : ℚ) / (-5 : ℤ)⌋ ≠ utf8 "-0" := by
  intro s
  have hfloor : ⌊((-6 : ℤ) : ℚ) / (3 : ℤ)⌋ = -2 := by norm_num
  have hfloor' : ⌊((0 : ℤ) : ℚ) / (-5 : ℤ)⌋ = 0 := by norm_num
  rw [hfloor, hfloor']
  exact ⟨by decide +kernel, by decide +kernel, by decide +kernel, by decide +kernel⟩

end Session

end Abacus
