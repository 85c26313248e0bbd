import Abacus.Proofs.Binary64.Integers
import Abacus.Proofs.Binary64.Nearest
import Abacus.Proofs.Bytes
import Abacus.Proofs.Numeral
import Abacus.Proofs.Radix.Texts
import Mathlib.Data.Nat.Digits.Defs

/-!
# Texts read and written back

What a text in a radix stands for, and which texts can be written again once they have been read.
-/

namespace Abacus

/-!
## Positional values

What digits stand for, said without reading them one after the other: the rank of a digit is its
place in the order of the sixteen digits, and a text of digits in a base has the value that the
ranks have as the digits of a number (`positional`). Reading gives exactly this value, for exactly
the texts that are not empty and have no digit of a rank beyond the base (`toNat?_eq_some_iff`).

In a radix other than decimal the value is a whole number of 64 bits and a sign, rounded once.
-/

namespace Digits

/-! ### Ranks -/

/-- The place of a byte, in either case, in the order of the digits. Every byte that is no digit has
a place behind them. -/
def rank (b : UInt8) : ℕ := (utf8 "0123456789abcdef").idxOf (Bytes.lowerByte b)

/-- The number that digits stand for in a base, the first one standing for most. -/
def positional (base : ℕ) (s : Bytes) : ℕ := Nat.ofDigits base (s.reverse.map rank)

private theorem ranks : ∀ b : UInt8, value? b = (some (rank b)).filter (· < 16)
    ∧ (rank b = 0 ↔ b = '0'.toUInt8) ∧ (Bytes.isDigit b = true → rank b < 10) := by
  have hall : ∀ n : Fin 256, value? (.ofFin n) = (some (rank (.ofFin n))).filter (· < 16)
      ∧ (rank (.ofFin n) = 0 ↔ UInt8.ofFin n = '0'.toUInt8)
      ∧ (Bytes.isDigit (.ofFin n) = true → rank (.ofFin n) < 10) := by
    decide +kernel
  exact fun b ↦ hall b.toFin

theorem rank_eq_zero_iff (b : UInt8) : rank b = 0 ↔ b = '0'.toUInt8 := (ranks b).2.1

theorem rank_lt_ten {b : UInt8} (h : Bytes.isDigit b = true) : rank b < 10 := (ranks b).2.2 h

theorem value?_eq_some_iff {b : UInt8} {d : ℕ} : value? b = some d ↔ d = rank b ∧ rank b < 16 := by
  rw [(ranks b).1, Option.filter_eq_some_iff, Option.some_inj, decide_eq_true_iff]
  constructor
  · rintro ⟨rfl, h⟩
    exact ⟨rfl, h⟩
  · rintro ⟨rfl, h⟩
    exact ⟨rfl, h⟩

theorem rank_lowerByte (b : UInt8) : rank (Bytes.lowerByte b) = rank b := by
  rw [rank, rank, Bytes.lowerByte_lowerByte]

@[simp] theorem positional_lower (base : ℕ) (s : Bytes) :
    positional base (Bytes.lower s) = positional base s := by
  have hmap : (Bytes.lower s).reverse.map rank = s.reverse.map rank := by
    rw [Bytes.lower, ← List.map_reverse, List.map_map]
    exact List.map_congr_left fun b _ ↦ rank_lowerByte b
  rw [positional, positional, hmap]

/-! ### Values -/

theorem positional_cons (base : ℕ) (b : UInt8) (s : Bytes) :
    positional base (b :: s) = rank b * Nat.pow base s.length + positional base s := by
  have hlength : (s.reverse.map rank).length = s.length := by simp
  rw [positional, positional, List.reverse_cons, List.map_append, List.map_singleton,
    Nat.ofDigits_append, Nat.ofDigits_singleton, hlength, Nat.add_comm, Nat.mul_comm]
  rfl

/-- Reading goes on with all digits of the base, and with nothing else. -/
theorem continueNat?_eq_some_iff {base : ℕ} (hbase : base ≤ 16) {acc n : ℕ} {s : Bytes} :
    continueNat? base acc s = some n
      ↔ (∀ b ∈ s, rank b < base) ∧ n = acc * Nat.pow base s.length + positional base s := by
  induction s generalizing acc with
  | nil =>
    have hnil : acc * Nat.pow base 0 + positional base [] = acc := Nat.mul_one acc
    simp only [continueNat?, Option.some_inj, List.length_nil, hnil, eq_comm (a := acc)]
    simp
  | cons b s ih =>
    have hsum : (acc * base + rank b) * Nat.pow base s.length + positional base s
        = acc * Nat.pow base (s.length + 1) + positional base (b :: s) := by
      have hsucc : Nat.pow base (s.length + 1) = Nat.pow base s.length * base := rfl
      rw [positional_cons, hsucc, Nat.add_mul, Nat.add_assoc, Nat.mul_assoc,
        Nat.mul_comm base]
    rw [List.forall_mem_cons, List.length_cons, ← hsum, continueNat?]
    by_cases hb : rank b < base
    · have hvalue : value? b = some (rank b) := value?_eq_some_iff.mpr ⟨rfl, by omega⟩
      rw [hvalue]
      simp only [hb, if_true, true_and]
      exact ih
    · -- a byte whose rank is not below the base is no digit, or one of a greater base
      have hnone : continueNat? base acc (b :: s) = none := by
        rw [continueNat?]
        cases hvalue : value? b with
        | none => rfl
        | some d =>
          obtain ⟨rfl, -⟩ := value?_eq_some_iff.mp hvalue
          exact if_neg hb
      rw [continueNat?] at hnone
      rw [hnone]
      simp [hb]

/-- **Reading gives the positional value**, for exactly the texts of digits of the base. -/
theorem toNat?_eq_some_iff {base : ℕ} (hbase : base ≤ 16) {n : ℕ} {s : Bytes} :
    toNat? base s = some n ↔ s ≠ [] ∧ (∀ b ∈ s, rank b < base) ∧ n = positional base s := by
  by_cases hs : s = []
  · subst hs
    exact ⟨nofun, fun h ↦ absurd rfl h.1⟩
  · rw [toNat?_eq_continueNat? hs, continueNat?_eq_some_iff hbase, Nat.zero_mul, Nat.zero_add]
    exact (and_iff_right hs).symm

theorem toNat?_lower {base : ℕ} (hbase : base ≤ 16) (s : Bytes) :
    toNat? base (Bytes.lower s) = toNat? base s := by
  have hne : Bytes.lower s ≠ [] ↔ s ≠ [] := by rw [Bytes.lower, ne_eq, List.map_eq_nil_iff]
  have hrank : (∀ b ∈ Bytes.lower s, rank b < base) ↔ ∀ b ∈ s, rank b < base := by
    simp only [Bytes.lower, List.forall_mem_map, rank_lowerByte]
  refine Option.ext fun n ↦ ?_
  rw [toNat?_eq_some_iff hbase, toNat?_eq_some_iff hbase, hne, hrank, positional_lower]

theorem positional_eq_zero_iff {base : ℕ} (hbase : base ≠ 0) {s : Bytes} :
    positional base s = 0 ↔ ∀ b ∈ s, rank b = 0 := by
  induction s with
  | nil => exact ⟨fun _ ↦ nofun, fun _ ↦ rfl⟩
  | cons b s ih =>
    have hpow : Nat.pow base s.length ≠ 0 := pow_ne_zero _ hbase
    rw [positional_cons, Nat.add_eq_zero_iff, Nat.mul_eq_zero, or_iff_left hpow, ih,
      List.forall_mem_cons]

end Digits

/-! ### Whole numbers of 64 bits -/

namespace Radix

/-- The limit of a magnitude: a negative number may be one further from zero. -/
theorem le_magnitudeLimit_iff {negative : Bool} {n : ℕ} : n ≤ magnitudeLimit negative
    ↔ n < Nat.pow 2 63 ∨ negative = true ∧ n = Nat.pow 2 63 := by
  have h63 : Nat.pow 2 63 = 9223372036854775808 := by decide
  rcases negative with _ | _
  · rw [magnitudeLimit, if_neg Bool.false_ne_true, h63]
    simp
    omega
  · rw [magnitudeLimit, if_pos rfl, h63]
    simp
    omega

theorem le_of_le_limit {negative : Bool} {n : ℕ} (h : n ≤ magnitudeLimit negative) :
    n ≤ Nat.pow 2 63 := by
  rcases le_magnitudeLimit_iff.mp h with h | ⟨-, rfl⟩
  · exact h.le
  · exact le_rfl

/-- The whole number of a text: its sign is split off, and its digits have a value within the limit
of the sign. -/
theorem readInteger?_eq_some_iff {radix : Radix} {s : Bytes} {negative : Bool} {n : ℕ} :
    readInteger? radix s = some (negative, n) ↔ (splitSign s).1 = negative
      ∧ n ≤ magnitudeLimit negative
      ∧ ∃ ds, radix.digits? (splitSign s).2 = some ds ∧ Digits.toNat? radix.base ds = some n := by
  constructor
  · intro h
    obtain ⟨ds, hds, h⟩ := Option.bind_eq_some_iff.mp h
    obtain ⟨m, hm, h⟩ := Option.bind_eq_some_iff.mp h
    obtain ⟨hle, heq⟩ := Option.ite_none_right_eq_some.mp h
    obtain ⟨rfl, rfl⟩ := Prod.mk.inj (Option.some.inj heq)
    exact ⟨rfl, hle, ds, hds, hm⟩
  · rintro ⟨rfl, hle, ds, hds, hm⟩
    simp [readInteger?, hds, hm, hle]

theorem read?_eq_some_iff {radix : Radix} (hradix : radix ≠ .dec) {s : Bytes} {x : Binary64} :
    radix.read? s = some x ↔ ∃ negative n, readInteger? radix s = some (negative, n)
      ∧ x = .ofRatio negative (n * Quanta.one) 1 := by
  rw [read?_of_ne_dec hradix, Option.map_eq_some_iff]
  constructor
  · rintro ⟨⟨negative, n⟩, h, rfl⟩
    exact ⟨negative, n, h, rfl⟩
  · rintro ⟨negative, n, h, rfl⟩
    exact ⟨(negative, n), h, rfl⟩

end Radix

/-!
## Texts that are read, written again

In a radix other than decimal the range of 64 bits is checked twice: on the whole number that a text
stands for when it is read, and on the rounded number when it is written. The two checks do not
quite agree. A text whose whole number is one of the 512 below `2 ^ 63` is read, but its number is
`2 ^ 63`, which is not written in any radix but decimal. Every other number that was read is written
again, and read back from that text.
-/

namespace Binary64

theorem truncate_whole {negative : Bool} {k : ℕ} {h : Quanta.Representable (k * Quanta.one)} :
    truncate (.finite negative (k * Quanta.one) h) = some (signedQuanta negative k) := by
  rw [truncate, Nat.mul_div_cancel k Quanta.one_pos]

theorem toRat?_whole {negative : Bool} {k : ℕ} {h : Quanta.Representable (k * Quanta.one)} :
    toRat? (.finite negative (k * Quanta.one) h) = some (signedQuanta negative k : ℚ) := by
  have hone : (Quanta.one : ℚ) ≠ 0 := by exact_mod_cast Quanta.one_pos.ne'
  rw [toRat?, Nat.cast_mul, mul_div_cancel_right₀ _ hone]
  rcases negative with _ | _
  · rfl
  · exact congrArg some (by rw [signedQuanta, if_pos rfl, Int.cast_neg]; rfl)

/-- A whole number of the format is got back from its whole part, unless it is the negative zero. -/
theorem ofInt_signedQuanta {negative : Bool} {k : ℕ}
    (h : Quanta.Representable (k * Quanta.one)) :
    (ofInt (signedQuanta negative k)).toRat? = some (signedQuanta negative k : ℚ)
      ∧ (finite negative (k * Quanta.one) h ≠ zero true →
        ofInt (signedQuanta negative k) = .finite negative (k * Quanta.one) h) := by
  have habs : (signedQuanta negative k).natAbs = k := natAbs_signedQuanta negative k
  have hsigned : signedQuanta (decide (signedQuanta negative k < 0)) k
      = signedQuanta negative k := by
    have hsigned := signedQuanta_natAbs (signedQuanta negative k)
    rwa [habs] at hsigned
  have heq : ofInt (signedQuanta negative k)
      = .finite (decide (signedQuanta negative k < 0)) (k * Quanta.one) h := by
    have h' : Quanta.Representable ((signedQuanta negative k).natAbs * Quanta.one) := by rwa [habs]
    have hfinite := ofInt_eq_finite h'
    simp only [habs] at hfinite
    exact hfinite
  rw [heq, toRat?_whole, hsigned]
  refine ⟨rfl, fun hne ↦ ?_⟩
  rcases Nat.eq_zero_or_pos k with rfl | hk
  · -- the sign of a zero is lost, and the one that is not positive was excluded
    rcases negative with _ | _
    · rfl
    · exact absurd (by simp [zero]) hne
  · rcases negative with _ | _
    · have hnot : ¬signedQuanta false k < 0 := Int.not_lt.mpr (Int.natCast_nonneg k)
      rw [decide_eq_false hnot]
    · have hneg : signedQuanta true k < 0 := Int.neg_neg_of_pos (Int.natCast_pos.mpr hk)
      rw [decide_eq_true hneg]

end Binary64

namespace Radix

/-- The range of a value that was read: the limit of the positive numbers is reached, though not by
the whole number that the text stands for. -/
theorem bounds_signedQuanta {negative : Bool} {m k : ℕ} (hk : k ≤ Nat.pow 2 63)
    (hm : m ≤ magnitudeLimit negative)
    (htop : m < Nat.pow 2 63 → (k = Nat.pow 2 63 ↔ Nat.pow 2 63 - 512 ≤ m)) :
    -(Nat.pow 2 63 : ℤ) ≤ Binary64.signedQuanta negative k
      ∧ Binary64.signedQuanta negative k ≤ Nat.pow 2 63
      ∧ (Binary64.signedQuanta negative k = Nat.pow 2 63
        ↔ negative = false ∧ Nat.pow 2 63 - 512 ≤ m) := by
  have h63 : Nat.pow 2 63 = 9223372036854775808 := by decide
  rcases negative with _ | _
  · have hlt : m < Nat.pow 2 63 := (le_magnitudeLimit_iff.mp hm).resolve_right (by simp)
    rw [and_iff_right rfl, ← htop hlt, Binary64.signedQuanta, if_neg Bool.false_ne_true]
    rw [h63] at hk ⊢
    omega
  · have hnot : ¬(true = false ∧ Nat.pow 2 63 - 512 ≤ m) := by simp
    rw [iff_false_intro hnot, iff_false, Binary64.signedQuanta, if_pos rfl]
    rw [h63] at hk ⊢
    omega

/-- **Texts are written again, but for the topmost.** A text that is read in a radix other than
decimal has a whole number for its value, which is at most `2 ^ 63` in magnitude. It is `2 ^ 63`
exactly for the positive magnitudes of 64 bits from `2 ^ 63 - 512` on, and then it is not written.
Every other value is written, and what it is written as is read as the same value. -/
theorem write?_of_read? {radix : Radix} (hradix : radix ≠ .dec) {s : Bytes} {x : Binary64}
    (h : radix.read? s = some x) :
    ∃ negative m n, readInteger? radix s = some (negative, m) ∧ x.truncate = some n
      ∧ x.toRat? = some (n : ℚ) ∧ -(Nat.pow 2 63 : ℤ) ≤ n ∧ n ≤ Nat.pow 2 63
      ∧ (n = Nat.pow 2 63 ↔ negative = false ∧ Nat.pow 2 63 - 512 ≤ m)
      ∧ (n = Nat.pow 2 63 → radix.write? x = none)
      ∧ (n < Nat.pow 2 63 → ∃ text y, radix.write? x = some text ∧ radix.read? text = some y
        ∧ y.toRat? = some (n : ℚ) ∧ (x ≠ .zero true → y = x)) := by
  obtain ⟨negative, m, hinteger, rfl⟩ := (read?_eq_some_iff hradix).mp h
  obtain ⟨-, hlimit, -⟩ := readInteger?_eq_some_iff.mp hinteger
  obtain ⟨k, hk, heq, hle, htop⟩ := Binary64.exists_ofRatio_whole negative (le_of_le_limit hlimit)
  have htruncate : (Binary64.ofRatio negative (m * Quanta.one) 1).truncate
      = some (Binary64.signedQuanta negative k) := by rw [heq, Binary64.truncate_whole]
  have hwrite := write?_eq_map_signed hradix (Binary64.ofRatio negative (m * Quanta.one) 1)
  rw [integer?, htruncate] at hwrite
  obtain ⟨hlower, hupper, hlimit'⟩ := bounds_signedQuanta hle hlimit htop
  refine ⟨negative, m, Binary64.signedQuanta negative k, hinteger, htruncate, ?_, hlower, hupper,
    hlimit', ?_, ?_⟩
  · rw [heq, Binary64.toRat?_whole]
  · intro hout
    rw [hwrite, Option.filter_some_neg (by simp [InRange, hout])]
    rfl
  · intro hin
    have hrange : InRange (Binary64.signedQuanta negative k) := ⟨hlower, hin⟩
    have hfilter : (some (Binary64.signedQuanta negative k)).filter (fun n ↦ decide (InRange n))
        = some (Binary64.signedQuanta negative k) := Option.filter_some_pos (decide_eq_true hrange)
    rw [hfilter] at hwrite
    obtain ⟨hvalue, hsame⟩ := Binary64.ofInt_signedQuanta hk
    refine ⟨_, _, hwrite, read?_signed hradix hrange, hvalue, ?_⟩
    rw [heq]
    exact hsame

/-- The greatest whole number of 64 bits is read, but its number is not written. -/
theorem write?_of_read?_top : ∃ x, hex.read? (utf8 "0x7fffffffffffffff") = some x
    ∧ x.truncate = some 9223372036854775808 ∧ hex.write? x = none := by
  refine ⟨.ofRatio false (9223372036854775807 * Quanta.one) 1, ?_, ?_, ?_⟩
  · decide +kernel
  · decide +kernel
  · decide +kernel

/-- The magnitude below the topmost is rounded down, and so it is written. -/
theorem write?_of_read?_below :
    ∃ x, hex ≠ .dec ∧ hex.read? (utf8 "0x7ffffffffffffdff") = some x
      ∧ ∃ text y, hex.write? x = some text ∧ hex.read? text = some y ∧ y = x := by
  have hread : hex.read? (utf8 "0x7ffffffffffffdff")
      = some (.ofRatio false (9223372036854775295 * Quanta.one) 1) := by decide +kernel
  have htruncate : (Binary64.ofRatio false (9223372036854775295 * Quanta.one) 1).truncate
      = some 9223372036854774784 := by decide +kernel
  have hzero : Binary64.ofRatio false (9223372036854775295 * Quanta.one) 1 ≠ .zero true := by
    decide +kernel
  obtain ⟨negative, m, n, -, hn, -, -, -, -, -, hwrite⟩ := write?_of_read? (by decide) hread
  obtain rfl := Option.some.inj (htruncate.symm.trans hn)
  obtain ⟨text, y, htext, hy, -, hsame⟩ := hwrite (by decide)
  exact ⟨_, by decide, hread, text, y, htext, hy, hsame hzero⟩

end Radix

end Abacus
