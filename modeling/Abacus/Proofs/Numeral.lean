import Abacus.Decimal
import Abacus.Proofs.Binary64.Rounding
import Abacus.Proofs.Bytes
import Abacus.Radix

/-!
# Texts of numbers

A number is read back from its decimal text, which shows the radix that it is read in.
-/

namespace Abacus

/-!
## Decimal texts read back

A magnitude is read back from the decimal text it is written as (`readUnsigned?_magnitude`), so that
passing numbers on as texts loses nothing. The one thing to show is that the search for the shortest
text always ends with one that reads back, which it does at the latest with all 1074 places of a
multiple of `2 ^ -1074`.
-/

namespace Decimal

/-! ### Reading positional texts -/

theorem takeDigits_append {s t : Bytes} (hs : ∀ b ∈ s, Bytes.isDigit b = true)
    (ht : ∀ b ∈ t.head?, Bytes.isDigit b = false) : takeDigits (s ++ t) = (s, t) := by
  have htake : t.takeWhile Bytes.isDigit = [] := by
    cases t with
    | nil => rfl
    | cons b t => rw [List.takeWhile_cons, ht b rfl]; rfl
  have hdrop : t.dropWhile Bytes.isDigit = t := by
    cases t with
    | nil => rfl
    | cons b t => rw [List.dropWhile_cons, ht b rfl]; rfl
  rw [takeDigits, List.takeWhile_append_of_pos hs, List.dropWhile_append_of_pos hs, htake, hdrop,
    List.append_nil]

theorem takeDigits_of_forall {s : Bytes} (hs : ∀ b ∈ s, Bytes.isDigit b = true) :
    takeDigits s = (s, []) := by
  simpa using takeDigits_append (t := []) hs (by simp)

theorem scientific_ofNat (n : Nat) :
    ∃ length, Scientific.read? (Digits.ofNat 10 n) = some ⟨n, length, 0⟩ := by
  refine ⟨(Digits.ofNat 10 n).length, ?_⟩
  rw [Scientific.read?, takeDigits_of_forall fun b hb ↦ Digits.isDigit_of_mem_ofNat hb]
  simp [takeFraction, Digits.toNat?_ofNat, exponentPart?]

/-- A positional text is read as its digits, at least as many as it has places. -/
theorem scientific_positional (digits places : Nat) : ∃ length, places ≤ length
    ∧ Scientific.read? (positional digits places) = some ⟨digits, length, -(places : Int)⟩ := by
  by_cases hplaces : places = 0
  · obtain ⟨length, hread⟩ := scientific_ofNat digits
    exact ⟨length, by omega, by rw [positional, if_pos hplaces, hread, hplaces]; rfl⟩
  · let whole := Digits.ofNat 10 (digits / Nat.pow 10 places)
    let fraction := Digits.fixedWidth places digits
    have hwhole : takeDigits (whole ++ '.'.toUInt8 :: fraction)
        = (whole, '.'.toUInt8 :: fraction) :=
      takeDigits_append (fun b hb ↦ Digits.isDigit_of_mem_ofNat hb) (by simp; decide)
    have hfraction : takeFraction ('.'.toUInt8 :: fraction) = (fraction, []) := by
      rw [takeFraction, if_pos rfl,
        takeDigits_of_forall fun b hb ↦ Digits.isDigit_of_mem_fixedWidth hb]
    -- quotient and remainder are put together again when both parts are read as one number
    have hdigits : Digits.toNat? 10 (whole ++ fraction) = some digits := by
      have hne : whole ++ fraction ≠ [] := by simp [whole, Digits.ofNat_ne_nil]
      rw [Digits.toNat?_eq_continueNat? hne, Digits.continueNat?_append,
        Digits.continueNat?_ofNat (by decide) (by decide), Option.bind_some,
        Digits.continueNat?_fixedWidth, Nat.mul_comm, Nat.div_add_mod]
    refine ⟨(whole ++ fraction).length, by simp [fraction], ?_⟩
    rw [positional, if_neg hplaces, Scientific.read?, hwhole]
    simp [hfraction, hdigits, exponentPart?, fraction]

theorem toBinary64_places (digits : Nat) {length places : Nat} (h : places ≤ length)
    (negative : Bool) : Scientific.toBinary64 negative ⟨digits, length, -(places : Int)⟩
      = .ofRatio negative (digits * Quanta.one) (Nat.pow 10 places) := by
  by_cases hplaces : places = 0
  · subst hplaces
    simp [Scientific.toBinary64]
  · have hneg : ¬0 ≤ -(places : Int) := by omega
    have hmin : min (- -(places : Int)).toNat (length + 400) = places := by omega
    rw [Scientific.toBinary64, if_neg hneg, hmin]

/-! ### The search -/

theorem pow_two_dvd_pow_ten {e places : Nat} (h : e ≤ places) :
    Nat.pow 2 e ∣ Nat.pow 10 places := by
  have hpow : Nat.pow 10 places = Nat.pow 2 places * Nat.pow 5 places := Nat.mul_pow 2 5 places
  rw [hpow]
  exact Nat.dvd_mul_right_of_dvd (Nat.pow_dvd_pow 2 h) _

theorem one_dvd_pow_ten {places : Nat} (h : 1074 ≤ places) :
    Quanta.one ∣ Nat.pow 10 places := by
  unfold Quanta.one
  -- the exponent is generalized so that nothing computes the power
  generalize 1074 = e at h ⊢
  exact pow_two_dvd_pow_ten h

/-- With enough places nothing is left out of a count of quanta. -/
theorem readsBack_all_places {n places : Nat} (h : Quanta.Representable n)
    (hplaces : 1074 ≤ places) : ReadsBack n (n * Nat.pow 10 places / Quanta.one) places := by
  have hcancel : n * Nat.pow 10 places / Quanta.one * Quanta.one = n * Nat.pow 10 places :=
    Nat.div_mul_cancel (Nat.dvd_mul_left_of_dvd (one_dvd_pow_ten hplaces) n)
  rw [ReadsBack, hcancel]
  exact Quanta.round_mul_of_representable h (Nat.pow_pos (by decide))

theorem readsBack_searchFrom {n : Nat} (h : Quanta.Representable n) {places more : Nat}
    (hall : 1074 ≤ places + more) :
    ReadsBack n (searchFrom n places more).1 (searchFrom n places more).2 := by
  induction more generalizing places with
  | zero =>
    rewrite [searchFrom]
    exact readsBack_all_places h (by omega)
  | succ more ih =>
    rewrite [searchFrom]
    cases hnear : nearest? n places with
    | none => exact ih (by omega)
    | some digits =>
      have hfound := List.find?_some (p := fun d ↦ decide (ReadsBack n d places)) hnear
      exact of_decide_eq_true hfound

theorem readsBack_shortest {n : Nat} (h : Quanta.Representable n) :
    ReadsBack n (shortest n).1 (shortest n).2 :=
  readsBack_searchFrom h (Nat.le_add_left 1074 0)

/-! ### Magnitudes -/

/-- A literal whose value is a count of quanta, and not zero unless its digits are. -/
theorem readUnsigned?_of_scientific {s : Bytes} {x : Scientific} {negative : Bool} {n : Nat}
    {h : Quanta.Representable n} (hread : Scientific.read? s = some x)
    (hvalue : x.toBinary64 negative = .finite negative n h) (hzero : n = 0 → x.digits = 0) :
    readUnsigned? negative s = some (.finite negative n h) := by
  have hfits : x.fits (.finite negative n h) = true := by
    by_cases hn : n = 0
    · simp [Scientific.fits, hzero hn]
    · simp [Scientific.fits, hn]
  rw [readUnsigned?, hread]
  simp only [hvalue, hfits, if_true]

/-- The text of a magnitude is read as that magnitude, with the sign that stood in front of it. -/
theorem readUnsigned?_magnitude {n : Nat} (h : Quanta.Representable n) (negative : Bool) :
    readUnsigned? negative (magnitude n) = some (.finite negative n h) := by
  unfold magnitude
  split
  · next hwhole =>
    obtain ⟨length, hread⟩ := scientific_ofNat (n / Quanta.one)
    refine readUnsigned?_of_scientific hread ?_ fun hn ↦ ?_
    · have hround : Quanta.round (n / Quanta.one * Quanta.one) 1 = n := by
        rw [Nat.div_mul_cancel (Nat.dvd_of_mod_eq_zero hwhole), Quanta.round_one h]
      have hplaces := toBinary64_places (n / Quanta.one) (Nat.zero_le length) negative
      exact hplaces.trans (Binary64.ofRatio_eq_finite hround h)
    · rw [hn]
      exact Nat.zero_div _
  · next hfraction =>
    obtain ⟨length, hlength, hread⟩ := scientific_positional (shortest n).1 (shortest n).2
    refine readUnsigned?_of_scientific hread ?_ fun hn ↦ ?_
    · exact (toBinary64_places _ hlength negative).trans
        (Binary64.ofRatio_eq_finite (readsBack_shortest h) h)
    · rw [hn, Nat.zero_mod] at hfraction
      exact absurd rfl hfraction

/-! ### Texts of numbers -/

/-- A magnitude begins with the digits of its whole part, and behind them there is nothing, or a
point and more digits. -/
theorem exists_magnitude_eq (n : Nat) : ∃ whole tail, magnitude n = Digits.ofNat 10 whole ++ tail
    ∧ (tail = [] ∨ ∃ fraction, tail = '.'.toUInt8 :: fraction
      ∧ ∀ b ∈ fraction, Bytes.isDigit b = true) := by
  unfold magnitude
  split
  · exact ⟨_, [], (List.append_nil _).symm, .inl rfl⟩
  · unfold positional
    split
    · exact ⟨_, [], (List.append_nil _).symm, .inl rfl⟩
    · exact ⟨_, _, rfl, .inr ⟨_, rfl, fun b hb ↦ Digits.isDigit_of_mem_fixedWidth hb⟩⟩

end Decimal

/-!
## Texts taken apart

How a text is taken apart before it is read: its sign is split off, and what is left shows a radix.
The case of letters does not matter for either. What is left also tells whether the text can be the
name of a NaN.
-/

/-! ### Signs -/

namespace Radix

theorem splitSign_of_ne {b : UInt8} (hb : b ≠ '-'.toUInt8) (rest : Bytes) :
    splitSign (b :: rest) = (false, b :: rest) := if_neg hb

theorem splitSign_sign_append {s : Bytes} (h : ∃ b rest, s = b :: rest ∧ b ≠ '-'.toUInt8)
    (negative : Bool) : splitSign (Decimal.sign negative ++ s) = (negative, s) := by
  obtain ⟨b, rest, rfl, hb⟩ := h
  cases negative with
  | true => rfl
  | false => exact splitSign_of_ne hb rest

end Radix

theorem Decimal.read?_of_splitSign {s : Bytes} {negative : Bool} {b : UInt8} {rest : Bytes}
    (h : Radix.splitSign s = (negative, b :: rest)) :
    read? s = readUnsigned? negative (b :: rest) := by
  obtain _ | ⟨c, tail⟩ := s
  · cases h
  rw [Radix.splitSign] at h
  rw [read?]
  by_cases hc : c = '-'.toUInt8
  · rw [if_pos hc] at h ⊢
    cases h
    rfl
  · rw [if_neg hc] at h ⊢
    cases h
    rfl

/-! ### Case -/

namespace Radix

theorem splitSign_lower (s : Bytes) :
    splitSign (Bytes.lower s) = ((splitSign s).1, Bytes.lower (splitSign s).2) := by
  cases s with
  | nil => rfl
  | cons b rest =>
    have hminus : Bytes.lowerByte b = '-'.toUInt8 ↔ b = '-'.toUInt8 :=
      Bytes.lowerByte_eq_iff (by decide)
    show splitSign (Bytes.lowerByte b :: Bytes.lower rest) = _
    by_cases hb : b = '-'.toUInt8
    · rw [splitSign, splitSign, if_pos (hminus.mpr hb), if_pos hb]
    · rw [splitSign, splitSign, if_neg (mt hminus.mp hb), if_neg hb]
      rfl

theorem detectUnsigned_lower (s : Bytes) : detectUnsigned (Bytes.lower s) = detectUnsigned s := by
  cases s with
  | nil => rfl
  | cons b rest =>
    have hzero : Bytes.lowerByte b = '0'.toUInt8 ↔ b = '0'.toUInt8 :=
      Bytes.lowerByte_eq_iff (by decide)
    show detectUnsigned (Bytes.lowerByte b :: Bytes.lower rest) = _
    cases rest with
    | nil => simp only [detectUnsigned, Bytes.lower, List.map_nil, Bytes.lowerByte_lowerByte, hzero]
    | cons c rest =>
      have hpoint : '.'.toUInt8 ∈ Bytes.lower (c :: rest) ↔ '.'.toUInt8 ∈ c :: rest :=
        Bytes.mem_lower_iff (by decide)
      rw [Bytes.lower, List.map_cons] at hpoint ⊢
      simp only [detectUnsigned, Bytes.lowerByte_lowerByte, hzero, hpoint]

theorem detect_lower (s : Bytes) : detect (Bytes.lower s) = detect s := by
  rw [detect, splitSign_lower, detectUnsigned_lower, detect]

end Radix

/-! ### Names of a NaN -/

theorem Decimal.readUnsigned?_ne_nan {b : UInt8} (hb : Bytes.lowerByte b ≠ 'n'.toUInt8)
    (negative : Bool) (rest : Bytes) : readUnsigned? negative (b :: rest) ≠ some .nan := by
  unfold readUnsigned?
  split
  · next x _ =>
    dsimp only
    split
    · next hfits =>
      intro h
      rw [Option.some.inj h] at hfits
      cases hfits
    · nofun
  · -- the names that give a NaN have one first byte, which is not that of the text
    have hname : (Bytes.lower (b :: rest)).head? ≠ (utf8 "nan").head? := fun h ↦
      hb (Option.some.inj h)
    rw [named?]
    split
    · nofun
    split
    · next h =>
      rcases h with h | ⟨h, -⟩
      · exact absurd (congrArg List.head? h) hname
      · exact absurd (congrArg List.head? h) hname
    · nofun

namespace Radix

theorem read?_of_ne_dec {radix : Radix} (hradix : radix ≠ .dec) (s : Bytes) :
    radix.read? s = (readInteger? radix s).map fun (negative, magnitude) ↦
      .ofRatio negative (magnitude * Quanta.one) 1 := by
  cases radix with
  | dec => exact absurd rfl hradix
  | _ => rfl

/-- A text is read as a NaN only if it begins like the name of one behind its sign. -/
theorem read?_ne_nan {s : Bytes} {negative : Bool} {b : UInt8} {rest : Bytes}
    (h : splitSign s = (negative, b :: rest)) (hb : Bytes.lowerByte b ≠ 'n'.toUInt8)
    (radix : Radix) : radix.read? s ≠ some .nan := by
  have hratio : ∀ r : Option (Bool × Nat), (r.map fun (negative, magnitude) ↦
      Binary64.ofRatio negative (magnitude * Quanta.one) 1) ≠ some .nan := by
    rintro (_ | ⟨negative, magnitude⟩)
    · nofun
    · exact fun h ↦ Binary64.ofRatio_ne_nan _ _ _ (Option.some.inj h)
  by_cases hradix : radix = dec
  · subst hradix
    show Decimal.read? s ≠ some .nan
    rw [Decimal.read?_of_splitSign h]
    exact Decimal.readUnsigned?_ne_nan hb negative rest
  · rw [read?_of_ne_dec hradix]
    exact hratio _

end Radix

/-!
## Decimal texts

The decimal text of a number is in lower case, shows the decimal radix, and is read back as the
number.
-/

namespace Decimal

theorem isUpper_of_mem_magnitude {n : Nat} {b : UInt8} (h : b ∈ magnitude n) :
    Bytes.isUpper b = false := by
  obtain ⟨whole, tail, heq, htail⟩ := exists_magnitude_eq n
  rw [heq] at h
  rcases List.mem_append.mp h with h | h
  · exact Bytes.isUpper_of_isDigit (Digits.isDigit_of_mem_ofNat h)
  · rcases htail with rfl | ⟨fraction, rfl, hfraction⟩
    · cases h
    · rcases List.mem_cons.mp h with rfl | h
      · decide
      · exact Bytes.isUpper_of_isDigit (hfraction b h)

@[simp] theorem lower_write (x : Binary64) : Bytes.lower (write x) = write x := by
  cases x with
  | nan => decide
  | infinite negative =>
    cases negative with
    | false | true => decide
  | finite negative n h =>
    refine Bytes.lower_of_forall fun b hb ↦ ?_
    rcases List.mem_append.mp hb with hb | hb
    · cases negative with
      | false => cases hb
      | true => rw [List.mem_singleton.mp hb]; decide
    · exact isUpper_of_mem_magnitude hb

/-- The text of a magnitude shows the decimal radix: a zero at its front is alone, or a point is
behind it. -/
theorem detectUnsigned_magnitude (n : Nat) : Radix.detectUnsigned (magnitude n) = .dec := by
  obtain ⟨whole, tail, heq, htail⟩ := exists_magnitude_eq n
  rw [heq]
  by_cases hwhole : whole = 0
  · rcases htail with rfl | ⟨fraction, rfl, -⟩
    · rw [hwhole, Digits.ofNat_of_lt (by decide)]
      decide
    · rw [hwhole, Digits.ofNat_of_lt (by decide)]
      -- the byte behind the zero is the point, which no prefix of a radix has there
      have hb : ¬Bytes.lowerByte (Digits.digit 0) = 'b'.toUInt8 := by decide
      have hzero : Digits.digit 0 = '0'.toUInt8 := by decide
      have hx : ¬Bytes.lowerByte '.'.toUInt8 = 'x'.toUInt8 := by decide
      simp only [List.singleton_append, Radix.detectUnsigned, if_neg hb, if_pos hzero, if_neg hx,
        List.mem_cons_self, if_true]
  · obtain ⟨d, rest, hpos, hlt, hdigits⟩ := Digits.exists_head_ofNat (Nat.pos_of_ne_zero hwhole)
    have hall : ∀ d : Fin 10, 0 < d.val → Bytes.lowerByte (Digits.digit d) ≠ 'b'.toUInt8
        ∧ Digits.digit d ≠ '0'.toUInt8 := by decide
    obtain ⟨hb, hzero⟩ := hall ⟨d, hlt⟩ hpos
    simp only [hdigits, List.cons_append, Radix.detectUnsigned, if_neg hb, if_neg hzero]

theorem exists_cons_magnitude (n : Nat) :
    ∃ b rest, magnitude n = b :: rest ∧ b ≠ '-'.toUInt8 := by
  obtain ⟨whole, tail, heq, -⟩ := exists_magnitude_eq n
  obtain ⟨b, rest, hb⟩ := List.exists_cons_of_ne_nil (Digits.ofNat_ne_nil 10 whole)
  have hdigit : Bytes.isDigit b = true :=
    Digits.isDigit_of_mem_ofNat (n := whole) (hb ▸ List.mem_cons_self)
  refine ⟨b, rest ++ tail, by rw [heq, hb, List.cons_append], ?_⟩
  rintro rfl
  exact absurd hdigit (by decide)

theorem splitSign_write_finite (negative : Bool) (n : Nat) :
    Radix.splitSign (sign negative ++ magnitude n) = (negative, magnitude n) :=
  Radix.splitSign_sign_append (exists_cons_magnitude n) negative

theorem detect_write (x : Binary64) : Radix.detect (write x) = .dec := by
  cases x with
  | nan => decide
  | infinite negative =>
    cases negative with
    | false | true => decide
  | finite negative n h =>
    rw [write, Radix.detect, splitSign_write_finite]
    exact detectUnsigned_magnitude n

/-- **Nothing is lost in a text.** Every number is read back from its decimal text. -/
theorem read?_write (x : Binary64) : read? (write x) = some x := by
  cases x with
  | nan => decide
  | infinite negative =>
    cases negative with
    | false | true => decide
  | finite negative n h =>
    have hsplit := splitSign_write_finite negative n
    obtain ⟨b, rest, heq, -⟩ := exists_cons_magnitude n
    rw [heq] at hsplit
    rw [write, heq, read?_of_splitSign hsplit, ← heq, readUnsigned?_magnitude h negative]

end Decimal

/-!
## Numerals that show their radix

A numeral whose text shows the radix it is read in is known by its text alone. Literals of a line
and computed numbers are such numerals; a variable is one unless a profile says otherwise.
-/

namespace Numeral

theorem ofRadix_of_lower {text : Bytes} (h : Bytes.lower text = text) (radix : Radix) :
    ofRadix text radix = ⟨text, radix, h⟩ := by
  simp only [ofRadix, h]

theorem ofText_lower (s : Bytes) : ofText (Bytes.lower s) = ofText s := by
  simp only [ofText, ofRadix, Radix.detect_lower, Bytes.lower_lower]

theorem negated_lower (s : Bytes) : negated (Bytes.lower s) = negated s := by
  have hlower : Bytes.lower ('-'.toUInt8 :: Bytes.lower s) = Bytes.lower ('-'.toUInt8 :: s) :=
    congrArg ('-'.toUInt8 :: ·) (Bytes.lower_lower s)
  simp only [negated, ofRadix, Radix.detect_lower, hlower]

/-- A numeral whose text shows the radix it is read in. -/
def ShowsRadix (n : Numeral) : Prop := n.radix = Radix.detect n.text

/-- A numeral that shows its radix is known by its text. -/
theorem ShowsRadix.ofText_text {n : Numeral} (h : n.ShowsRadix) : ofText n.text = n := by
  obtain ⟨text, radix, hlower⟩ := n
  obtain rfl : radix = Radix.detect text := h
  exact ofRadix_of_lower hlower _

theorem showsRadix_ofText (text : Bytes) : (ofText text).ShowsRadix :=
  (Radix.detect_lower text).symm

theorem showsRadix_negated {b : UInt8} {rest : Bytes} (hb : b ≠ '-'.toUInt8) :
    (negated (b :: rest)).ShowsRadix := by
  have hnegated : Radix.splitSign ('-'.toUInt8 :: b :: rest) = (true, b :: rest) := rfl
  rw [ShowsRadix, negated, ofRadix, Radix.detect_lower, Radix.detect, Radix.detect,
    Radix.splitSign_of_ne hb, hnegated]

theorem number?_ofRadix_ne_nan {s : Bytes} {negative : Bool} {b : UInt8} {rest : Bytes}
    (h : Radix.splitSign s = (negative, b :: rest)) (hb : Bytes.lowerByte b ≠ 'n'.toUInt8)
    (radix : Radix) : (ofRadix s radix).number? ≠ some .nan := by
  have hsplit : Radix.splitSign (Bytes.lower s)
      = (negative, Bytes.lowerByte b :: Bytes.lower rest) := by
    rw [Radix.splitSign_lower, h]
    rfl
  exact Radix.read?_ne_nan hsplit (by rwa [Bytes.lowerByte_lowerByte]) radix

theorem text_ofNumber (x : Binary64) : (ofNumber x).text = Decimal.write x := Decimal.lower_write x

theorem showsRadix_ofNumber (x : Binary64) : (ofNumber x).ShowsRadix := by
  rw [ShowsRadix, text_ofNumber, Decimal.detect_write]
  rfl

theorem number?_ofNumber (x : Binary64) : (ofNumber x).number? = some x := by
  rw [number?, text_ofNumber]
  exact Decimal.read?_write x

/-- A numeral that shows its radix and is a number in it. -/
structure Valid (n : Numeral) : Prop where
  showsRadix : n.ShowsRadix
  number?_ne_none : n.number? ≠ none

theorem valid_ofNumber (x : Binary64) : (ofNumber x).Valid := by
  refine ⟨showsRadix_ofNumber x, ?_⟩
  rw [number?_ofNumber]
  nofun

end Numeral

end Abacus
