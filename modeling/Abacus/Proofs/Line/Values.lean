import Abacus.Proofs.Binary64.Integers
import Abacus.Proofs.Line.Literals
import Abacus.Proofs.Radix.Positional
import Abacus.Proofs.Radix.Texts

/-!
# The values of literals

What a literal stands for is read off its bytes here, without the scanner and the reader: the radix
it shows (`radixShown`), its digits, which are what is left of it without a mark and a point, and
the number of places behind the point. With a sign in front, these give one rational number
(`exactValue`).

The calculator has a number for a literal exactly if this rational can be held. In a radix other
than decimal there has to be a digit, no digit may be beyond the base, and the magnitude is that of
a signed number of 64 bits. A decimal literal may be of any length, but it has no number if its
value is rounded to an infinity, or to zero although it has other digits. The number is the nearest
one, in a tie the even one.
-/

namespace Abacus

namespace Line

/-! ## The parts of a literal -/

/-- The radix that a literal shows by how it begins, and by its point. -/
def radixShown (l : Bytes) : Radix :=
  if l.head? = some 'b'.toUInt8 then .bin
  else if utf8 "0x" <+: l ∨ utf8 "0X" <+: l then .hex
  else if l.head? = some '0'.toUInt8 ∧ 1 < l.length ∧ '.'.toUInt8 ∉ l then .oct
  else .dec

/-- The digits of a literal: all of it but the mark of its radix and its point. -/
def digitsOf (l : Bytes) : Bytes := (l.drop (radixShown l).mark.length).filter (· ≠ '.'.toUInt8)

/-- How many digits of a literal stand behind its point. -/
def placesOf (l : Bytes) : ℕ := ((l.dropWhile (· ≠ '.'.toUInt8)).drop 1).length

/-- The number that the digits of a literal stand for, as if there were no point. -/
def wholeOf (l : Bytes) : ℕ := Digits.positional (radixShown l).base (digitsOf l)

/-- The rational number that a literal stands for, with or without a minus sign in front of it. -/
def exactValue (negative : Bool) (l : Bytes) : ℚ :=
  Binary64.signedRat negative (wholeOf l / (Nat.pow 10 (placesOf l) : ℕ))

/-- The numeral of a literal with or without a minus sign in front of it. -/
def literal (negative : Bool) (l : Bytes) : Numeral := if negative then .negated l else .ofText l

theorem radix_literal (negative : Bool) (l : Bytes) :
    (literal negative l).radix = Radix.detect l := by
  cases negative with
  | false | true => rfl

theorem text_literal (negative : Bool) (l : Bytes) :
    (literal negative l).text = Decimal.sign negative ++ Bytes.lower l := by
  cases negative with
  | false | true => rfl

theorem read_literal (negative : Bool) {l : Bytes} (h : Token.Lexeme l .number) :
    read (Decimal.sign negative ++ l) = ⟨[⟨.number (literal negative l), 0⟩,
      ⟨.endOfLine, (Decimal.sign negative ++ l).length⟩], none⟩ := by
  cases negative with
  | true => exact read_of_negative h
  | false => exact read_of_number h

/-! ## Literals by their radix -/

theorem point_not_mem {p : UInt8 → Bool} (hp : p '.'.toUInt8 = false) {s : Bytes}
    (hs : ∀ b ∈ s, p b = true) : '.'.toUInt8 ∉ s := by
  intro h
  have hpoint := hs _ h
  rw [hp] at hpoint
  cases hpoint

theorem filter_point {s : Bytes} (h : '.'.toUInt8 ∉ s) : s.filter (· ≠ '.'.toUInt8) = s := by
  refine List.filter_eq_self.mpr fun b hb ↦ decide_eq_true ?_
  rintro rfl
  exact h hb

theorem placesOf_eq_zero {l : Bytes} (h : '.'.toUInt8 ∉ l) : placesOf l = 0 := by
  have hdrop : l.dropWhile (· ≠ '.'.toUInt8) = [] := by
    rw [List.dropWhile_eq_nil_iff]
    intro b hb
    refine decide_eq_true ?_
    rintro rfl
    exact h hb
  rw [placesOf, hdrop]
  rfl

theorem hexMark_iff {b : UInt8} {rest : Bytes} :
    (utf8 "0x" <+: b :: rest ∨ utf8 "0X" <+: b :: rest)
      ↔ b = '0'.toUInt8 ∧ ∃ c tail, rest = c :: tail ∧ Bytes.lowerByte c = 'x'.toUInt8 := by
  constructor
  · rintro (⟨tail, h⟩ | ⟨tail, h⟩)
    · obtain ⟨hb, hrest⟩ := List.cons.inj h
      exact ⟨hb.symm, _, tail, hrest.symm, by decide⟩
    · obtain ⟨hb, hrest⟩ := List.cons.inj h
      exact ⟨hb.symm, _, tail, hrest.symm, by decide⟩
  · rintro ⟨rfl, c, tail, rfl, hc⟩
    rcases (Bytes.lowerByte_eq_x_iff c).mp hc with rfl | rfl
    · exact .inl ⟨tail, rfl⟩
    · exact .inr ⟨tail, rfl⟩

/-- How the text of a literal is taken apart when it is read, and that its parts are the digits and
places which the literal shows. -/
inductive Parts (l : Bytes) : Prop where
  | whole {ds : Bytes} (hradix : radixShown l ≠ .dec) (hplaces : placesOf l = 0)
      (hds : (radixShown l).digits? (Bytes.lower l) = some ds)
      (hvalue : Digits.toNat? (radixShown l).base ds
        = Digits.toNat? (radixShown l).base (digitsOf l))
  | decimal {ds tail fs : Bytes} (hradix : radixShown l = .dec) (hplaces : placesOf l = fs.length)
      (hdigits : digitsOf l = ds ++ fs) (hne : ds ≠ [])
      (hclass : ∀ b ∈ ds ++ fs, Bytes.isDigit b = true) (hlower : Bytes.lower l = l)
      (htake : Decimal.takeDigits l = (ds, tail))
      (hfraction : Decimal.takeFraction tail = (fs, []))

theorem parts_binary {ds : Bytes} (hclass : ∀ b ∈ ds, Bytes.isBinaryDigit b = true) :
    Parts ('b'.toUInt8 :: ds) := by
  have hradix : radixShown ('b'.toUInt8 :: ds) = .bin := if_pos rfl
  have hpoint := point_not_mem (by decide) hclass
  have hdigits : digitsOf ('b'.toUInt8 :: ds) = ds := by
    rw [digitsOf, hradix]
    exact filter_point hpoint
  have hlower : Bytes.lower ds = ds :=
    Bytes.lower_of_forall fun b hb ↦ Bytes.isUpper_of_isBinaryDigit (hclass b hb)
  have hds : Radix.digits? .bin (Bytes.lower ('b'.toUInt8 :: ds)) = some ds := by
    rw [Bytes.lower, List.map_cons, ← Bytes.lower, hlower]
    rfl
  rw [← hradix] at hds
  refine .whole (by rw [hradix]; decide) (placesOf_eq_zero ?_) hds (by rw [hdigits])
  exact fun h ↦ (List.mem_cons.mp h).elim (by decide) hpoint

theorem parts_hex {x : UInt8} {ds : Bytes} (hx : x = 'x'.toUInt8 ∨ x = 'X'.toUInt8)
    (hclass : ∀ b ∈ ds, Bytes.isHexDigit b = true) : Parts ('0'.toUInt8 :: x :: ds) := by
  have hradix : radixShown ('0'.toUInt8 :: x :: ds) = .hex := by
    have hmark := hexMark_iff.mpr ⟨rfl, x, ds, rfl, (Bytes.lowerByte_eq_x_iff x).mpr hx⟩
    rw [radixShown, if_neg (by rw [List.head?_cons]; decide), if_pos hmark]
  have hpoint := point_not_mem (by decide) hclass
  have hdigits : digitsOf ('0'.toUInt8 :: x :: ds) = ds := by
    rw [digitsOf, hradix]
    exact filter_point hpoint
  have hx' : Bytes.lowerByte '0'.toUInt8 = '0'.toUInt8
      ∧ Bytes.lowerByte (Bytes.lowerByte x) = 'x'.toUInt8 ∧ '.'.toUInt8 ≠ x := by
    rcases hx with rfl | rfl
    · decide
    · decide
  have hds : Radix.digits? .hex (Bytes.lower ('0'.toUInt8 :: x :: ds)) = some (Bytes.lower ds) :=
    if_pos ⟨hx'.1, hx'.2.1⟩
  rw [← hradix] at hds
  refine .whole (by rw [hradix]; decide) (placesOf_eq_zero ?_) hds ?_
  · intro h
    rcases List.mem_cons.mp h with h | h
    · exact absurd h (by decide)
    · exact (List.mem_cons.mp h).elim hx'.2.2 hpoint
  · rw [hdigits, hradix]
    exact Digits.toNat?_lower (by decide) ds

/-- A literal of digits alone, or with a point among them, has no mark. -/
theorem radixShown_eq_ite {l : Bytes} {d : UInt8} {rest : Bytes} (hl : l = d :: rest)
    (hd : Bytes.isDigit d = true) (hx : ∀ x ∈ rest.head?, Bytes.lowerByte x ≠ 'x'.toUInt8) :
    radixShown l = if d = '0'.toUInt8 ∧ rest ≠ [] ∧ '.'.toUInt8 ∉ rest then .oct else .dec := by
  have hb : l.head? ≠ some 'b'.toUInt8 := by
    rw [hl, List.head?_cons]
    exact fun h ↦ (Bytes.lowerByte_ne_of_isDigit hd rfl).2 (Option.some.inj h)
  have hmark : ¬(utf8 "0x" <+: l ∨ utf8 "0X" <+: l) := by
    rw [hl, hexMark_iff]
    rintro ⟨-, x, tail, rfl, hmark⟩
    exact hx x rfl hmark
  have hoct : (l.head? = some '0'.toUInt8 ∧ 1 < l.length ∧ '.'.toUInt8 ∉ l)
      ↔ d = '0'.toUInt8 ∧ rest ≠ [] ∧ '.'.toUInt8 ∉ rest := by
    have hpoint : '.'.toUInt8 ≠ d := (Bytes.lowerByte_ne_of_isDigit hd rfl).2.symm
    have hlength : 1 < rest.length + 1 ↔ rest ≠ [] := by
      rw [← List.length_pos_iff]
      omega
    rw [hl, List.head?_cons, Option.some_inj, List.length_cons, hlength, List.mem_cons, not_or,
      and_iff_right hpoint]
  rw [radixShown, if_neg hb, if_neg hmark]
  exact if_congr hoct rfl rfl

theorem parts_digits {ds : Bytes} (hne : ds ≠ []) (hclass : ∀ b ∈ ds, Bytes.isDigit b = true) :
    Parts ds := by
  have hpoint := point_not_mem (by decide) hclass
  have hlower : Bytes.lower ds = ds :=
    Bytes.lower_of_forall fun b hb ↦ Bytes.isUpper_of_isDigit (hclass b hb)
  obtain ⟨d, rest, rfl⟩ := List.exists_cons_of_ne_nil hne
  have hrest := List.forall_mem_cons.mp hclass
  have hx : ∀ x ∈ rest.head?, Bytes.lowerByte x ≠ 'x'.toUInt8 :=
    fun x hx ↦ (Bytes.lowerByte_ne_of_isDigit (hrest.2 x (List.mem_of_mem_head? hx)) rfl).1
  have hradix := radixShown_eq_ite rfl hrest.1 hx
  by_cases hoct : d = '0'.toUInt8 ∧ rest ≠ [] ∧ '.'.toUInt8 ∉ rest
  · obtain ⟨rfl, hrestne, hrestpoint⟩ := hoct
    rw [if_pos ⟨rfl, hrestne, hrestpoint⟩] at hradix
    have hds : Radix.digits? .oct (Bytes.lower ('0'.toUInt8 :: rest))
        = some ('0'.toUInt8 :: rest) := by
      rw [hlower]
      rfl
    rw [← hradix] at hds
    refine .whole (by rw [hradix]; decide) (placesOf_eq_zero hpoint) hds ?_
    have hdigits : digitsOf ('0'.toUInt8 :: rest) = rest := by
      rw [digitsOf, hradix]
      exact filter_point hrestpoint
    -- the mark is a digit as well, a zero
    rw [hdigits, hradix]
    exact Digits.toNat?_zero_cons (by decide) hrestne
  · rw [if_neg hoct] at hradix
    have hdigits : digitsOf (d :: rest) = d :: rest ++ [] := by
      rw [digitsOf, hradix, List.append_nil]
      exact filter_point hpoint
    have hplaces : placesOf (d :: rest) = ([] : Bytes).length := placesOf_eq_zero hpoint
    exact .decimal hradix hplaces hdigits hne (by rwa [List.append_nil]) hlower
      (Decimal.takeDigits_of_forall hclass) rfl

theorem parts_fraction {ds fs : Bytes} (hne : ds ≠ [])
    (hds : ∀ b ∈ ds, Bytes.isDigit b = true) (hfs : ∀ b ∈ fs, Bytes.isDigit b = true) :
    Parts (ds ++ '.'.toUInt8 :: fs) := by
  have hdspoint := point_not_mem (by decide) hds
  have hfspoint := point_not_mem (by decide) hfs
  have hlower : Bytes.lower (ds ++ '.'.toUInt8 :: fs) = ds ++ '.'.toUInt8 :: fs := by
    refine Bytes.lower_of_forall fun b hb ↦ ?_
    rcases List.mem_append.mp hb with hb | hb
    · exact Bytes.isUpper_of_isDigit (hds b hb)
    rcases List.mem_cons.mp hb with rfl | hb
    · decide
    · exact Bytes.isUpper_of_isDigit (hfs b hb)
  have hradix : radixShown (ds ++ '.'.toUInt8 :: fs) = .dec := by
    obtain ⟨d, rest, rfl⟩ := List.exists_cons_of_ne_nil hne
    have hrest := List.forall_mem_cons.mp hds
    rw [radixShown_eq_ite (List.cons_append) hrest.1, if_neg]
    · simp
    · intro x hx
      rcases rest with _ | ⟨c, rest⟩
      · rw [← Option.some.inj hx]
        decide
      · rw [← Option.some.inj hx]
        exact (Bytes.lowerByte_ne_of_isDigit (hrest.2 c List.mem_cons_self) rfl).1
  have hplaces : placesOf (ds ++ '.'.toUInt8 :: fs) = fs.length := by
    have hdrop : (ds ++ '.'.toUInt8 :: fs).dropWhile (· ≠ '.'.toUInt8) = '.'.toUInt8 :: fs := by
      rw [List.dropWhile_append_of_pos]
      · rfl
      · intro b hb
        refine decide_eq_true ?_
        rintro rfl
        exact hdspoint hb
    rw [placesOf, hdrop]
    rfl
  have hdigits : digitsOf (ds ++ '.'.toUInt8 :: fs) = ds ++ fs := by
    rw [digitsOf, hradix]
    show (ds ++ '.'.toUInt8 :: fs).filter (· ≠ '.'.toUInt8) = ds ++ fs
    rw [List.filter_append, filter_point hdspoint, List.filter_cons_of_neg (by decide),
      filter_point hfspoint]
  refine .decimal hradix hplaces hdigits hne (List.forall_mem_append.mpr ⟨hds, hfs⟩) hlower
    (Decimal.takeDigits_append hds ?_) ?_
  · rintro b hb
    rw [← Option.some.inj hb]
    decide
  · rw [Decimal.takeFraction, if_pos rfl, Decimal.takeDigits_of_forall hfs]

theorem parts {l : Bytes} (h : Token.Lexeme l .number) : Parts l := by
  cases h with
  | symbol h => cases h
  | keyword h => cases h
  | binary _ hds => exact parts_binary hds
  | hex hx hds => exact parts_hex hx hds
  | whole hne hds => exact parts_digits hne hds
  | fraction hne hds hfs => exact parts_fraction hne hds hfs

/-! ## The radix of a literal -/

theorem detectUnsigned_of_isDigit {b : UInt8} (hb : Bytes.isDigit b = true) (rest : Bytes) :
    Radix.detectUnsigned (b :: rest) = radixShown (b :: rest) := by
  obtain ⟨hlower, hne⟩ := Bytes.lowerByte_ne_of_isDigit (c := 'b'.toUInt8) hb rfl
  have hhead : (b :: rest).head? ≠ some 'b'.toUInt8 := fun h ↦ hne (Option.some.inj h)
  rw [radixShown, if_neg hhead, Radix.detectUnsigned.eq_def]
  by_cases hzero : b = '0'.toUInt8
  · rcases rest with _ | ⟨c, tail⟩
    · simp [hlower, hexMark_iff]
    · have hpoint : '.'.toUInt8 ∉ b :: c :: tail ↔ '.'.toUInt8 ∉ c :: tail := by
        rw [List.mem_cons, or_iff_right (by rw [hzero]; decide)]
      have hhex : (utf8 "0x" <+: b :: c :: tail ∨ utf8 "0X" <+: b :: c :: tail)
          ↔ Bytes.lowerByte c = 'x'.toUInt8 := by
        rw [hexMark_iff, and_iff_right hzero]
        simp
      have hlong : (b :: c :: tail).head? = some '0'.toUInt8 ∧ 1 < (b :: c :: tail).length :=
        ⟨congrArg some hzero, by simp⟩
      simp only [if_neg hlower, if_pos hzero, hhex, ← and_assoc, and_iff_right hlong, hpoint,
        ite_not]
  · simp [hlower, hzero, hexMark_iff]

/-- The radix that is detected is the one that a literal shows, also behind a minus sign. -/
theorem detect_of_number {l : Bytes} (h : Token.Lexeme l .number) (negative : Bool) :
    Radix.detect (Decimal.sign negative ++ l) = radixShown l := by
  obtain ⟨b, rest, rfl, hb, -⟩ := head_of_number h
  obtain ⟨b', rest', heq, hclass⟩ := h.exists_cons_of_number
  obtain ⟨rfl, rfl⟩ := List.cons.inj heq
  rw [Radix.detect, Radix.splitSign_sign_append ⟨b, rest, rfl, hb⟩]
  rcases hclass with rfl | hdigit
  · rfl
  · exact detectUnsigned_of_isDigit hdigit rest

/-! ## The number of a literal -/

theorem roundsTo_places (negative : Bool) (n places : ℕ) :
    Binary64.RoundsTo (Binary64.signedRat negative (n / (Nat.pow 10 places : ℕ)))
      (.ofRatio negative (n * Quanta.one) (Nat.pow 10 places)) := by
  have hone : (Quanta.one : ℚ) ≠ 0 := by exact_mod_cast Quanta.one_pos.ne'
  have hround := Binary64.roundsTo_ofRatio negative (n * Quanta.one)
    (Nat.pow_pos (by decide) : 0 < Nat.pow 10 places)
  rwa [Nat.cast_mul, div_right_comm, mul_div_cancel_right₀ _ hone] at hround

theorem splitSign_literal {l : Bytes} (h : Token.Lexeme l .number) (negative : Bool) :
    Radix.splitSign (Decimal.sign negative ++ Bytes.lower l) = (negative, Bytes.lower l) := by
  obtain ⟨b, rest, heq, hb, -⟩ := head_of_number h.lower
  exact Radix.splitSign_sign_append ⟨b, rest, heq, hb⟩ negative

theorem number?_literal {l : Bytes} (h : Token.Lexeme l .number) (negative : Bool) :
    (literal negative l).number?
      = (radixShown l).read? (Decimal.sign negative ++ Bytes.lower l) := by
  rw [Numeral.number?, radix_literal, text_literal, ← detect_of_number h false]
  rfl

/-- A literal of a radix other than decimal has a number if its digits are digits of the radix, and
stand for a number of 64 bits with its sign. -/
theorem number?_eq_some_iff_of_ne_dec {l : Bytes} (h : Token.Lexeme l .number)
    (hradix : radixShown l ≠ .dec) {negative : Bool} {x : Binary64} :
    (literal negative l).number? = some x
      ↔ (digitsOf l ≠ [] ∧ (∀ b ∈ digitsOf l, Digits.rank b < (radixShown l).base)
        ∧ wholeOf l ≤ Radix.magnitudeLimit negative)
        ∧ x = .ofRatio negative (wholeOf l * Quanta.one) 1 := by
  have hbase := (radixShown l).base_bounds.2
  rcases parts h with ⟨-, -, hds, hvalue⟩ | ⟨hdec⟩
  · rw [number?_literal h, Radix.read?_eq_some_iff hradix]
    constructor
    · rintro ⟨negative', n, hn, rfl⟩
      rw [Radix.readInteger?_eq_some_iff, splitSign_literal h] at hn
      obtain ⟨rfl, hle, ds', hds', hn⟩ := hn
      rw [Option.some.inj (hds'.symm.trans hds), hvalue, Digits.toNat?_eq_some_iff hbase] at hn
      obtain ⟨hne, hrank, rfl⟩ := hn
      exact ⟨⟨hne, hrank, hle⟩, rfl⟩
    · rintro ⟨⟨hne, hrank, hle⟩, rfl⟩
      refine ⟨negative, wholeOf l, ?_, rfl⟩
      rw [Radix.readInteger?_eq_some_iff, splitSign_literal h]
      refine ⟨rfl, hle, _, hds, ?_⟩
      rw [hvalue, Digits.toNat?_eq_some_iff hbase]
      exact ⟨hne, hrank, rfl⟩
  · exact absurd hdec hradix

/-- A rounded value stands for a decimal literal if it is finite, and zero only for zero. -/
theorem fits_eq_true_iff {x : Decimal.Scientific} {y : Binary64} :
    x.fits y = true ↔ ∃ v, y.toRat? = some v ∧ (v = 0 → x.digits = 0) := by
  rcases y with _ | _ | ⟨negative, n, hn⟩
  · exact ⟨nofun, nofun⟩
  · exact ⟨nofun, nofun⟩
  have hzero : Binary64.signedRat negative (n / Quanta.one) = 0 ↔ n = 0 := by
    have hone : (Quanta.one : ℚ) ≠ 0 := by exact_mod_cast Quanta.one_pos.ne'
    rw [← abs_eq_zero, Binary64.abs_signedRat negative (by positivity), div_eq_zero_iff,
      or_iff_left hone, Nat.cast_eq_zero]
  rw [Decimal.Scientific.fits, Bool.or_eq_true_iff, decide_eq_true_iff, decide_eq_true_iff,
    or_iff_not_imp_left, not_not]
  constructor
  · intro h
    exact ⟨_, rfl, fun hv ↦ h (hzero.mp hv)⟩
  · rintro ⟨v, hv, h⟩ hn
    rw [← Option.some.inj hv] at h
    exact h (hzero.mpr hn)

theorem scientific_of_parts {l ds tail fs : Bytes} (hradix : radixShown l = .dec)
    (hplaces : placesOf l = fs.length) (hdigits : digitsOf l = ds ++ fs) (hne : ds ≠ [])
    (hclass : ∀ b ∈ ds ++ fs, Bytes.isDigit b = true) (htake : Decimal.takeDigits l = (ds, tail))
    (hfraction : Decimal.takeFraction tail = (fs, [])) :
    Decimal.Scientific.read? l
      = some ⟨wholeOf l, (digitsOf l).length, -(placesOf l : ℤ)⟩ := by
  have hvalue : Digits.toNat? 10 (ds ++ fs) = some (wholeOf l) := by
    rw [Digits.toNat?_eq_some_iff (by decide), wholeOf, hradix, hdigits]
    refine ⟨List.append_ne_nil_of_left_ne_nil hne fs, fun b hb ↦ ?_, rfl⟩
    exact Digits.rank_lt_ten (hclass b hb)
  rw [Decimal.Scientific.read?, htake]
  simp [hfraction, hvalue, Decimal.exponentPart?, hdigits, hplaces]

theorem number?_eq_some_iff_of_dec {l : Bytes} (h : Token.Lexeme l .number)
    (hradix : radixShown l = .dec) {negative : Bool} {x : Binary64} :
    (literal negative l).number? = some x
      ↔ (∃ v, x.toRat? = some v ∧ (v = 0 → ∀ b ∈ digitsOf l, b = '0'.toUInt8))
        ∧ x = .ofRatio negative (wholeOf l * Quanta.one) (Nat.pow 10 (placesOf l)) := by
  rcases parts h with ⟨hdec⟩ | ⟨-, hplaces, hdigits, hne, hclass, hlower, htake, hfraction⟩
  · exact absurd hradix hdec
  have hscientific := scientific_of_parts hradix hplaces hdigits hne hclass htake hfraction
  have hlength : placesOf l ≤ (digitsOf l).length := by
    rw [hplaces, hdigits, List.length_append]
    exact Nat.le_add_left _ _
  have hzero : wholeOf l = 0 ↔ ∀ b ∈ digitsOf l, b = '0'.toUInt8 := by
    rw [wholeOf, hradix, Digits.positional_eq_zero_iff (by decide)]
    exact forall₂_congr fun b _ ↦ Digits.rank_eq_zero_iff b
  have hread : (literal negative l).number? = Decimal.readUnsigned? negative l := by
    have hsplit := splitSign_literal h negative
    obtain ⟨b, rest, heq, -⟩ := head_of_number h
    rw [number?_literal h, hradix]
    rw [hlower] at hsplit ⊢
    rw [heq] at hsplit ⊢
    exact Decimal.read?_of_splitSign hsplit
  rw [hread, Decimal.readUnsigned?, hscientific]
  dsimp only
  rw [Decimal.toBinary64_places _ hlength, Option.ite_none_right_eq_some, fits_eq_true_iff,
    Option.some_inj]
  simp only [hzero]
  constructor
  · rintro ⟨hfits, rfl⟩
    exact ⟨hfits, rfl⟩
  · rintro ⟨hfits, rfl⟩
    exact ⟨hfits, rfl⟩

/-- A literal has a number only if that is its exact value, rounded, and finite. -/
theorem roundsTo_of_number? {l : Bytes} (h : Token.Lexeme l .number) {negative : Bool}
    {x : Binary64} (hx : (literal negative l).number? = some x) :
    Binary64.RoundsTo (exactValue negative l) x ∧ ∃ v, x.toRat? = some v := by
  by_cases hradix : radixShown l = .dec
  · obtain ⟨⟨v, hv, -⟩, rfl⟩ := (number?_eq_some_iff_of_dec h hradix).mp hx
    exact ⟨roundsTo_places negative _ _, v, hv⟩
  · obtain ⟨⟨-, -, hle⟩, rfl⟩ := (number?_eq_some_iff_of_ne_dec h hradix).mp hx
    have hplaces : placesOf l = 0 := by
      rcases parts h with ⟨-, hplaces⟩ | ⟨hdec⟩
      · exact hplaces
      · exact absurd hdec hradix
    have hround := roundsTo_places negative (wholeOf l) (placesOf l)
    have hone : Nat.pow 10 (placesOf l) = 1 := by rw [hplaces]
    obtain ⟨k, hk, heq, -⟩ := Binary64.exists_ofRatio_whole negative (Radix.le_of_le_limit hle)
    refine ⟨?_, _, by rw [heq]; rfl⟩
    rw [exactValue]
    rwa [hone] at hround ⊢

/-- **The number of a literal.** Every number among the tokens of a line is, with or without a minus
sign in front of it, a line of one literal in the radix that it shows. In a radix other than decimal
the literal has a number exactly if it has digits, all of them below the base, and its magnitude is
that of a signed number of 64 bits. A decimal literal has one exactly if its value is rounded to a
finite number that is zero only if all digits are. The number is the exact value, rounded to the
nearest. -/
theorem number?_of_mem_scan {line : Bytes} {t : Token} (ht : t ∈ Token.scan line)
    (hkind : t.kind = .number) (negative : Bool) :
    read (Decimal.sign negative ++ t.lexeme) = ⟨[⟨.number (literal negative t.lexeme), 0⟩,
      ⟨.endOfLine, (Decimal.sign negative ++ t.lexeme).length⟩], none⟩
    ∧ (literal negative t.lexeme).radix = radixShown t.lexeme
    ∧ Radix.detect (Decimal.sign negative ++ t.lexeme) = radixShown t.lexeme
    ∧ (radixShown t.lexeme ≠ .dec → ((∃ x, (literal negative t.lexeme).number? = some x)
      ↔ digitsOf t.lexeme ≠ []
        ∧ (∀ b ∈ digitsOf t.lexeme, Digits.rank b < (radixShown t.lexeme).base)
        ∧ (wholeOf t.lexeme < Nat.pow 2 63 ∨ negative = true ∧ wholeOf t.lexeme = Nat.pow 2 63)))
    ∧ (radixShown t.lexeme = .dec → ((∃ x, (literal negative t.lexeme).number? = some x)
      ↔ ∃ x v, Binary64.RoundsTo (exactValue negative t.lexeme) x ∧ x.toRat? = some v
        ∧ (v = 0 → ∀ b ∈ digitsOf t.lexeme, b = '0'.toUInt8)))
    ∧ ∀ x, (literal negative t.lexeme).number? = some x →
      Binary64.RoundsTo (exactValue negative t.lexeme) x
        ∧ ∃ v, x.toRat? = some v ∧ ∀ (y : Binary64) (w : ℚ), y.toRat? = some w →
          |exactValue negative t.lexeme - v| ≤ |exactValue negative t.lexeme - w| := by
  have hlexeme : Token.Lexeme t.lexeme .number := by
    have hcut := Token.lexeme?_of_mem_scan ht (by rw [hkind]; decide)
    exact hkind ▸ Token.lexeme_of_lexeme? hcut
  refine ⟨read_literal negative hlexeme, ?_, detect_of_number hlexeme negative, ?_, ?_, ?_⟩
  · rw [radix_literal, ← detect_of_number hlexeme false]
    rfl
  · intro hradix
    rw [← Radix.le_magnitudeLimit_iff]
    constructor
    · rintro ⟨x, hx⟩
      exact ((number?_eq_some_iff_of_ne_dec hlexeme hradix).mp hx).1
    · intro h
      exact ⟨_, (number?_eq_some_iff_of_ne_dec hlexeme hradix).mpr ⟨h, rfl⟩⟩
  · intro hradix
    constructor
    · rintro ⟨x, hx⟩
      obtain ⟨⟨v, hv, hzero⟩, -⟩ := (number?_eq_some_iff_of_dec hlexeme hradix).mp hx
      exact ⟨x, v, (roundsTo_of_number? hlexeme hx).1, hv, hzero⟩
    · rintro ⟨x, v, hround, hv, hzero⟩
      have hround' := roundsTo_places negative (wholeOf t.lexeme) (placesOf t.lexeme)
      refine ⟨_, (number?_eq_some_iff_of_dec hlexeme hradix).mpr ⟨?_, rfl⟩⟩
      -- what the value is rounded to can only differ in the sign of a zero
      rcases hround.eq_or_isZero hround' with rfl | ⟨hx, hy⟩
      · exact ⟨v, hv, hzero⟩
      · have hv0 : v = 0 := Option.some.inj (hv.symm.trans (Binary64.toRat?_of_isZero hx))
        exact ⟨0, Binary64.toRat?_of_isZero hy, fun _ ↦ hzero hv0⟩
  · intro x hx
    obtain ⟨hround, v, hv⟩ := roundsTo_of_number? hlexeme hx
    exact ⟨hround, v, hv, fun y w hw ↦ hround.dist_le hv hw⟩

/-- An octal literal behind a minus sign. -/
theorem number?_of_mem_scan_octal :
    ⟨.number, utf8 "017", 1⟩ ∈ Token.scan (utf8 "-017")
      ∧ Radix.detect (utf8 "-017") = .oct
      ∧ ∃ x, (literal true (utf8 "017")).number? = some x ∧ Binary64.RoundsTo (-15) x := by
  have hmem : ⟨.number, utf8 "017", 1⟩ ∈ Token.scan (utf8 "-017") := by decide +kernel
  have hshown : radixShown (utf8 "017") = .oct := by decide +kernel
  have hwhole : wholeOf (utf8 "017") = 15 := by decide +kernel
  have hplaces : placesOf (utf8 "017") = 0 := by decide +kernel
  have hexact : exactValue true (utf8 "017") = -15 := by
    rw [exactValue, hwhole, hplaces]
    norm_num [Binary64.signedRat]
  have hdigits : digitsOf (utf8 "017") ≠ []
      ∧ (∀ b ∈ digitsOf (utf8 "017"), Digits.rank b < (radixShown (utf8 "017")).base)
      ∧ (wholeOf (utf8 "017") < Nat.pow 2 63
        ∨ true = true ∧ wholeOf (utf8 "017") = Nat.pow 2 63) := by
    decide +kernel
  obtain ⟨-, -, hradix, hnumber, -, hvalue⟩ := number?_of_mem_scan hmem rfl true
  obtain ⟨x, hx⟩ := (hnumber (by rw [hshown]; decide)).mpr hdigits
  refine ⟨hmem, hradix.trans hshown, x, hx, ?_⟩
  rw [← hexact]
  exact (hvalue x hx).1

/-- The limit of 64 bits is not the same for both signs, and a mark alone has no number. -/
example : (literal false (utf8 "0x8000000000000000")).number? = none
    ∧ (literal true (utf8 "0x8000000000000000")).number? ≠ none
    ∧ (literal false (utf8 "0x")).number? = none ∧ (literal false (utf8 "08")).number? = none
    ∧ (literal false (utf8 "08.5")).number? ≠ none := by decide +kernel

end Line

end Abacus
