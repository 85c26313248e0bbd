import Abacus.Proofs.Expression.Value
import Abacus.Proofs.Line.Accepted
import Abacus.Proofs.Numeral
import Abacus.Proofs.Token.Segmentation

/-!
# Literals and values

Which numerals a line can have, and which of them a value can have.
-/

namespace Abacus

/-!
## The literals of a line

The numerals of a line that was read are the numbers among its lexemes, some of them with a minus
sign in front (`Literal`). They show their radix, also behind a sign, because no literal begins with
a sign of its own, and none of them is read as a NaN, because none begins like the name of one.
-/

namespace Line

theorem lexeme_of_mem_significant {line : Bytes}
    (hstray : Token.Kind.stray ∉ (Token.scan line).map Token.kind) {t : Token}
    (ht : t ∈ significant line) : Token.Lexeme t.lexeme t.kind := by
  obtain ⟨hscan, hkeep⟩ := List.mem_filter.mp ht
  refine Token.lexeme_of_lexeme? (Token.lexeme?_of_mem_scan hscan ⟨?_, ?_⟩)
  · exact fun hkind ↦ hstray (List.mem_map.mpr ⟨t, hscan, hkind⟩)
  · intro hkind
    rw [isSignificant, hkind] at hkeep
    cases hkeep

/-! ### Literals -/

/-- The numerals that a line can have: a number, with or without a minus sign in front of it. -/
inductive Literal : Numeral → Prop where
  | plain {l : Bytes} (h : Token.Lexeme l .number) : Literal (.ofText l)
  | negated {l : Bytes} (h : Token.Lexeme l .number) : Literal (.negated l)

/-- The byte that a literal begins with behind its sign is neither a sign nor the `n` of a NaN. -/
theorem head_of_number {l : Bytes} (h : Token.Lexeme l .number) :
    ∃ b rest, l = b :: rest ∧ b ≠ '-'.toUInt8 ∧ Bytes.lowerByte b ≠ 'n'.toUInt8 := by
  obtain ⟨b, rest, rfl, hb⟩ := h.exists_cons_of_number
  refine ⟨b, rest, rfl, ?_⟩
  rcases hb with rfl | hb
  · decide
  · exact ⟨(Bytes.lowerByte_ne_of_isDigit hb rfl).2, (Bytes.lowerByte_ne_of_isDigit hb rfl).1⟩

theorem Literal.showsRadix {numeral : Numeral} (h : Literal numeral) : numeral.ShowsRadix := by
  cases h with
  | plain => exact Numeral.showsRadix_ofText _
  | negated h =>
    obtain ⟨b, rest, rfl, hb, -⟩ := head_of_number h
    exact Numeral.showsRadix_negated hb

theorem Literal.number?_ne_nan {numeral : Numeral} (h : Literal numeral) :
    numeral.number? ≠ some .nan := by
  cases h with
  | plain h =>
    obtain ⟨b, rest, rfl, hb, hn⟩ := head_of_number h
    exact Numeral.number?_ofRadix_ne_nan (Radix.splitSign_of_ne hb rest) hn _
  | negated h =>
    obtain ⟨b, rest, rfl, -, hn⟩ := head_of_number h
    exact Numeral.number?_ofRadix_ne_nan rfl hn _

/-! ### Where operands stand -/

/-- The node of an operand, and the text of its own tokens: a variable, a number, or a number right
behind a minus sign. -/
inductive Stands (ts : List Token) : Bytes → Node → Prop where
  | var {t : Token} (ht : t.kind = .var) (hmem : t ∈ ts) :
    Stands ts t.lexeme ⟨.var t.lexeme, t.position⟩
  | number {t : Token} (ht : t.kind = .number) (hmem : t ∈ ts) :
    Stands ts t.lexeme ⟨.number (.ofText t.lexeme), t.position⟩
  | negative {minus t : Token} (hminus : minus.kind = .operator .sub) (ht : t.kind = .number)
      (hnext : [minus, t] <:+: ts) :
    Stands ts ('-'.toUInt8 :: t.lexeme) ⟨.number (.negated t.lexeme), minus.position⟩

theorem Stands.mono {ts ts' : List Token} {own : Bytes} {n : Node} (h : Stands ts own n)
    (hts : ts <:+: ts') : Stands ts' own n := by
  rcases h with ⟨ht, hmem⟩ | ⟨ht, hmem⟩ | ⟨hminus, ht, hnext⟩
  · exact .var ht (hts.subset hmem)
  · exact .number ht (hts.subset hmem)
  · exact .negative hminus ht (hnext.trans hts)

theorem Stands.text_eq {ts : List Token} {own : Bytes} {numeral : Numeral} {position : Nat}
    (h : Stands ts own ⟨.number numeral, position⟩) : numeral.text = Bytes.lower own := by
  cases h with
  | number | negative => rfl

theorem Stands.mem_of_var {ts : List Token} {own name : Bytes} {position : Nat}
    (h : Stands ts own ⟨.var name, position⟩) : ⟨.var, name, position⟩ ∈ ts := by
  cases h with
  | @var t ht hmem => exact ht ▸ hmem

theorem mem_of_mem_parentheses {n : Node} (hn : n.kind.isValue = true) {opening close : Nat}
    {ns : List Node} (h : n ∈ ⟨.lparen, opening⟩ :: (ns ++ [⟨.rparen, close⟩])) : n ∈ ns := by
  rcases List.mem_cons.mp h with rfl | h
  · cases hn
  rcases List.mem_append.mp h with h | h
  · exact h
  · obtain rfl := List.mem_singleton.mp h
    cases hn

/-- Every operand of a phrase stands in it. -/
theorem Derives.exists_stands {phrase : Phrase} {ts : List Token} {ns : List Node}
    (h : Derives phrase ts ns) {n : Node} (hmem : n ∈ ns) (hn : n.kind.isValue = true) :
    ∃ own, Stands ts own n := by
  induction h with
  | number ht =>
    obtain rfl := List.mem_singleton.mp hmem
    exact ⟨_, .number ht List.mem_cons_self⟩
  | negative hminus ht =>
    obtain rfl := List.mem_singleton.mp hmem
    exact ⟨_, .negative hminus ht List.infix_rfl⟩
  | var ht =>
    obtain rfl := List.mem_singleton.mp hmem
    exact ⟨_, .var ht List.mem_cons_self⟩
  | @group l r _ _ _ _ _ ih =>
    obtain ⟨own, hown⟩ := ih (mem_of_mem_parentheses hn hmem)
    exact ⟨own, hown.mono ⟨[l], [r], by simp⟩⟩
  | @abs a l r _ _ _ _ _ _ ih =>
    rcases List.mem_cons.mp hmem with rfl | hmem
    · cases hn
    · obtain ⟨own, hown⟩ := ih (mem_of_mem_parentheses hn hmem)
      exact ⟨own, hown.mono ⟨[a, l], [r], by simp⟩⟩
  | single _ ih => exact ih hmem
  | @chain t op ts ts' ns ns' _ _ _ ih ih' =>
    rcases List.mem_append.mp hmem with hmem | hmem
    · obtain ⟨own, hown⟩ := ih hmem
      exact ⟨own, hown.mono ⟨[], t :: ts', rfl⟩⟩
    rcases List.mem_cons.mp hmem with rfl | hmem
    · cases hn
    · obtain ⟨own, hown⟩ := ih' hmem
      exact ⟨own, hown.mono ⟨ts ++ [t], [], by simp⟩⟩

theorem Sentence.exists_stands {ts : List Token} {ns : List Node} (h : Sentence ts ns) {n : Node}
    (hmem : n ∈ ns) (hn : n.kind.isValue = true) : ∃ own, Stands ts own n := by
  rcases h with _ | _ | _ | _ | h | @⟨t, _, ts, ns, _, h⟩ | @⟨target, equals, ts, ns, _, _, h⟩
  · cases hmem
  · obtain rfl := List.mem_singleton.mp hmem
    cases hn
  · obtain rfl := List.mem_singleton.mp hmem
    cases hn
  · obtain rfl := List.mem_singleton.mp hmem
    cases hn
  · exact h.exists_stands hmem hn
  · rcases List.mem_cons.mp hmem with rfl | hmem
    · cases hn
    · obtain ⟨own, hown⟩ := h.exists_stands hmem hn
      exact ⟨own, hown.mono ⟨[t], [], by simp⟩⟩
  · rcases List.mem_cons.mp hmem with rfl | hmem
    · cases hn
    · obtain ⟨own, hown⟩ := h.exists_stands hmem hn
      exact ⟨own, hown.mono ⟨[target, equals], [], by simp⟩⟩

theorem Stands.literal {ts : List Token} {own : Bytes} {numeral : Numeral} {position : Nat}
    (h : Stands ts own ⟨.number numeral, position⟩)
    (hlexeme : ∀ t ∈ ts, t.kind = .number → Token.Lexeme t.lexeme .number) : Literal numeral := by
  cases h with
  | number ht hmem => exact .plain (hlexeme _ hmem ht)
  | negative _ ht hnext => exact .negated (hlexeme _ (hnext.subset (by simp)) ht)

theorem literal_of_read {line : Bytes} (h : (read line).error = none) {numeral : Numeral}
    {position : Nat} (hmem : ⟨.number numeral, position⟩ ∈ (read line).nodes) :
    Literal numeral := by
  obtain ⟨hstray, ns, hsentence⟩ := sentence_of_read h
  have hlexeme : ∀ t ∈ significant line, t.kind = .number → Token.Lexeme t.lexeme .number := by
    intro t ht hkind
    exact hkind ▸ lexeme_of_mem_significant hstray ht
  rw [read_of_sentence hstray hsentence] at hmem
  obtain ⟨own, hown⟩ := hsentence.exists_stands (by simpa using hmem) rfl
  exact hown.literal hlexeme

/-! ### Lines of one literal -/

theorem read_of_number {s : Bytes} (h : Token.Lexeme s .number) :
    read s = ⟨[⟨.number (.ofText s), 0⟩, ⟨.endOfLine, s.length⟩], none⟩ := by
  have hscan : Token.scan s = [⟨.number, s, 0⟩, ⟨.endOfLine, [], 0 + s.length⟩] :=
    h.scanFrom_eq 0
  have hsentence : Sentence (significant s) [⟨.number (.ofText s), 0⟩] := by
    rw [significant, hscan]
    exact .plain (.single (.number rfl))
  refine read_of_sentence ?_ hsentence
  simp [hscan]

theorem read_of_negative {s : Bytes} (h : Token.Lexeme s .number) :
    read ('-'.toUInt8 :: s)
      = ⟨[⟨.number (.negated s), 0⟩, ⟨.endOfLine, ('-'.toUInt8 :: s).length⟩], none⟩ := by
  have hscan : Token.scan ('-'.toUInt8 :: s)
      = [⟨.operator .sub, utf8 "-", 0⟩, ⟨.number, s, 1⟩, ⟨.endOfLine, [], 1 + s.length⟩] := by
    rw [← h.scanFrom_eq 1]
    exact Token.scanFrom_of_lexeme? (Token.lexeme?_minus s)
  have hsentence : Sentence (significant ('-'.toUInt8 :: s)) [⟨.number (.negated s), 0⟩] := by
    rw [significant, hscan]
    exact .plain (.single (.negative rfl rfl))
  refine read_of_sentence ?_ hsentence
  simp [hscan]

theorem read_of_literal {numeral : Numeral} (h : Literal numeral) :
    read numeral.text = ⟨[⟨.number numeral, 0⟩, ⟨.endOfLine, numeral.text.length⟩], none⟩ := by
  cases h with
  | @plain l h =>
    have hread := read_of_number h.lower
    rwa [Numeral.ofText_lower] at hread
  | @negated l h =>
    have hread := read_of_negative h.lower
    rwa [Numeral.negated_lower] at hread

end Line

/-!
## Numerals that can be shown

A value is a literal as it was written, or a variable that was set to a value earlier, or a computed
number. The text of a computed number is a literal too, a minus sign included, unless the number is
infinite. So if the variables are literals or infinities, the value is one of these again.
-/

/-- A numeral that a value can have: a literal, or a computed infinity. -/
inductive Numeral.Presentable : Numeral → Prop where
  | literal {n : Numeral} (h : Line.Literal n) : Presentable n
  | infinite (negative : Bool) : Presentable (.ofNumber (.infinite negative))

namespace Decimal

theorem lexeme_magnitude (n : Nat) : Token.Lexeme (magnitude n) .number := by
  obtain ⟨whole, tail, heq, htail⟩ := exists_magnitude_eq n
  have hne : Digits.ofNat 10 whole ≠ [] := Digits.ofNat_ne_nil 10 whole
  have hdigits : ∀ b ∈ Digits.ofNat 10 whole, Bytes.isDigit b = true :=
    fun b hb ↦ Digits.isDigit_of_mem_ofNat hb
  rw [heq]
  rcases htail with rfl | ⟨fraction, rfl, hfraction⟩
  · rw [List.append_nil]
    exact .whole hne hdigits
  · exact .fraction hne hdigits hfraction

end Decimal

namespace Numeral

theorem literal_ofNumber (negative : Bool) (n : Nat) (h : Quanta.Representable n) :
    Line.Literal (ofNumber (.finite negative n h)) := by
  have hlexeme := Decimal.lexeme_magnitude n
  have hradix : Radix.detect (Decimal.magnitude n) = .dec := by
    obtain ⟨b, rest, heq, hb⟩ := Decimal.exists_cons_magnitude n
    rw [Radix.detect, heq, Radix.splitSign_of_ne hb, ← heq]
    exact Decimal.detectUnsigned_magnitude n
  cases negative with
  | true =>
    have hliteral := Line.Literal.negated hlexeme
    rwa [negated, hradix] at hliteral
  | false =>
    have hliteral := Line.Literal.plain hlexeme
    rwa [ofText, hradix] at hliteral

theorem presentable_ofNumber {x : Binary64} (h : x.isNaN = false) : (ofNumber x).Presentable := by
  cases x with
  | nan => cases h
  | infinite negative => exact .infinite negative
  | finite negative n hn => exact .literal (literal_ofNumber negative n hn)

variable {n : Numeral}

theorem Presentable.showsRadix (h : n.Presentable) : n.ShowsRadix := by
  cases h with
  | literal h => exact h.showsRadix
  | infinite negative => exact showsRadix_ofNumber _

theorem Presentable.number?_ne_nan (h : n.Presentable) : n.number? ≠ some .nan := by
  cases h with
  | literal h => exact h.number?_ne_nan
  | infinite negative => exact number?_ofNumber_ne_nan rfl

/-- A presentable numeral of a finite number is a literal. -/
theorem Presentable.literal_of_finite (h : n.Presentable) {negative : Bool} {quanta : Nat}
    {hquanta : Quanta.Representable quanta}
    (hn : n.number? = some (.finite negative quanta hquanta)) : Line.Literal n := by
  cases h with
  | literal h => exact h
  | infinite negative =>
    rw [number?_ofNumber] at hn
    cases hn

end Numeral

/-- Values are presentable if the variables are, and if what stands in the expression are
literals. -/
theorem Expr.presentable_of_value {store : Store}
    (hstore : ∀ name v, store.find? name = some v → v.numeral.Presentable) {e : Expr}
    (hliteral : ∀ numeral position, ⟨.number numeral, position⟩ ∈ e.nodes → Line.Literal numeral)
    {q : Quantity} (h : e.value store = .ok q) : q.numeral.Presentable :=
  holds_of_value hstore (fun numeral position hmem ↦ .literal (hliteral numeral position hmem))
    (fun _ hx ↦ Numeral.presentable_ofNumber hx) (fun _ hn ↦ hn.number?_ne_nan) h

end Abacus
