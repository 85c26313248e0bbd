import Abacus.Proofs.Evaluation.Redex
import Abacus.Proofs.Expression.Value

/-!
# What evaluation blames

A graded tree without a value has a variable, a number or an operator to blame, and never anything
internal. Every pass takes its operands from the tree or computes them itself. So the error blames
one of any operands that are closed under what passes do (`Keeps`, `blames_of_passValue`).

Where all variables are valid numerals, the operands of the tree and all valid numerals are closed
in this sense (`keeps_operands`), and of these only an operand of the tree can be to blame
(`Blames.of_valid`). It is reported where `Expr.operands` says.
-/

namespace Abacus.Expr

open Evaluation

/-- An error about an operand is about one of some operands, in its place there; the other errors
are about an operator, or about the radix that was asked for. -/
inductive Blames (R : Node → Prop) : Error → Prop where
  | unknown {name : Bytes} {position : Nat} (h : R ⟨.var name, position⟩) :
    Blames R (.unknownVariable name position)
  | malformed {v : Value} (h : R (.ofValue v)) (hv : v.numeral.number? = none) :
    Blames R (.malformed v)
  | operation (op : Operator) (position : Nat) (failure : Operator.Failure) :
    Blames R (.operation op position failure)
  | unwritable (text : Bytes) (radix : Radix) (position : Nat) :
    Blames R (.unwritable text radix position)

/-- The operands of an expression are among some operands. -/
def Within (R : Node → Prop) (e : Expr) : Prop := ∀ n ∈ e.operands, R n

/-- Some operands have among them whatever passes make of operands that they have. -/
structure Keeps (store : Store) (R : Node → Prop) : Prop where
  stored {name : Bytes} {v : Value} (h : store.find? name = some v) : R (.ofValue v)
  computed (x : Binary64) (position : Nat) : R ⟨.number (.ofNumber x), position⟩
  group {opening close : Nat} {inner : Expr} {v : Value}
    (hwithin : (group opening inner close).Within R) (h : inner.passValue store = .ok v) :
    R ⟨.number (.ofText v.numeral.text), opening⟩

variable {store : Store} {R : Node → Prop}

@[simp] theorem within_number {numeral : Numeral} {position : Nat} :
    (number numeral position).Within R ↔ R ⟨.number numeral, position⟩ := by
  simp [Within, operands]

@[simp] theorem within_binary {op : Operator} {position : Nat} {left right : Expr} :
    (binary op position left right).Within R ↔ left.Within R ∧ right.Within R := by
  simp [Within, operands, or_imp, forall_and]

theorem Within.of_leaf? {e : Expr} (h : e.Within R) {n : Node} (hn : e.leaf? = some n) : R n :=
  h n (by rw [operands_of_leaf? hn, List.mem_singleton])

/-- An operand of the inside of a group that is more than a literal is one of the group. -/
theorem Within.inner {opening close : Nat} {inner : Expr}
    (h : (Expr.group opening inner close).Within R) (hlone : inner.lone? = none) :
    inner.Within R := by
  rwa [Within, operands_group_of_none hlone] at h

/-! ## Leaves -/

theorem blames_of_readNumber {v : Value} (hv : R (.ofValue v)) {err : Error}
    (h : readNumber v = .error err) : Blames R err := by
  unfold readNumber at h
  split at h
  · cases h
  · next hnone =>
    cases h
    exact .malformed hv hnone

theorem holds_of_readValue (hkeeps : Keeps store R) {e : Expr} {n : Node} (hn : e.leaf? = some n)
    (hR : R n) {v : Value} (h : readValue store n = .ok v) : R (.ofValue v) := by
  cases e with
  | number =>
    cases hn
    cases h
    exact hR
  | var name position =>
    cases hn
    rw [readValue_var] at h
    split at h
    · next hfind =>
      cases h
      exact hkeeps.stored hfind
    · cases h
  | group | abs | binary => cases hn

theorem blames_of_readValue {e : Expr} {n : Node} (hn : e.leaf? = some n) (hR : R n) {err : Error}
    (h : readValue store n = .error err) : Blames R err := by
  cases e with
  | number =>
    cases hn
    cases h
  | var name position =>
    cases hn
    rw [readValue_var] at h
    split at h
    · cases h
    · cases h
      exact .unknown hR
  | group | abs | binary => cases hn

theorem blames_of_readOperand (hkeeps : Keeps store R) {e : Expr} {n : Node}
    (hn : e.leaf? = some n) (hR : R n) {err : Error} (h : readOperand store n = .error err) :
    Blames R err := by
  rcases bind_eq_error_iff.mp h with h | ⟨v, hv, h⟩
  · exact blames_of_readValue hn hR h
  · exact blames_of_readNumber (holds_of_readValue hkeeps hn hR hv) h

/-! ## Passes -/

theorem blames_of_combine (hkeeps : Keeps store R) {op : Operator} {position : Nat}
    {left right : Expr} {x y : Node} (hx : left.leaf? = some x) (hy : right.leaf? = some y)
    (hleft : left.Within R) (hright : right.Within R) {err : Error}
    (h : combine store op position left right = .error err) : Blames R err := by
  simp only [combine, hx, hy] at h
  rcases bind_eq_error_iff.mp h with h | ⟨a, -, h⟩
  · exact blames_of_readOperand hkeeps hx (hleft.of_leaf? hx) h
  rcases bind_eq_error_iff.mp h with h | ⟨b, -, h⟩
  · exact blames_of_readOperand hkeeps hy (hright.of_leaf? hy) h
  rcases bind_eq_error_iff.mp h with h | ⟨z, -, h⟩
  · obtain ⟨failure, -, rfl⟩ := mapError_eq_error_iff.mp h
    exact .operation op position failure
  · cases h

theorem blames_of_rebuild (hkeeps : Keeps store R) {strength : Nat} {op : Operator}
    {position : Nat} {left right : Expr} (hl : Between strength op.strength left)
    (hr : Between strength (op.strength + 1) right) (hleft : left.Within R)
    (hright : right.Within R) {err : Error}
    (h : rebuild store strength op position left right = .error err) : Blames R err := by
  unfold rebuild at h
  split at h
  · next hop =>
    obtain ⟨x, hx⟩ := hl.exists_leaf (Nat.le_of_eq hop.symm)
    obtain ⟨y, hy⟩ := hr.exists_leaf (by omega)
    exact blames_of_combine hkeeps hx hy hleft hright h
  · cases h

theorem Within.rebuild (hkeeps : Keeps store R) {strength : Nat} {op : Operator} {position : Nat}
    {left right e : Expr} (hleft : left.Within R) (hright : right.Within R)
    (h : rebuild store strength op position left right = .ok e) : e.Within R := by
  rcases rebuild_cases h with ⟨z, p, rfl⟩ | rfl
  · exact within_number.mpr (hkeeps.computed z p)
  · exact within_binary.mpr ⟨hleft, hright⟩

theorem Within.applyAt (hkeeps : Keeps store R) {strength : Nat} {e e' : Expr} (he : e.Within R)
    (h : e.applyAt store strength = .ok e') : e'.Within R := by
  induction e generalizing e' with
  | binary op position left right ihl ihr =>
    obtain ⟨hleft, hright⟩ := within_binary.mp he
    obtain ⟨l, hl, h⟩ := bind_eq_ok_iff.mp h
    obtain ⟨r, hr, h⟩ := bind_eq_ok_iff.mp h
    exact Within.rebuild hkeeps (ihl hleft hl) (ihr hright hr) h
  | number | var | group | abs =>
    cases h
    exact he

theorem blames_of_applyAt (hkeeps : Keeps store R) {strength : Nat} {e : Expr}
    (hgraded : e.Graded) (hbelow : e.Below (strength + 1)) (he : e.Within R) {err : Error}
    (h : e.applyAt store strength = .error err) : Blames R err := by
  induction e with
  | binary op position left right ihl ihr =>
    obtain ⟨hrankl, hrankr, hgl, hgr⟩ := hgraded
    obtain ⟨-, hbl, hbr⟩ := hbelow
    obtain ⟨hleft, hright⟩ := within_binary.mp he
    rcases bind_eq_error_iff.mp h with h | ⟨l, hl, h⟩
    · exact ihl hgl hbl hleft h
    rcases bind_eq_error_iff.mp h with h | ⟨r, hr, h⟩
    · exact ihr hgr hbr hright h
    exact blames_of_rebuild hkeeps ((between_of_applyAt hgl hbl hl).mono hrankl)
      ((between_of_applyAt hgr hbr hr).mono hrankr) (hleft.applyAt hkeeps hl)
      (hright.applyAt hkeeps hr) h
  | number | var | group | abs => cases h

theorem holds_of_finish (hkeeps : Keeps store R) {e : Expr} (hgraded : e.Graded)
    (hbelow : e.Below 3) (he : e.Within R) {v : Value} (h : e.finish store = .ok v) :
    R (.ofValue v) := by
  obtain ⟨e₂, h₂, h⟩ := bind_eq_ok_iff.mp h
  obtain ⟨n, hn⟩ := exists_leaf_of_applyLower hgraded hbelow h₂
  obtain ⟨e₁, h₁, h₂⟩ := bind_eq_ok_iff.mp h₂
  have hlast : e₂.Within R := (he.applyAt hkeeps h₁).applyAt hkeeps h₂
  rw [readLeaf, hn] at h
  exact holds_of_readValue hkeeps hn (hlast.of_leaf? hn) h

theorem blames_of_finish (hkeeps : Keeps store R) {e : Expr} (hgraded : e.Graded)
    (hbelow : e.Below 3) (he : e.Within R) {err : Error} (h : e.finish store = .error err) :
    Blames R err := by
  rcases bind_eq_error_iff.mp h with h | ⟨e₂, h₂, h⟩
  · rcases bind_eq_error_iff.mp h with h | ⟨e₁, h₁, h⟩
    · exact blames_of_applyAt hkeeps hgraded hbelow he h
    · have hfirst := between_of_applyAt hgraded hbelow h₁
      exact blames_of_applyAt hkeeps hfirst.graded hfirst.below (he.applyAt hkeeps h₁) h
  · obtain ⟨n, hn⟩ := exists_leaf_of_applyLower hgraded hbelow h₂
    obtain ⟨e₁, h₁, h₂⟩ := bind_eq_ok_iff.mp h₂
    have hlast : e₂.Within R := (he.applyAt hkeeps h₁).applyAt hkeeps h₂
    rw [readLeaf, hn] at h
    exact blames_of_readValue hn (hlast.of_leaf? hn) h

theorem Within.applyFirst (hkeeps : Keeps store R) {e e' : Expr} (he : e.Within R)
    (h : e.applyFirst store = .ok e') : e'.Within R := by
  induction e generalizing e' with
  | binary op position left right ihl ihr =>
    obtain ⟨hleft, hright⟩ := within_binary.mp he
    obtain ⟨l, hl, h⟩ := bind_eq_ok_iff.mp h
    obtain ⟨r, hr, h⟩ := bind_eq_ok_iff.mp h
    exact Within.rebuild hkeeps (ihl hleft hl) (ihr hright hr) h
  | group =>
    rw [applyFirst_group] at h
    obtain ⟨v, hv, h⟩ := bind_eq_ok_iff.mp h
    cases h
    exact within_number.mpr (hkeeps.group he hv)
  | abs =>
    rw [applyFirst_abs] at h
    obtain ⟨v, -, h⟩ := bind_eq_ok_iff.mp h
    obtain ⟨x, -, h⟩ := bind_eq_ok_iff.mp h
    cases h
    exact within_number.mpr (hkeeps.computed _ _)
  | number | var =>
    cases h
    exact he

theorem holds_of_passValue (hkeeps : Keeps store R) {e : Expr} (hgraded : e.Graded)
    (he : e.Within R) {v : Value} (h : e.passValue store = .ok v) : R (.ofValue v) := by
  obtain ⟨e₁, h₁, h⟩ := bind_eq_ok_iff.mp h
  have hfirst := between_of_applyFirst hgraded h₁
  exact holds_of_finish hkeeps hfirst.graded hfirst.below (he.applyFirst hkeeps h₁) h

/-- A literal in parentheses goes through all passes without being looked at. -/
theorem passValue_of_lone? (store : Store) {e : Expr} {numeral : Numeral} {position : Nat}
    (h : e.lone? = some ⟨.number numeral, position⟩) :
    ∃ n, e.passValue store = .ok ⟨n, position⟩ ∧ (numeral.ShowsRadix → n = numeral) := by
  induction e generalizing position with
  | number =>
    cases h
    exact ⟨numeral, rfl, fun _ ↦ rfl⟩
  | group opening inner close ih =>
    obtain ⟨⟨shape, p⟩, hinner, heq⟩ := Option.map_eq_some_iff.mp h
    cases heq
    obtain ⟨n, hn, hshows⟩ := ih hinner
    refine ⟨.ofText n.text, ?_, fun hradix ↦ ?_⟩
    · rw [passValue_group, hn, ok_bind]
    · rw [hshows hradix, hradix.ofText_text]
  | var | abs | binary => cases h

/-- All passes blame what the first of them does, or an operand that it leaves. -/
theorem blames_of_passes (hkeeps : Keeps store R) {e : Expr} (hgraded : e.Graded)
    (he : e.Within R) (hfirst : ∀ err, e.applyFirst store = .error err → Blames R err) {err : Error}
    (h : e.passValue store = .error err) : Blames R err := by
  rcases bind_eq_error_iff.mp h with h | ⟨e₁, h₁, h⟩
  · exact hfirst err h
  · have hbetween := between_of_applyFirst hgraded h₁
    exact blames_of_finish hkeeps hbetween.graded hbetween.below (he.applyFirst hkeeps h₁) h

theorem blames_of_applyFirst (hkeeps : Keeps store R) {e : Expr} (hgraded : e.Graded)
    (he : e.Within R) {err : Error} (h : e.applyFirst store = .error err) : Blames R err := by
  induction e generalizing err with
  | binary op position left right ihl ihr =>
    obtain ⟨hrankl, hrankr, hgl, hgr⟩ := hgraded
    obtain ⟨hleft, hright⟩ := within_binary.mp he
    rcases bind_eq_error_iff.mp h with h | ⟨l, hl, h⟩
    · exact ihl hgl hleft h
    rcases bind_eq_error_iff.mp h with h | ⟨r, hr, h⟩
    · exact ihr hgr hright h
    exact blames_of_rebuild hkeeps ((between_of_applyFirst hgl hl).mono hrankl)
      ((between_of_applyFirst hgr hr).mono hrankr) (hleft.applyFirst hkeeps hl)
      (hright.applyFirst hkeeps hr) h
  | group opening inner close ih =>
    rw [applyFirst_group] at h
    rcases bind_eq_error_iff.mp h with h | ⟨v, -, h⟩
    · cases hlone : inner.lone? with
      | some n =>
        obtain ⟨numeral, p, rfl⟩ := exists_number_of_lone? hlone
        obtain ⟨n, hn, -⟩ := passValue_of_lone? store hlone
        rw [hn] at h
        cases h
      | none =>
        have hinner := he.inner hlone
        exact blames_of_passes hkeeps (e := inner) hgraded hinner (fun _ ↦ ih hgraded hinner) h
    · cases h
  | abs function opening inner close ih =>
    have hinner : inner.Within R := he
    rw [applyFirst_abs] at h
    rcases bind_eq_error_iff.mp h with h | ⟨v, hv, h⟩
    · exact blames_of_passes hkeeps (e := inner) hgraded hinner (fun _ ↦ ih hgraded hinner) h
    rcases bind_eq_error_iff.mp h with h | ⟨x, -, h⟩
    · exact blames_of_readNumber (holds_of_passValue hkeeps (e := inner) hgraded hinner hv) h
    · cases h
  | number | var => cases h

/-- A graded tree has a value, or the error of its passes blames an operand or an operator. -/
theorem blames_of_passValue (hkeeps : Keeps store R) {e : Expr} (hgraded : e.Graded)
    (he : e.Within R) {err : Error} (h : e.passValue store = .error err) : Blames R err :=
  blames_of_passes hkeeps hgraded he (fun _ ↦ blames_of_applyFirst hkeeps hgraded he) h

/-! ## Nothing internal -/

/-- An error of a line that was read: a variable or a number of it is to blame. -/
def BlamesOperand (e : Error) : Prop :=
  e.fault.kind = .unknownVariable ∨ e.fault.kind = .invalidNumber

theorem Blames.blamesOperand {err : Error} (h : Blames R err) : BlamesOperand err := by
  cases h with
  | unknown => exact .inl rfl
  | malformed | operation | unwritable => exact .inr rfl

theorem keeps_true (store : Store) : Keeps store fun _ ↦ True :=
  ⟨fun _ ↦ trivial, fun _ _ ↦ trivial, fun _ _ ↦ trivial⟩

/-! ## Operands of the expression -/

/-- An expression whose value is computed. -/
inductive Computed : Expr → Prop where
  | number (x : Binary64) (position : Nat) : Computed (number (.ofNumber x) position)
  | binary (op : Operator) (position : Nat) (left right : Expr) :
    Computed (binary op position left right)

theorem computed_of_rebuild {strength : Nat} {op : Operator} {position : Nat} {left right e : Expr}
    (h : rebuild store strength op position left right = .ok e) : Computed e := by
  rcases rebuild_cases h with ⟨z, p, rfl⟩ | rfl
  · exact .number z p
  · exact .binary op position left right

theorem Computed.applyAt {strength : Nat} {e e' : Expr} (he : Computed e)
    (h : e.applyAt store strength = .ok e') : Computed e' := by
  rcases he with ⟨x, p⟩ | ⟨op, p, left, right⟩
  · cases h
    exact .number x p
  · obtain ⟨l, -, h⟩ := bind_eq_ok_iff.mp h
    obtain ⟨r, -, h⟩ := bind_eq_ok_iff.mp h
    exact computed_of_rebuild h

theorem exists_ofNumber_of_passValue {op : Operator} {position : Nat} {left right : Expr}
    {v : Value} (h : (binary op position left right).passValue store = .ok v) :
    ∃ x, v.numeral = .ofNumber x := by
  obtain ⟨e₁, h₁, h⟩ := bind_eq_ok_iff.mp h
  obtain ⟨l, -, h₁⟩ := bind_eq_ok_iff.mp h₁
  obtain ⟨r, -, h₁⟩ := bind_eq_ok_iff.mp h₁
  obtain ⟨e₃, h₃, h⟩ := bind_eq_ok_iff.mp h
  obtain ⟨e₂, h₂, h₃⟩ := bind_eq_ok_iff.mp h₃
  have hcomputed : Computed e₃ := ((computed_of_rebuild h₁).applyAt h₂).applyAt h₃
  rcases hcomputed with ⟨x, p⟩ | ⟨op, p, left, right⟩
  · cases h
    exact ⟨x, rfl⟩
  · cases h

/-- What is left of anything but a literal in parentheses is a number. -/
theorem valid_of_passValue (hstore : ∀ name v, store.find? name = some v → v.numeral.Valid)
    {e : Expr} (hlone : e.lone? = none) {v : Value} (h : e.passValue store = .ok v) :
    v.numeral.Valid := by
  induction e generalizing v with
  | number => cases hlone
  | var name position =>
    rw [passValue_var, readValue_var] at h
    split at h
    · next hfind =>
      cases h
      exact hstore name v hfind
    · cases h
  | group opening inner close ih =>
    rw [passValue_group] at h
    obtain ⟨w, hw, h⟩ := bind_eq_ok_iff.mp h
    cases h
    have hvalid := ih (Option.map_eq_none_iff.mp hlone) hw
    rwa [hvalid.showsRadix.ofText_text]
  | abs function opening inner close =>
    rw [passValue_abs] at h
    obtain ⟨w, -, h⟩ := bind_eq_ok_iff.mp h
    obtain ⟨x, -, h⟩ := bind_eq_ok_iff.mp h
    cases h
    exact Numeral.valid_ofNumber _
  | binary =>
    obtain ⟨x, hx⟩ := exists_ofNumber_of_passValue h
    exact hx ▸ Numeral.valid_ofNumber x

/-- The operands of an expression and all valid numerals have among them whatever passes make of
them. -/
theorem keeps_operands (hstore : ∀ name v, store.find? name = some v → v.numeral.Valid) {e : Expr}
    (hliteral : ∀ numeral position, ⟨.number numeral, position⟩ ∈ e.operands → numeral.ShowsRadix) :
    Keeps store fun n ↦ n ∈ e.operands
      ∨ ∃ numeral position, n = ⟨.number numeral, position⟩ ∧ numeral.Valid where
  stored {_ v} h := .inr ⟨v.numeral, v.position, rfl, hstore _ v h⟩
  computed x position := .inr ⟨_, position, rfl, Numeral.valid_ofNumber x⟩
  group {opening close inner v} hwithin h := by
    cases hlone : inner.lone? with
    | some n =>
      obtain ⟨numeral, p, rfl⟩ := exists_number_of_lone? hlone
      have hgroup := hwithin ⟨.number numeral, opening⟩ (by simp [operands_group_of_lone? hlone])
      have hradix : numeral.ShowsRadix := by
        rcases hgroup with hmem | ⟨numeral', p', heq, hvalid⟩
        · exact hliteral numeral opening hmem
        · cases heq
          exact hvalid.showsRadix
      obtain ⟨n, hn, hshows⟩ := passValue_of_lone? store hlone
      obtain rfl : v = ⟨n, p⟩ := Except.ok.inj (h.symm.trans hn)
      rw [hshows hradix, hradix.ofText_text]
      exact hgroup
    | none =>
      have hvalid := valid_of_passValue hstore hlone h
      rw [hvalid.showsRadix.ofText_text]
      exact .inr ⟨v.numeral, opening, rfl, hvalid⟩

/-- A valid numeral is never malformed, so an error about an operand is about one of the
expression. -/
theorem Blames.of_valid {e : Expr} {err : Error}
    (h : Blames (fun n ↦ n ∈ e.operands
      ∨ ∃ numeral position, n = ⟨.number numeral, position⟩ ∧ numeral.Valid) err) :
    Blames (· ∈ e.operands) err := by
  cases h with
  | unknown h =>
    rcases h with hmem | ⟨numeral, p, heq, -⟩
    · exact .unknown hmem
    · cases heq
  | malformed h hv =>
    rcases h with hmem | ⟨numeral, p, heq, hvalid⟩
    · exact .malformed hmem hv
    · cases heq
      exact absurd hv hvalid.number?_ne_none
  | operation op p failure => exact .operation op p failure
  | unwritable text radix p => exact .unwritable text radix p

end Abacus.Expr
