import Abacus.Proofs.Evaluation.Redex
import Abacus.Proofs.Expression.Value

/-!
# The passes leave the value

A pass changes a tree, but not its value: what it applies it replaces by the numeral of the result,
and a pass fails only if the tree has no value. So the numeral that all passes leave is the value of
the tree, and there is none where the tree has none (`passValue_agrees`).

A group is replaced by the text of its value alone, and its radix is found again from the text. This
is the same numeral because every numeral that takes part shows its radix, which the passes keep.
-/

namespace Abacus.Expr

open Evaluation

variable {store : Store}

/-- The value of an expression, if it has one. -/
def value? (store : Store) (e : Expr) : Option Quantity := (e.value store).toOption

/-! ## Values of parts -/

theorem value?_number (numeral : Numeral) (position : Nat) :
    (number numeral position).value? store = Quantity.ofNumeral? numeral := by
  rw [value?, value, check]
  cases Quantity.ofNumeral? numeral with
  | none | some => rfl

theorem value?_var (name : Bytes) (position : Nat) :
    (var name position).value? store
      = (store.find? name).bind fun v ↦ Quantity.ofNumeral? v.numeral := by
  rw [value?, value]
  cases store.find? name with
  | none => rfl
  | some v =>
    simp only [check, Option.bind_some]
    cases Quantity.ofNumeral? v.numeral with
    | none | some => rfl

theorem value?_group (opening closing : Nat) (inner : Expr) :
    (group opening inner closing).value? store = inner.value? store := rfl

theorem value?_abs (function opening closing : Nat) (inner : Expr) :
    (abs function opening inner closing).value? store
      = (inner.value? store).map fun q ↦ .ofNumber q.number.abs := by
  rw [value?, value, toOption_bind, value?]
  cases (inner.value store).toOption with
  | none | some => rfl

theorem value?_binary (op : Operator) (position : Nat) (left right : Expr) :
    (binary op position left right).value? store
      = (left.value? store).bind fun x ↦ (right.value? store).bind fun y ↦
        (op.apply x.number y.number).toOption.map .ofNumber := by
  rw [value?, value, toOption_bind, value?, value?]
  congr 1
  funext x
  rw [toOption_bind]
  congr 1
  funext y
  rw [applied]
  cases op.apply x.number y.number with
  | error | ok => rfl

/-! ## Leaves -/

theorem toOption_readNumber (v : Value) : (readNumber v).toOption = v.numeral.number? := by
  unfold readNumber
  split
  · next h => exact h.symm
  · next h => exact h.symm

theorem toOption_readValue {e : Expr} {n : Node} (hn : e.leaf? = some n) :
    ((readValue store n).toOption.bind fun v ↦ Quantity.ofNumeral? v.numeral) = e.value? store := by
  cases e with
  | number numeral position =>
    cases hn
    rw [value?_number]
    rfl
  | var name position =>
    cases hn
    rw [value?_var, readValue_var]
    cases store.find? name with
    | none | some => rfl
  | group | abs | binary => cases hn

theorem toOption_readOperand {e : Expr} {n : Node} (hn : e.leaf? = some n) :
    (readOperand store n).toOption = (e.value? store).map (·.number) := by
  rw [readOperand, toOption_bind, ← toOption_readValue hn, Option.map_bind]
  congr 1
  funext v
  rw [toOption_readNumber, Function.comp_apply, Quantity.map_number_ofNumeral?]

/-! ## Operators -/

theorem toOption_combine {op : Operator} {position : Nat} {left right : Expr} {x y : Node}
    (hx : left.leaf? = some x) (hy : right.leaf? = some y) :
    ((combine store op position left right).toOption.bind fun e ↦ e.value? store)
      = (binary op position left right).value? store := by
  simp only [combine, hx, hy, toOption_bind, toOption_readOperand hx, toOption_readOperand hy,
    toOption_mapError, value?_binary]
  cases left.value? store with
  | none => rfl
  | some a =>
    cases right.value? store with
    | none => rfl
    | some b =>
      simp only [Option.map_some, Option.bind_some]
      cases op.apply a.number b.number with
      | error => rfl
      | ok z => exact (value?_number _ _).trans (Quantity.ofNumeral?_numeral (.ofNumber z))

theorem toOption_rebuild (store : Store) {strength : Nat} {op : Operator} (position : Nat)
    {left right : Expr}
    (hl : Between strength op.strength left) (hr : Between strength (op.strength + 1) right) :
    ((rebuild store strength op position left right).toOption.bind fun e ↦ e.value? store)
      = (binary op position left right).value? store := by
  unfold rebuild
  split
  · next hop =>
    obtain ⟨x, hx⟩ := hl.exists_leaf (Nat.le_of_eq hop.symm)
    obtain ⟨y, hy⟩ := hr.exists_leaf (by omega)
    exact toOption_combine hx hy
  · rfl

theorem toOption_binary {pass : Expr → Except Error Expr} {strength : Nat} {op : Operator}
    {position : Nat} {left right : Expr}
    (hleft : ((pass left).toOption.bind fun e ↦ e.value? store) = left.value? store)
    (hright : ((pass right).toOption.bind fun e ↦ e.value? store) = right.value? store)
    (hl : ∀ l, pass left = .ok l → Between strength op.strength l)
    (hr : ∀ r, pass right = .ok r → Between strength (op.strength + 1) r) :
    ((do
      let l ← pass left
      let r ← pass right
      rebuild store strength op position l r).toOption.bind fun e ↦ e.value? store)
      = (binary op position left right).value? store := by
  rw [value?_binary, ← hleft, ← hright]
  cases hl' : pass left with
  | error => rfl
  | ok l =>
    cases hr' : pass right with
    | error =>
      -- the left operand need not have a value where the right one makes the pass fail
      show none = (l.value? store).bind fun _ ↦ none
      cases l.value? store with
      | none | some => rfl
    | ok r =>
      have hrebuild := toOption_rebuild store position (hl l hl') (hr r hr')
      rw [value?_binary] at hrebuild
      exact hrebuild

/-! ## Passes -/

theorem toOption_applyAt (strength : Nat) {e : Expr} (hgraded : e.Graded)
    (hbelow : e.Below (strength + 1)) :
    ((e.applyAt store strength).toOption.bind fun e ↦ e.value? store) = e.value? store := by
  induction e with
  | number | var | group | abs => rfl
  | binary op position left right ihl ihr =>
    obtain ⟨hleft, hright, hgl, hgr⟩ := hgraded
    obtain ⟨hop, hbl, hbr⟩ := hbelow
    exact toOption_binary (ihl hgl hbl) (ihr hgr hbr)
      (fun l hl ↦ (between_of_applyAt hgl hbl hl).mono hleft)
      (fun r hr ↦ (between_of_applyAt hgr hbr hr).mono hright)

theorem toOption_finish {e : Expr} (hgraded : e.Graded) (hbelow : e.Below 3) :
    ((e.finish store).toOption.bind fun v ↦ Quantity.ofNumeral? v.numeral) = e.value? store := by
  rw [finish, applyLower, ← toOption_applyAt 2 hgraded hbelow]
  cases h₁ : e.applyAt store 2 with
  | error => rfl
  | ok e₁ =>
    have hbetween := between_of_applyAt hgraded hbelow h₁
    rw [ok_bind]
    show _ = e₁.value? store
    rw [← toOption_applyAt 1 hbetween.graded hbetween.below]
    cases h₂ : e₁.applyAt store 1 with
    | error => rfl
    | ok e₂ =>
      have hlast := between_of_applyAt hbetween.graded hbetween.below h₂
      obtain ⟨n, hn⟩ := hlast.exists_leaf e₁.rank_pos
      rw [ok_bind, readLeaf, hn]
      exact toOption_readValue hn

/-! ## Radixes -/

theorem showsRadix_of_rebuild {strength : Nat} {op : Operator} {position : Nat}
    {left right e : Expr} (hl : left.ShowsRadix) (hr : right.ShowsRadix)
    (h : rebuild store strength op position left right = .ok e) : e.ShowsRadix := by
  rcases rebuild_cases h with ⟨z, p, rfl⟩ | rfl
  · exact Numeral.showsRadix_ofNumber z
  · exact ⟨hl, hr⟩

theorem showsRadix_of_applyAt {strength : Nat} {e e' : Expr} (he : e.ShowsRadix)
    (h : e.applyAt store strength = .ok e') : e'.ShowsRadix := by
  induction e generalizing e' with
  | binary op position left right ihl ihr =>
    obtain ⟨l, hl, h⟩ := bind_eq_ok_iff.mp h
    obtain ⟨r, hr, h⟩ := bind_eq_ok_iff.mp h
    exact showsRadix_of_rebuild (ihl he.1 hl) (ihr he.2 hr) h
  | number | var | group | abs =>
    cases h
    exact he

theorem showsRadix_of_applyFirst {e e' : Expr} (he : e.ShowsRadix)
    (h : e.applyFirst store = .ok e') : e'.ShowsRadix := by
  induction e generalizing e' with
  | binary op position left right ihl ihr =>
    obtain ⟨l, hl, h⟩ := bind_eq_ok_iff.mp h
    obtain ⟨r, hr, h⟩ := bind_eq_ok_iff.mp h
    exact showsRadix_of_rebuild (ihl he.1 hl) (ihr he.2 hr) h
  | group =>
    rw [applyFirst_group] at h
    obtain ⟨v, -, h⟩ := bind_eq_ok_iff.mp h
    cases h
    exact Numeral.showsRadix_ofText _
  | abs =>
    rw [applyFirst_abs] at h
    obtain ⟨v, -, h⟩ := bind_eq_ok_iff.mp h
    obtain ⟨x, -, h⟩ := bind_eq_ok_iff.mp h
    cases h
    exact Numeral.showsRadix_ofNumber _
  | number | var =>
    cases h
    exact he

theorem rebuild_ne_var {strength : Nat} {op : Operator} {position p : Nat} {left right : Expr}
    {name : Bytes} : rebuild store strength op position left right ≠ .ok (var name p) := by
  intro h
  rcases rebuild_cases h with ⟨z, p, heq⟩ | heq
  · cases heq
  · cases heq

theorem eq_var_of_applyAt {strength : Nat} {e : Expr} {name : Bytes} {p : Nat}
    (h : e.applyAt store strength = .ok (var name p)) : e = var name p := by
  cases e with
  | binary op position left right =>
    obtain ⟨l, -, h⟩ := bind_eq_ok_iff.mp h
    obtain ⟨r, -, h⟩ := bind_eq_ok_iff.mp h
    exact absurd h rebuild_ne_var
  | number | group | abs => cases h
  | var =>
    cases h
    rfl

theorem eq_var_of_applyFirst {e : Expr} {name : Bytes} {p : Nat}
    (h : e.applyFirst store = .ok (var name p)) : e = var name p := by
  cases e with
  | binary op position left right =>
    obtain ⟨l, -, h⟩ := bind_eq_ok_iff.mp h
    obtain ⟨r, -, h⟩ := bind_eq_ok_iff.mp h
    exact absurd h rebuild_ne_var
  | group =>
    rw [applyFirst_group] at h
    obtain ⟨v, -, h⟩ := bind_eq_ok_iff.mp h
    cases h
  | abs =>
    rw [applyFirst_abs] at h
    obtain ⟨v, -, h⟩ := bind_eq_ok_iff.mp h
    obtain ⟨x, -, h⟩ := bind_eq_ok_iff.mp h
    cases h
  | number => cases h
  | var =>
    cases h
    rfl

/-- A value that is left shows its radix, unless it is that of a variable which is all there is of
the expression. -/
theorem showsRadix_or_of_passValue {e : Expr} (he : e.ShowsRadix) {v : Value}
    (h : e.passValue store = .ok v) :
    v.numeral.ShowsRadix ∨ ∃ name position, e = var name position ∧ store.find? name = some v := by
  obtain ⟨e₁, h₁, h⟩ := bind_eq_ok_iff.mp h
  obtain ⟨e₃, h₃, h⟩ := bind_eq_ok_iff.mp h
  obtain ⟨e₂, h₂, h₃⟩ := bind_eq_ok_iff.mp h₃
  have he₃ := showsRadix_of_applyAt (showsRadix_of_applyAt (showsRadix_of_applyFirst he h₁) h₂) h₃
  cases e₃ with
  | number numeral position =>
    cases h
    exact .inl he₃
  | var name position =>
    rw [readLeaf, leaf?] at h
    simp only [readValue_var] at h
    split at h
    · next hfind =>
      cases h
      -- no pass makes a variable of anything else
      obtain rfl := eq_var_of_applyAt h₃
      obtain rfl := eq_var_of_applyAt h₂
      exact .inr ⟨name, position, eq_var_of_applyFirst h₁, hfind⟩
    · cases h
  | group | abs | binary => cases h

/-- A value that is left shows its radix if everything that it can come from does. -/
theorem showsRadix_of_passValue
    (hstore : ∀ name v, store.find? name = some v → v.numeral.ShowsRadix) {e : Expr}
    (he : e.ShowsRadix) {v : Value} (h : e.passValue store = .ok v) : v.numeral.ShowsRadix := by
  rcases showsRadix_or_of_passValue he h with h | ⟨name, position, -, hfind⟩
  · exact h
  · exact hstore name v hfind

/-! ## The value -/

theorem toOption_passValue {e : Expr} (hgraded : e.Graded)
    (h : ((e.applyFirst store).toOption.bind fun e ↦ e.value? store) = e.value? store) :
    ((e.passValue store).toOption.bind fun v ↦ Quantity.ofNumeral? v.numeral) = e.value? store := by
  rw [passValue, ← h]
  cases h₁ : e.applyFirst store with
  | error => rfl
  | ok e₁ =>
    have hfirst := between_of_applyFirst hgraded h₁
    exact toOption_finish hfirst.graded hfirst.below

theorem toOption_applyFirst
    (hstore : ∀ name v, store.find? name = some v → v.numeral.ShowsRadix) {e : Expr}
    (hgraded : e.Graded) (he : e.ShowsRadix) :
    ((e.applyFirst store).toOption.bind fun e ↦ e.value? store) = e.value? store := by
  induction e with
  | number | var => rfl
  | group opening inner closing ih =>
    rw [applyFirst_group, value?_group, ← toOption_passValue (e := inner) hgraded (ih hgraded he)]
    cases hv : inner.passValue store with
    | error => rfl
    | ok v =>
      -- only the text of the value is kept, which shows its radix
      show (number (.ofText v.numeral.text) opening).value? store = Quantity.ofNumeral? v.numeral
      rw [value?_number, (showsRadix_of_passValue hstore (e := inner) he hv).ofText_text]
  | abs function opening inner closing ih =>
    rw [applyFirst_abs, value?_abs, ← toOption_passValue (e := inner) hgraded (ih hgraded he)]
    cases inner.passValue store with
    | error => rfl
    | ok v =>
      rw [ok_bind, toOption_bind, toOption_readNumber, ← Quantity.map_number_ofNumeral?]
      show _ = (Quantity.ofNumeral? v.numeral).map _
      cases Quantity.ofNumeral? v.numeral with
      | none => rfl
      | some q => exact (value?_number _ _).trans (Quantity.ofNumeral?_numeral (.ofNumber _))
  | binary op position left right ihl ihr =>
    obtain ⟨hleft, hright, hgl, hgr⟩ := hgraded
    exact toOption_binary (ihl hgl he.1) (ihr hgr he.2)
      (fun l hl ↦ (between_of_applyFirst hgl hl).mono hleft)
      (fun r hr ↦ (between_of_applyFirst hgr hr).mono hright)

/-- **The passes leave the value.** Of a graded tree whose numerals, like those of the variables,
show their radix, the passes leave the numeral that the tree is worth; and what they leave is a
number exactly if the tree has a value. -/
theorem passValue_agrees
    (hstore : ∀ name v, store.find? name = some v → v.numeral.ShowsRadix) {e : Expr}
    (hgraded : e.Graded) (he : e.ShowsRadix) :
    ((e.passValue store).toOption.bind fun v ↦ Quantity.ofNumeral? v.numeral) = e.value? store :=
  toOption_passValue hgraded (toOption_applyFirst hstore hgraded he)

end Abacus.Expr
