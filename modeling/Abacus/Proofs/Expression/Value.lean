import Abacus.Evaluation
import Abacus.Proofs.Except
import Abacus.Proofs.Expression.Tree
import Abacus.Proofs.Numeral

/-!
# Values of expressions

What an expression is worth, which numerals its value can be, and where its operands stand.
-/

namespace Abacus

/-!
## The value of an expression

What an expression is worth, by recursion on its tree: a literal is its own numeral and a variable
the one it is set to, a group is what is inside it, and `abs` and the operators give the decimal
numeral of the number they compute. Numerals that are no numbers, and operators that have no value
at their operands, leave the expression without one.

A computed numeral is always a number (`Numeral.number?_ofNumber`), so that only the literals and
the variables of an expression can be to blame for a malformed numeral.
-/

/-- Why an expression has no value, or a line no answer. -/
inductive Cause where
  /-- The store has no variable of this name. -/
  | unknownVariable (name : Bytes)
  /-- A literal or a variable is no number of its radix. -/
  | malformed (numeral : Numeral)
  /-- The operator has no value at its operands. -/
  | operation (op : Operator) (failure : Operator.Failure)
  /-- The result cannot be written in the radix that is asked for. -/
  | unwritable (numeral : Numeral) (radix : Radix)
  deriving DecidableEq

/-- A numeral with the number it is. -/
structure Quantity where
  /-- The numeral. -/
  numeral : Numeral
  /-- The number. -/
  number : Binary64
  /-- The numeral is read as the number. -/
  number?_numeral : numeral.number? = some number

namespace Quantity

/-- A numeral with the number that it is read as. -/
def ofNumeral? (n : Numeral) : Option Quantity :=
  match h : n.number? with
  | some x => some ⟨n, x, h⟩
  | none => none

/-- A number with its decimal numeral. -/
def ofNumber (x : Binary64) : Quantity := ⟨.ofNumber x, x, Numeral.number?_ofNumber x⟩

@[ext] theorem ext {q q' : Quantity} (h : q.numeral = q'.numeral) : q = q' := by
  obtain ⟨numeral, number, hq⟩ := q
  obtain ⟨numeral', number', hq'⟩ := q'
  subst h
  cases hq.symm.trans hq'
  rfl

theorem ofNumeral?_eq_some_iff {n : Numeral} {q : Quantity} :
    ofNumeral? n = some q ↔ q.numeral = n := by
  unfold ofNumeral?
  constructor
  · intro h
    split at h
    · cases h
      rfl
    · cases h
  · rintro rfl
    split
    · exact congrArg some (Quantity.ext rfl)
    · next hnone => cases q.number?_numeral.symm.trans hnone

@[simp] theorem ofNumeral?_numeral (q : Quantity) : ofNumeral? q.numeral = some q :=
  ofNumeral?_eq_some_iff.mpr rfl

theorem map_number_ofNumeral? (n : Numeral) : (ofNumeral? n).map (·.number) = n.number? := by
  unfold ofNumeral?
  split
  · next h => exact h.symm
  · next h => exact h.symm

end Quantity

namespace Expr

/-- The quantity of a numeral, which has to be a number. -/
def check (n : Numeral) : Except Cause Quantity :=
  match Quantity.ofNumeral? n with
  | some q => .ok q
  | none => .error (.malformed n)

/-- An operator applied to two quantities. -/
def applied (op : Operator) (x y : Quantity) : Except Cause Quantity :=
  match op.apply x.number y.number with
  | .ok z => .ok (.ofNumber z)
  | .error failure => .error (.operation op failure)

/-- The value of an expression. -/
def value (store : Store) : Expr → Except Cause Quantity
  | number numeral _ => check numeral
  | var name _ =>
    match store.find? name with
    | some value => check value.numeral
    | none => .error (.unknownVariable name)
  | group _ inner _ => inner.value store
  | abs _ _ inner _ => do
    let q ← inner.value store
    return .ofNumber q.number.abs
  | binary op _ left right => do
    let x ← left.value store
    let y ← right.value store
    applied op x y

/-- Every numeral that stands in an expression shows its radix. -/
def ShowsRadix : Expr → Prop
  | number numeral _ => numeral.ShowsRadix
  | var _ _ => True
  | group _ inner _ => inner.ShowsRadix
  | abs _ _ inner _ => inner.ShowsRadix
  | binary _ _ left right => left.ShowsRadix ∧ right.ShowsRadix

theorem showsRadix_of_nodes {e : Expr}
    (h : ∀ numeral position, ⟨.number numeral, position⟩ ∈ e.nodes → numeral.ShowsRadix) :
    e.ShowsRadix := by
  induction e with
  | number numeral position => exact h numeral position List.mem_cons_self
  | var => trivial
  | group opening inner closing ih =>
    exact ih fun numeral p hp ↦ h numeral p (by simp [nodes, hp])
  | abs function opening inner closing ih =>
    exact ih fun numeral p hp ↦ h numeral p (by simp [nodes, hp])
  | binary op position left right ihl ihr =>
    exact ⟨ihl fun numeral p hp ↦ h numeral p (by simp [nodes, hp]),
      ihr fun numeral p hp ↦ h numeral p (by simp [nodes, hp])⟩

end Expr

/-!
## Sound numerals

A sound numeral is a number and can be read back from its text alone. The value of an expression is
sound when its variables are and its literals are no NaNs: a NaN is never computed, because an
operator has no value where it would be one.
-/

/-- A numeral that its text makes known, and that is a number. -/
structure Numeral.Sound (n : Numeral) : Prop where
  lower_text : Bytes.lower n.text = n.text
  showsRadix : n.radix = Radix.detect n.text
  exists_number : ∃ x, n.number? = some x ∧ x.isNaN = false

/-- Every variable has a sound numeral. -/
def Store.Sound (store : Store) : Prop := ∀ name v, store.find? name = some v → v.numeral.Sound

namespace Binary64

theorem isNaN_eq_false_of_ne {x : Binary64} (h : x ≠ nan) : x.isNaN = false := by
  cases x with
  | nan => exact absurd rfl h
  | _ => rfl

theorem isNaN_abs (x : Binary64) : x.abs.isNaN = x.isNaN := by
  cases x with
  | nan | infinite | finite => rfl

end Binary64

theorem Operator.isNaN_of_apply {op : Operator} {x y z : Binary64} (h : op.apply x y = .ok z) :
    z.isNaN = false := by
  unfold apply at h
  split at h
  · split at h
    · cases h
    · next hnan =>
      cases h
      exact Bool.eq_false_iff.mpr hnan
  · cases h

theorem Operator.apply_eq_compute {op : Operator} {x y : Binary64}
    (h : op.compute x y ≠ .ok .nan) : op.apply x y = op.compute x y := by
  rw [apply]
  cases hz : op.compute x y with
  | error failure => rfl
  | ok z =>
    have hnan : z.isNaN = false := Binary64.isNaN_eq_false_of_ne fun hz' ↦ h (hz.trans (hz' ▸ rfl))
    simp only [hnan, Bool.false_eq_true, if_false]

namespace Numeral

theorem Sound.number?_ne_nan {n : Numeral} (h : n.Sound) : n.number? ≠ some .nan := by
  obtain ⟨x, hx, hnan⟩ := h.exists_number
  rw [hx]
  rintro ⟨⟩
  cases hnan

theorem Sound.valid {n : Numeral} (h : n.Sound) : n.Valid := by
  obtain ⟨x, hx, -⟩ := h.exists_number
  refine ⟨h.showsRadix, ?_⟩
  rw [hx]
  nofun

theorem number?_ofNumber_ne_nan {x : Binary64} (h : x.isNaN = false) :
    (ofNumber x).number? ≠ some .nan := by
  rw [number?_ofNumber]
  rintro ⟨⟩
  cases h

end Numeral

theorem Quantity.sound_numeral {q : Quantity} (hradix : q.numeral.ShowsRadix)
    (hnan : q.numeral.number? ≠ some .nan) : q.numeral.Sound := by
  refine ⟨q.numeral.lower_text, hradix, q.number, q.number?_numeral, ?_⟩
  rw [q.number?_numeral] at hnan
  exact Binary64.isNaN_eq_false_of_ne fun heq ↦ hnan (congrArg some heq)

namespace Expr

theorem numeral_of_check {n : Numeral} {q : Quantity} (h : check n = .ok q) : q.numeral = n := by
  unfold check at h
  split at h
  · next hq =>
    cases h
    exact Quantity.ofNumeral?_eq_some_iff.mp hq
  · cases h

/-- What holds of the literals and of the variables of an expression, and of every computed number,
holds of its value, as long as it does not hold of a NaN. -/
theorem holds_of_value {P : Numeral → Prop} {store : Store}
    (hstore : ∀ name v, store.find? name = some v → P v.numeral) {e : Expr}
    (hliteral : ∀ numeral position, ⟨.number numeral, position⟩ ∈ e.nodes → P numeral)
    (hcomputed : ∀ x : Binary64, x.isNaN = false → P (.ofNumber x))
    (hnan : ∀ n, P n → n.number? ≠ some .nan) {q : Quantity} (h : e.value store = .ok q) :
    P q.numeral := by
  induction e generalizing q with
  | number numeral position =>
    rw [numeral_of_check h]
    exact hliteral numeral position List.mem_cons_self
  | var name position =>
    rw [value] at h
    split at h
    · next v hfind =>
      rw [numeral_of_check h]
      exact hstore name v hfind
    · cases h
  | group opening inner closing ih =>
    exact ih (fun numeral p hp ↦ hliteral numeral p (by simp [nodes, hp])) h
  | abs function opening inner closing ih =>
    obtain ⟨x, hx, h⟩ := bind_eq_ok_iff.mp h
    cases h
    have hinner := hnan _ (ih (fun numeral p hp ↦ hliteral numeral p (by simp [nodes, hp])) hx)
    rw [x.number?_numeral] at hinner
    refine hcomputed _ ?_
    rw [Binary64.isNaN_abs]
    exact Binary64.isNaN_eq_false_of_ne fun heq ↦ hinner (congrArg some heq)
  | binary op position left right =>
    -- only the operator matters here: whatever it is given, it does not give a NaN
    obtain ⟨x, -, h⟩ := bind_eq_ok_iff.mp h
    obtain ⟨y, -, h⟩ := bind_eq_ok_iff.mp h
    rw [applied] at h
    split at h
    · next z hz =>
      cases h
      exact hcomputed z (Operator.isNaN_of_apply hz)
    · cases h

/-- **Values are sound** if the variables are, and the literals show their radix and are no
NaNs. -/
theorem sound_of_value {store : Store} (hstore : store.Sound) {e : Expr}
    (hliteral : ∀ numeral position, ⟨.number numeral, position⟩ ∈ e.nodes →
      numeral.ShowsRadix ∧ numeral.number? ≠ some .nan)
    {q : Quantity} (h : e.value store = .ok q) : q.numeral.Sound := by
  obtain ⟨hradix, hnan⟩ : q.numeral.ShowsRadix ∧ q.numeral.number? ≠ some .nan := by
    refine holds_of_value (P := fun n ↦ n.ShowsRadix ∧ n.number? ≠ some .nan) ?_ hliteral ?_ ?_ h
    · exact fun name v hv ↦ ⟨(hstore name v hv).showsRadix, (hstore name v hv).number?_ne_nan⟩
    · exact fun x hx ↦ ⟨Numeral.showsRadix_ofNumber x, Numeral.number?_ofNumber_ne_nan hx⟩
    · exact fun n hn ↦ hn.2
  exact Quantity.sound_numeral hradix hnan

end Expr

/-!
## The operands of an expression

The operands of an expression are its literals and its variables. Each of them is reported at some
offset when it is to blame for an error, and this is its own offset, with one exception: a literal
that has nothing but parentheses around it is taken out of them before it is looked at, and is then
reported where the outermost of them opens. The parentheses of an `abs` are not among them, because
`abs` looks at its argument itself.

The offset can be told from the nodes of the line alone (`outermost`), without the tree
(`Expr.reportedAt_of_mem_operands`).
-/

section

namespace Expr

/-- The literal that an expression is but for parentheses around it, at the offset where the
expression begins. -/
def lone? : Expr → Option Node
  | number numeral position => some ⟨.number numeral, position⟩
  | group opening inner _ => inner.lone?.map fun n ↦ ⟨n.shape, opening⟩
  | _ => none

/-- The operands of an expression, at the offsets where they are reported. -/
def operands : Expr → List Node
  | number numeral position => [⟨.number numeral, position⟩]
  | var name position => [⟨.var name, position⟩]
  | group opening inner _ =>
    match inner.lone? with
    | some n => [⟨n.shape, opening⟩]
    | none => inner.operands
  | abs _ _ inner _ => inner.operands
  | binary _ _ left right => left.operands ++ right.operands

theorem operands_of_leaf? {e : Expr} {n : Node} (h : e.leaf? = some n) : e.operands = [n] := by
  cases e with
  | number | var =>
    cases h
    rfl
  | _ => cases h

theorem operands_group_of_lone? {opening close : Nat} {inner : Expr} {n : Node}
    (h : inner.lone? = some n) : (group opening inner close).operands = [⟨n.shape, opening⟩] := by
  rw [operands, h]

theorem operands_group_of_none {opening close : Nat} {inner : Expr} (h : inner.lone? = none) :
    (group opening inner close).operands = inner.operands := by
  rw [operands, h]

theorem exists_number_of_lone? {e : Expr} {n : Node} (h : e.lone? = some n) :
    ∃ numeral position, n = ⟨.number numeral, position⟩ := by
  induction e generalizing n with
  | number numeral position =>
    cases h
    exact ⟨numeral, position, rfl⟩
  | group opening inner close ih =>
    obtain ⟨m, hm, rfl⟩ := Option.map_eq_some_iff.mp h
    obtain ⟨numeral, position, rfl⟩ := ih hm
    exact ⟨numeral, opening, rfl⟩
  | var | abs | binary => cases h

theorem var_mem_nodes {e : Expr} {name : Bytes} {position : Nat}
    (h : ⟨.var name, position⟩ ∈ e.operands) : ⟨.var name, position⟩ ∈ e.nodes := by
  induction e with
  | number | var => exact h
  | group opening inner close ih =>
    cases hlone : inner.lone? with
    | some n =>
      obtain ⟨numeral, p, rfl⟩ := exists_number_of_lone? hlone
      rw [operands_group_of_lone? hlone] at h
      cases List.mem_singleton.mp h
    | none =>
      rw [operands_group_of_none hlone] at h
      simp [nodes, ih h]
  | abs function opening inner close ih => simp [nodes, ih h]
  | binary op p left right ihl ihr =>
    rcases List.mem_append.mp h with h | h
    · exact List.mem_append_left _ (ihl h)
    · exact List.mem_append_right _ (List.mem_cons_of_mem _ (ihr h))

end Expr

/-! ### Parentheses around a node -/

open Evaluation (isLparen isAbs)

/-- Two nodes are a pair of parentheses that is not that of an `abs`; `before` are the nodes in
front of them, from right to left. -/
def parenthesizes (before : List Node) (opening close : Node) : Bool :=
  isLparen opening && close.shape == .rparen && !before.head?.any isAbs

/-- The offset where the outermost of the parentheses opens that have nothing but each other between
them and something at an offset. The nodes in front of that are `before`, from right to left, and
those behind it are `after`. -/
def outermost : List Node → List Node → Nat → Nat
  | opening :: before, close :: after, position =>
    if parenthesizes before opening close then outermost before after opening.position else position
  | _, _, position => position

/-- There is a pair of parentheses right around something. -/
def Parenthesized (before after : List Node) : Prop :=
  ∃ opening outer close behind, before = opening :: outer ∧ after = close :: behind
    ∧ parenthesizes outer opening close = true

theorem outermost_of_not_parenthesized {before after : List Node}
    (h : ¬ Parenthesized before after) (position : Nat) :
    outermost before after position = position := by
  unfold outermost
  split
  · next opening outer close behind =>
    exact if_neg fun hpair ↦ h ⟨opening, outer, close, behind, rfl, rfl, hpair⟩
  · rfl

theorem not_parenthesized_of_ne_rparen {n : Node} (h : n.shape ≠ .rparen)
    (before after : List Node) : ¬ Parenthesized before (n :: after) := by
  rintro ⟨opening, outer, close, behind, -, heq, hpair⟩
  obtain ⟨rfl, -⟩ := List.cons.inj heq
  simp [parenthesizes, h] at hpair

theorem not_parenthesized_of_ne_lparen {n : Node} (h : n.shape ≠ .lparen)
    (before after : List Node) : ¬ Parenthesized (n :: before) after := by
  rintro ⟨opening, outer, close, behind, heq, -, hpair⟩
  obtain ⟨rfl, -⟩ := List.cons.inj heq
  simp [parenthesizes, isLparen, h] at hpair

/-- The parentheses of an `abs` do not count. -/
theorem not_parenthesized_of_abs {n function : Node} (h : isAbs function = true)
    (before after : List Node) : ¬ Parenthesized (n :: function :: before) after := by
  rintro ⟨opening, outer, close, behind, heq, -, hpair⟩
  obtain ⟨-, rfl⟩ := List.cons.inj heq
  simp [parenthesizes, h] at hpair

/-- Parentheses that have their own offsets in order open in front of what they are around. -/
theorem outermost_le {before : List Node} (after : List Node) {position : Nat}
    (h : before.Pairwise (·.position > ·.position)) (hlt : ∀ n ∈ before, n.position < position) :
    outermost before after position ≤ position := by
  induction before generalizing after position with
  | nil => exact Nat.le_refl position
  | cons opening before ih =>
    rcases after with _ | ⟨close, after⟩
    · exact Nat.le_refl position
    · rw [outermost]
      split
      · have hopening := hlt opening List.mem_cons_self
        exact Nat.le_trans (ih after h.tail (List.pairwise_cons.mp h).1) (Nat.le_of_lt hopening)
      · exact Nat.le_refl position

theorem outermost_eq_iff {before after : List Node} {position : Nat}
    (h : before.Pairwise (·.position > ·.position)) (hlt : ∀ n ∈ before, n.position < position) :
    outermost before after position = position ↔ ¬ Parenthesized before after := by
  refine ⟨?_, fun hnot ↦ outermost_of_not_parenthesized hnot position⟩
  rintro heq ⟨opening, outer, close, behind, rfl, rfl, hpair⟩
  have hle : outermost outer behind opening.position ≤ opening.position :=
    outermost_le behind h.tail (List.pairwise_cons.mp h).1
  have hopening := hlt opening List.mem_cons_self
  rw [outermost, if_pos hpair] at heq
  omega

/-! ### Where operands are reported -/

/-- One of some nodes is a literal that is reported at an offset, where `before` and `after` are the
nodes around them, those in front from right to left. -/
def ReportedAt (numeral : Numeral) (position : Nat) (ns before after : List Node) : Prop :=
  ∃ front own behind, ns = front ++ ⟨.number numeral, own⟩ :: behind
    ∧ position = outermost (front.reverse ++ before) (behind ++ after) own

/-- Some of the nodes around may be counted in. -/
theorem ReportedAt.widen {numeral : Numeral} {position : Nat} {ns before after : List Node}
    (front behind : List Node)
    (h : ReportedAt numeral position ns (front.reverse ++ before) (behind ++ after)) :
    ReportedAt numeral position (front ++ (ns ++ behind)) before after := by
  obtain ⟨front', own, behind', rfl, houter⟩ := h
  exact ⟨front ++ front', own, behind' ++ behind, by simp, by simpa using houter⟩

namespace Expr

theorem reportedAt_of_lone? {e : Expr} {numeral : Numeral} {position : Nat}
    (h : e.lone? = some ⟨.number numeral, position⟩) (before after : List Node)
    (hbefore : before.head?.any isAbs = false) :
    ReportedAt numeral (outermost before after position) e.nodes before after := by
  induction e generalizing position before after with
  | number _ own =>
    cases h
    exact ⟨[], own, [], rfl, rfl⟩
  | group opening inner close ih =>
    obtain ⟨⟨shape, p⟩, hinner, heq⟩ := Option.map_eq_some_iff.mp h
    cases heq
    have hpair : parenthesizes before ⟨.lparen, opening⟩ ⟨.rparen, close⟩ = true := by
      rw [parenthesizes, hbefore]
      rfl
    have hone : outermost (⟨.lparen, opening⟩ :: before) (⟨.rparen, close⟩ :: after) p
        = outermost before after opening := if_pos hpair
    have hwithin := ih hinner (⟨.lparen, opening⟩ :: before) (⟨.rparen, close⟩ :: after) rfl
    rw [hone] at hwithin
    exact hwithin.widen [⟨.lparen, opening⟩] [⟨.rparen, close⟩]
  | var | abs | binary => cases h

/-- **Literals are reported where their parentheses open.** In nodes that an expression stands
among, each of its literals is reported where the outermost of the parentheses around it opens, and
at its own offset if there are none. The expression itself has no parentheses around it, unless it
is more than a literal. -/
theorem reportedAt_of_mem_operands {e : Expr} {numeral : Numeral} {position : Nat}
    (h : ⟨.number numeral, position⟩ ∈ e.operands) (before after : List Node)
    (hbefore : before.head?.any isAbs = false)
    (hcontext : e.lone? = none ∨ ¬ Parenthesized before after) :
    ReportedAt numeral position e.nodes before after := by
  induction e generalizing before after with
  | number =>
    cases List.mem_singleton.mp h
    have hnot : ¬ Parenthesized before after := hcontext.resolve_left (by simp [lone?])
    exact ⟨[], position, [], rfl, (outermost_of_not_parenthesized hnot position).symm⟩
  | var => cases List.mem_singleton.mp h
  | group opening inner close ih =>
    cases hlone : inner.lone? with
    | some n =>
      -- the whole group is one literal in parentheses
      rw [operands_group_of_lone? hlone] at h
      have hgroup : (group opening inner close).lone? = some ⟨.number numeral, position⟩ := by
        rw [lone?, hlone, List.mem_singleton.mp h]
        rfl
      have hnot : ¬ Parenthesized before after :=
        hcontext.resolve_left fun hnone ↦ by cases hgroup.symm.trans hnone
      have hreported := reportedAt_of_lone? hgroup before after hbefore
      rwa [outermost_of_not_parenthesized hnot] at hreported
    | none =>
      rw [operands_group_of_none hlone] at h
      have hwithin :=
        ih h (⟨.lparen, opening⟩ :: before) (⟨.rparen, close⟩ :: after) rfl (.inl hlone)
      exact hwithin.widen [⟨.lparen, opening⟩] [⟨.rparen, close⟩]
  | abs function opening inner close ih =>
    have hwithin := ih h (⟨.lparen, opening⟩ :: ⟨.abs, function⟩ :: before)
      (⟨.rparen, close⟩ :: after) rfl (.inr (not_parenthesized_of_abs rfl _ _))
    exact hwithin.widen [⟨.abs, function⟩, ⟨.lparen, opening⟩] [⟨.rparen, close⟩]
  | binary op p left right ihl ihr =>
    -- the operator is a neighbour of both operands, so neither has parentheses from outside
    rcases List.mem_append.mp h with h | h
    · have hwithin := ihl h before (⟨.operator op, p⟩ :: (right.nodes ++ after)) hbefore
        (.inr (not_parenthesized_of_ne_rparen (n := ⟨.operator op, p⟩) (by simp) _ _))
      exact hwithin.widen [] (⟨.operator op, p⟩ :: right.nodes)
    · have hwithin := ihr h (⟨.operator op, p⟩ :: (left.nodes.reverse ++ before)) after rfl
        (.inr (not_parenthesized_of_ne_lparen (n := ⟨.operator op, p⟩) (by simp) _ _))
      have hwide := ReportedAt.widen (left.nodes ++ [⟨.operator op, p⟩]) [] (by simpa using hwithin)
      simpa [nodes] using hwide

theorem exists_number_mem_nodes {e : Expr} {numeral : Numeral} {position : Nat}
    (h : ⟨.number numeral, position⟩ ∈ e.operands) : ∃ own, ⟨.number numeral, own⟩ ∈ e.nodes := by
  have hnot : ¬ Parenthesized [] [] := by
    rintro ⟨_, _, _, _, heq, -⟩
    cases heq
  obtain ⟨front, own, behind, hnodes, -⟩ := reportedAt_of_mem_operands h [] [] rfl (.inr hnot)
  refine ⟨own, ?_⟩
  rw [hnodes]
  exact List.mem_append_right _ List.mem_cons_self

end Expr

end

end Abacus
