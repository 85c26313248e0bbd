import Abacus.Proofs.Evaluation.Redex
import Abacus.Proofs.Except
import Abacus.Proofs.Expression.Tree
import Abacus.Proofs.Line.Alike

/-!
# Expressions that are evaluated alike

What may change in an expression without a change of its value.
-/

namespace Abacus

/-!
## Trees that are evaluated alike

Two trees are evaluated step by step with two sets of variables. Nothing depends on offsets, and of
a leaf nothing matters but what reading it comes to: a numeral, or an error. So trees of the same
form with leaves that read alike come to values with the same numeral, or to errors of the same kind
about the same text, and in the same place a variable may stand for a group whose value it has.
-/

namespace Evaluation

/-- Errors with reports of the same kind about the same text. -/
def Error.Alike (e e' : Error) : Prop := e.fault.Alike e'.fault

theorem Error.Alike.trans {e e' e'' : Error} (h : e.Alike e') (h' : e'.Alike e'') : e.Alike e'' :=
  Fault.Alike.trans h h'

/-- Values with the same numeral. -/
def SameNumeral (v v' : Value) : Prop := v.numeral = v'.numeral

theorem readNumber_alike {v v' : Value} (h : SameNumeral v v') :
    Matches Error.Alike Eq (readNumber v) (readNumber v') := by
  unfold readNumber
  rw [h]
  split
  · exact .ok rfl
  · exact .error ⟨rfl, congrArg Numeral.text h⟩

theorem readOperand_alike {store store' : Store} {n n' : Node}
    (h : Matches Error.Alike SameNumeral (readValue store n) (readValue store' n')) :
    Matches Error.Alike Eq (readOperand store n) (readOperand store' n') :=
  h.bind fun _ _ ↦ readNumber_alike

theorem readValue_alike (store : Store) {n n' : Node} (h : n.shape = n'.shape) :
    Matches Error.Alike SameNumeral (readValue store n) (readValue store n') := by
  obtain ⟨shape, position⟩ := n
  obtain ⟨shape', position'⟩ := n'
  obtain rfl : shape = shape' := h
  cases shape with
  | number numeral => exact .ok rfl
  | var name =>
    rw [Expr.readValue_var, Expr.readValue_var]
    split
    · exact .ok rfl
    · exact .error ⟨rfl, rfl⟩
  | _ => exact .error ⟨rfl, rfl⟩

end Evaluation

namespace Expr

open Evaluation

variable {store store' : Store}

/-! ### Behind the pass for groups -/

/-- Trees of the same form whose leaves read alike, each in its own store. -/
inductive Alike (store store' : Store) : Expr → Expr → Prop where
  | leaf {e e' : Expr} {n n' : Node} (h : e.leaf? = some n) (h' : e'.leaf? = some n')
      (hread : Matches Error.Alike SameNumeral (readValue store n) (readValue store' n')) :
    Alike store store' e e'
  | binary {op : Operator} {p p' : Nat} {l r l' r' : Expr} (hl : Alike store store' l l')
      (hr : Alike store store' r r') : Alike store store' (binary op p l r) (binary op p' l' r')

theorem alike_number (numeral : Numeral) (position position' : Nat) :
    Alike store store' (number numeral position) (number numeral position') :=
  .leaf rfl rfl (.ok rfl)

theorem Alike.leaf?_cases {e e' : Expr} (h : Alike store store' e e') :
    (∃ n n', e.leaf? = some n ∧ e'.leaf? = some n'
      ∧ Matches Error.Alike SameNumeral (readValue store n) (readValue store' n'))
    ∨ (e.leaf? = none ∧ e'.leaf? = none) := by
  cases h with
  | leaf h h' hread => exact .inl ⟨_, _, h, h', hread⟩
  | binary => exact .inr ⟨rfl, rfl⟩

theorem combine_alike {l r l' r' : Expr} (hl : Alike store store' l l')
    (hr : Alike store store' r r') (op : Operator) (p p' : Nat) :
    Matches Error.Alike (Alike store store') (combine store op p l r)
      (combine store' op p' l' r') := by
  rcases hl.leaf?_cases with ⟨x, x', hx, hx', hreadx⟩ | ⟨hx, hx'⟩
  · rcases hr.leaf?_cases with ⟨y, y', hy, hy', hready⟩ | ⟨hy, hy'⟩
    · simp only [combine, hx, hx', hy, hy']
      refine (readOperand_alike hreadx).bind ?_
      rintro a _ rfl
      refine (readOperand_alike hready).bind ?_
      rintro b _ rfl
      cases op.apply a b with
      | error failure => exact .error ⟨rfl, rfl⟩
      | ok z => exact .ok (alike_number _ _ _)
    · simp only [combine, hx, hx', hy, hy']
      exact .error ⟨rfl, rfl⟩
  · simp only [combine, hx, hx']
    exact .error ⟨rfl, rfl⟩

theorem rebuild_alike {l r l' r' : Expr} (hl : Alike store store' l l')
    (hr : Alike store store' r r') (strength : Nat) (op : Operator) (p p' : Nat) :
    Matches Error.Alike (Alike store store') (rebuild store strength op p l r)
      (rebuild store' strength op p' l' r') := by
  unfold rebuild
  split
  · exact combine_alike hl hr op p p'
  · exact .ok (.binary hl hr)

theorem applyAt_alike {e e' : Expr} (h : Alike store store' e e') (strength : Nat) :
    Matches Error.Alike (Alike store store') (e.applyAt store strength)
      (e'.applyAt store' strength) := by
  induction h with
  | leaf h h' hread =>
    rw [applyAt_of_leaf? h, applyAt_of_leaf? h']
    exact .ok (.leaf h h' hread)
  | binary _ _ ihl ihr =>
    exact ihl.bind fun _ _ hl ↦ ihr.bind fun _ _ hr ↦ rebuild_alike hl hr strength _ _ _

theorem readLeaf_alike {e e' : Expr} (h : Alike store store' e e') :
    Matches Error.Alike SameNumeral (e.readLeaf store) (e'.readLeaf store') := by
  rcases h.leaf?_cases with ⟨n, n', hn, hn', hread⟩ | ⟨hn, hn'⟩
  · rw [readLeaf, readLeaf, hn, hn']
    exact hread
  · rw [readLeaf, readLeaf, hn, hn']
    exact .error ⟨rfl, rfl⟩

theorem finish_alike {e e' : Expr} (h : Alike store store' e e') :
    Matches Error.Alike SameNumeral (e.finish store) (e'.finish store') := by
  have hlower : Matches Error.Alike (Alike store store') (e.applyLower store)
      (e'.applyLower store') :=
    (applyAt_alike h 2).bind fun _ _ h₁ ↦ applyAt_alike h₁ 1
  exact hlower.bind fun _ _ ↦ readLeaf_alike

/-! ### Whole trees -/

/-- Trees of the same form whose leaves read alike, where a group may also stand for a leaf that
reads like it. -/
inductive Resembles (store store' : Store) : Expr → Expr → Prop where
  | leaf {e e' : Expr} {n n' : Node} (h : e.leaf? = some n) (h' : e'.leaf? = some n')
      (hread : Matches Error.Alike SameNumeral (readValue store n) (readValue store' n')) :
    Resembles store store' e e'
  | group {o o' c c' : Nat} {i i' : Expr} (h : Resembles store store' i i') :
    Resembles store store' (group o i c) (group o' i' c')
  | abs {f f' o o' c c' : Nat} {i i' : Expr} (h : Resembles store store' i i') :
    Resembles store store' (abs f o i c) (abs f' o' i' c')
  | binary {op : Operator} {p p' : Nat} {l r l' r' : Expr} (hl : Resembles store store' l l')
      (hr : Resembles store store' r r') :
    Resembles store store' (binary op p l r) (binary op p' l' r')
  | replaced {e i : Expr} {n : Node} {v v' : Value} {o c : Nat} (h : e.leaf? = some n)
      (hv : readValue store n = .ok v) (hv' : i.passValue store' = .ok v')
      (hnumeral : v.numeral = .ofText v'.numeral.text) :
    Resembles store store' e (group o i c)

theorem applyFirst_alike {e e' : Expr} (h : Resembles store store' e e') :
    Matches Error.Alike (Alike store store') (e.applyFirst store) (e'.applyFirst store') := by
  induction h with
  | leaf h h' hread =>
    rw [applyFirst_of_leaf? h, applyFirst_of_leaf? h']
    exact .ok (.leaf h h' hread)
  | group _ ih =>
    rw [applyFirst_group, applyFirst_group]
    have hvalue := ih.bind fun _ _ ↦ finish_alike
    refine hvalue.bind fun v v' hv ↦ ?_
    rw [hv]
    exact .ok (alike_number _ _ _)
  | abs _ ih =>
    rw [applyFirst_abs, applyFirst_abs]
    have hvalue := ih.bind fun _ _ ↦ finish_alike
    refine hvalue.bind fun v v' hv ↦ (readNumber_alike hv).bind ?_
    rintro x _ rfl
    exact .ok (alike_number _ _ _)
  | binary _ _ ihl ihr =>
    exact ihl.bind fun _ _ hl ↦ ihr.bind fun _ _ hr ↦ rebuild_alike hl hr 3 _ _ _
  | replaced h hv hv' hnumeral =>
    -- the variable is left as it stands, and the group becomes the numeral that it reads as
    rw [applyFirst_of_leaf? h, applyFirst_group, hv', ok_bind]
    refine .ok (.leaf h rfl ?_)
    rw [hv]
    exact .ok hnumeral

/-- Trees that resemble each other come to the same numeral, or fail alike. -/
theorem passValue_alike {e e' : Expr} (h : Resembles store store' e e') :
    Matches Error.Alike SameNumeral (e.passValue store) (e'.passValue store') :=
  (applyFirst_alike h).bind fun _ _ ↦ finish_alike

/-! ### Trees without their offsets -/

/-- A tree with every offset forgotten. -/
def unplaced : Expr → Expr
  | number numeral _ => number numeral 0
  | var name _ => var name 0
  | group _ inner _ => group 0 inner.unplaced 0
  | abs _ _ inner _ => abs 0 0 inner.unplaced 0
  | binary op _ left right => binary op 0 left.unplaced right.unplaced

theorem nodes_unplaced (e : Expr) :
    e.unplaced.nodes = (e.nodes.map Node.shape).map fun shape ↦ ⟨shape, 0⟩ := by
  induction e with
  | number | var => rfl
  | group _ _ _ ih | abs _ _ _ _ ih => simp [unplaced, nodes, ih]
  | binary _ _ _ _ ihl ihr => simp [unplaced, nodes, ihl, ihr]

theorem rank_unplaced (e : Expr) : e.unplaced.rank = e.rank := by
  cases e with
  | number | var | group | abs | binary => rfl

theorem Graded.unplaced {e : Expr} (h : e.Graded) : e.unplaced.Graded := by
  induction e with
  | number | var => trivial
  | group _ _ _ ih | abs _ _ _ _ ih => exact ih h
  | binary op position left right ihl ihr =>
    obtain ⟨hleft, hright, hl, hr⟩ := h
    refine ⟨?_, ?_, ihl hl, ihr hr⟩
    · rwa [rank_unplaced]
    · rwa [rank_unplaced]

/-- Graded trees with nodes of the same shapes differ in offsets only. -/
theorem unplaced_eq_of_shapes {e e' : Expr} (h : e.Graded) (h' : e'.Graded)
    (hshapes : e.nodes.map Node.shape = e'.nodes.map Node.shape) : e.unplaced = e'.unplaced :=
  eq_of_nodes_eq h.unplaced h'.unplaced (by rw [nodes_unplaced, nodes_unplaced, hshapes])

theorem resembles_of_unplaced_eq (store : Store) {e e' : Expr} (h : e.unplaced = e'.unplaced) :
    Resembles store store e e' := by
  induction e generalizing e' with
  | number =>
    cases e' with
    | number =>
      cases h
      exact .leaf rfl rfl (readValue_alike store rfl)
    | _ => cases h
  | var =>
    cases e' with
    | var =>
      cases h
      exact .leaf rfl rfl (readValue_alike store rfl)
    | _ => cases h
  | group _ _ _ ih =>
    cases e' with
    | group => exact .group (ih (Expr.group.inj h).2.1)
    | _ => cases h
  | abs _ _ _ _ ih =>
    cases e' with
    | abs => exact .abs (ih (Expr.abs.inj h).2.2.1)
    | _ => cases h
  | binary _ _ _ _ ihl ihr =>
    cases e' with
    | binary =>
      obtain ⟨rfl, -, hl, hr⟩ := Expr.binary.inj h
      exact .binary (ihl hl) (ihr hr)
    | _ => cases h

theorem resembles_of_shapes (store : Store) {e e' : Expr} (h : e.Graded) (h' : e'.Graded)
    (hshapes : e.nodes.map Node.shape = e'.nodes.map Node.shape) : Resembles store store e e' :=
  resembles_of_unplaced_eq store (unplaced_eq_of_shapes h h' hshapes)

/-!
## A group in place of a variable

A variable that is set to the text of some value reads like a group with that value inside. So in a
tree the group may stand for the variable, wherever the variable is an operand.
-/

/-- A tree with another one in place of each variable of some name. -/
def replace (name : Bytes) (operand : Expr) : Expr → Expr
  | number numeral position => number numeral position
  | var other position => if other = name then operand else var other position
  | group opening inner closing => group opening (replace name operand inner) closing
  | abs function opening inner closing =>
    abs function opening (replace name operand inner) closing
  | binary op position left right =>
    binary op position (replace name operand left) (replace name operand right)

variable {name : Bytes} {operand : Expr}

theorem nodes_replace (e : Expr) :
    (replace name operand e).nodes = Line.replaceNodes name operand.nodes e.nodes := by
  induction e with
  | number numeral position => rfl
  | var other position =>
    by_cases hname : other = name
    · simp [replace, nodes, Line.replaceNodes, hname]
    · simp [replace, nodes, Line.replaceNodes, hname]
  | group _ _ _ ih | abs _ _ _ _ ih => simp [replace, nodes, ih]
  | binary _ _ _ _ ihl ihr => simp [replace, nodes, ihl, ihr]

theorem rank_replace (h : operand.rank = 4) (e : Expr) :
    (replace name operand e).rank = e.rank := by
  cases e with
  | var other position =>
    rw [replace]
    split
    · exact h
    · rfl
  | _ => rfl

theorem Graded.replace (hrank : operand.rank = 4) (hoperand : operand.Graded) {e : Expr}
    (h : e.Graded) : (replace name operand e).Graded := by
  induction e with
  | number => trivial
  | var other position =>
    rw [Expr.replace]
    split
    · exact hoperand
    · trivial
  | group _ _ _ ih | abs _ _ _ _ ih => exact ih h
  | binary op position left right ihl ihr =>
    obtain ⟨hleft, hright, hl, hr⟩ := h
    refine ⟨?_, ?_, ihl hl, ihr hr⟩
    · rwa [rank_replace hrank]
    · rwa [rank_replace hrank]

/-- With a variable set to the text of the value of an expression, and every other one as before, a
tree resembles the one with that expression in parentheses in place of the variable. -/
theorem resembles_replace {store store' : Store} {inner : Expr} {v v' : Value}
    (hv : store.find? name = some v) (hv' : inner.passValue store' = .ok v')
    (hnumeral : v.numeral = .ofText v'.numeral.text)
    (hstore : ∀ other, other ≠ name → store.find? other = store'.find? other)
    (opening closing : Nat) (e : Expr) :
    Resembles store store' e (replace name (group opening inner closing) e) := by
  induction e with
  | number numeral position => exact .leaf rfl rfl (.ok rfl)
  | var other position =>
    rw [replace]
    split
    · next heq =>
      subst heq
      exact .replaced rfl (by rw [readValue_var, hv]) hv' hnumeral
    · next hne =>
      refine .leaf rfl rfl ?_
      rw [readValue_var, readValue_var, hstore other hne, ← readValue_var]
      exact readValue_alike store' rfl
  | group _ _ _ ih => exact .group ih
  | abs _ _ _ _ ih => exact .abs ih
  | binary _ _ _ _ ihl ihr => exact .binary ihl ihr

end Expr

end Abacus
