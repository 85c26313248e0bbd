import Abacus.Proofs.Line.Grammar

/-!
# Expressions as trees

The tree of a line, of which there is only one.
-/

namespace Abacus

/-!
## Expression trees

The tree of an expression says which operands an operator has. `**` binds tightest, then come the
ten operators of the multiplicative level, then `+` and `-`, and operators of one level associate to
the left: this is what `Graded` asks of the two subtrees of every operator. Reading a tree from left
to right gives back the nodes it stands for, parentheses included.

Every expression of the grammar has a tree (`Derives.exists_graded`). The grammar lists operands and
operators and knows no levels, so the tree is built by adding one operator and its right operand at
a time, somewhere along the right edge of what has been built.
-/

/-- How tightly an operator binds. -/
def Operator.strength (op : Operator) : Nat :=
  match op.level with
  | .additive => 1
  | .multiplicative => 2
  | .power => 3

theorem Operator.strength_pos (op : Operator) : 0 < op.strength := by
  rw [strength]
  cases op.level with
  | additive | multiplicative | power => decide

theorem Operator.strength_le_three (op : Operator) : op.strength ≤ 3 := by
  rw [strength]
  cases op.level with
  | additive | multiplicative | power => decide

/-- A node that an expression can begin with. -/
def Node.startsOperand (n : Node) : Bool :=
  n.kind.isValue || n.kind == .lparen || n.kind == .abs

/-- An expression with the offsets of its nodes. -/
inductive Expr where
  | number (numeral : Numeral) (position : Nat)
  | var (name : Bytes) (position : Nat)
  | group (opening : Nat) (inner : Expr) (closing : Nat)
  | abs (function opening : Nat) (inner : Expr) (closing : Nat)
  | binary (op : Operator) (position : Nat) (left right : Expr)

namespace Expr

/-- The nodes of an expression, from left to right. -/
def nodes : Expr → List Node
  | number numeral position => [⟨.number numeral, position⟩]
  | var name position => [⟨.var name, position⟩]
  | group opening inner closing => ⟨.lparen, opening⟩ :: (inner.nodes ++ [⟨.rparen, closing⟩])
  | abs function opening inner closing =>
    ⟨.abs, function⟩ :: ⟨.lparen, opening⟩ :: (inner.nodes ++ [⟨.rparen, closing⟩])
  | binary op position left right => left.nodes ++ ⟨.operator op, position⟩ :: right.nodes

theorem exists_first (e : Expr) :
    ∃ first rest, e.nodes = first :: rest ∧ first.startsOperand = true := by
  induction e with
  | number | var | group | abs => exact ⟨_, _, rfl, rfl⟩
  | binary op position left right ih _ =>
    obtain ⟨first, rest, hnodes, hfirst⟩ := ih
    exact ⟨first, rest ++ ⟨.operator op, position⟩ :: right.nodes, by simp [nodes, hnodes], hfirst⟩

theorem nodes_ne_cons (e : Expr) {n : Node} (hn : n.startsOperand = false) (rest : List Node) :
    e.nodes ≠ n :: rest := by
  intro h
  obtain ⟨first, rest', hnodes, hfirst⟩ := e.exists_first
  obtain ⟨rfl, -⟩ := List.cons.inj (hnodes.symm.trans h)
  exact absurd hfirst (Bool.eq_false_iff.mp hn)

/-! ### Leaves -/

/-- The only node of an expression that is a number or a variable. -/
def leaf? : Expr → Option Node
  | number numeral position => some ⟨.number numeral, position⟩
  | var name position => some ⟨.var name, position⟩
  | _ => none

theorem nodes_of_leaf? {e : Expr} {n : Node} (h : e.leaf? = some n) : e.nodes = [n] := by
  cases e with
  | number | var =>
    cases h
    rfl
  | _ => cases h

theorem isValue_of_leaf? {e : Expr} {n : Node} (h : e.leaf? = some n) : n.kind.isValue = true := by
  cases e with
  | number | var =>
    cases h
    rfl
  | _ => cases h

theorem eq_of_leaf?_eq {e e' : Expr} {n : Node} (h : e.leaf? = some n) (h' : e'.leaf? = some n) :
    e = e' := by
  cases e with
  | number =>
    cases h
    cases e' with
    | number =>
      cases h'
      rfl
    | _ => cases h'
  | var =>
    cases h
    cases e' with
    | var =>
      cases h'
      rfl
    | _ => cases h'
  | _ => cases h

/-! ### Grades -/

/-- How tightly the parts of an expression are held together: an expression that is no operator and
its operands is tighter than any operator. -/
def rank : Expr → Nat
  | binary op _ _ _ => op.strength
  | _ => 4

theorem rank_pos (e : Expr) : 0 < e.rank := by
  cases e with
  | binary op _ _ _ => exact op.strength_pos
  | _ => exact Nat.succ_pos 3

theorem rank_le_four (e : Expr) : e.rank ≤ 4 := by
  cases e with
  | binary op _ _ _ => exact Nat.le_succ_of_le op.strength_le_three
  | _ => exact Nat.le_refl 4

/-- Every operator has the operands that its level and association to the left give it. -/
def Graded : Expr → Prop
  | number _ _ => True
  | var _ _ => True
  | group _ inner _ => inner.Graded
  | abs _ _ inner _ => inner.Graded
  | binary op _ left right =>
    op.strength ≤ left.rank ∧ op.strength < right.rank ∧ left.Graded ∧ right.Graded

/-! ### Adding an operand -/

/-- An expression with one more operator and its right operand behind it. -/
def extend (e : Expr) (op : Operator) (position : Nat) (operand : Expr) : Expr :=
  match e with
  | binary op' position' left right =>
    if op'.strength < op.strength then
      binary op' position' left (right.extend op position operand)
    else binary op position (binary op' position' left right) operand
  | e => binary op position e operand

@[simp] theorem nodes_extend (e : Expr) (op : Operator) (position : Nat) (operand : Expr) :
    (e.extend op position operand).nodes
      = e.nodes ++ ⟨.operator op, position⟩ :: operand.nodes := by
  induction e with
  | binary op' position' left right _ ih =>
    rw [extend]
    split
    · simp [nodes, ih]
    · rfl
  | _ => rfl

/-- The new operator is at the top, or below operators that bind less tightly. -/
theorem rank_extend (e : Expr) (op : Operator) (position : Nat) (operand : Expr) :
    (e.extend op position operand).rank = min e.rank op.strength := by
  have hle := op.strength_le_three
  cases e with
  | binary op' position' left right =>
    rw [extend]
    split
    · simp only [rank]
      omega
    · simp only [rank]
      omega
  | _ => simp only [extend, rank]; omega

theorem Graded.extend {e operand : Expr} (h : e.Graded) {op : Operator} {position : Nat}
    (hrank : op.strength < operand.rank) (h' : operand.Graded) :
    (e.extend op position operand).Graded := by
  induction e with
  | binary op' position' left right _ ih =>
    obtain ⟨hleft, hright, hl, hr⟩ := h
    rw [Expr.extend]
    split
    · next hlt =>
      -- the new operator goes below the one at the top, into its right operand
      refine ⟨hleft, ?_, hl, ih hr⟩
      rw [rank_extend]
      omega
    · next hlt => exact ⟨Nat.le_of_not_lt hlt, hrank, ⟨hleft, hright, hl, hr⟩, h'⟩
  | number | var | group | abs =>
    refine ⟨?_, hrank, h, h'⟩
    have hle := op.strength_le_three
    simp only [rank]
    omega

end Expr

/-! ### Every expression has a tree -/

/-- A phrase has a tree, which for an operand has no operator at its top. -/
theorem Line.Derives.exists_graded {phrase : Phrase} {ts : List Token} {ns : List Node}
    (h : Derives phrase ts ns) :
    ∃ e : Expr, e.nodes = ns ∧ e.Graded ∧ (phrase = .operand → e.rank = 4) := by
  induction h with
  | number | negative => exact ⟨.number _ _, rfl, trivial, fun _ ↦ rfl⟩
  | var => exact ⟨.var _ _, rfl, trivial, fun _ ↦ rfl⟩
  | group _ _ _ ih =>
    obtain ⟨e, rfl, he, -⟩ := ih
    exact ⟨.group _ e _, rfl, he, fun _ ↦ rfl⟩
  | abs _ _ _ _ ih =>
    obtain ⟨e, rfl, he, -⟩ := ih
    exact ⟨.abs _ _ e _, rfl, he, fun _ ↦ rfl⟩
  | single _ ih =>
    obtain ⟨e, rfl, he, -⟩ := ih
    exact ⟨e, rfl, he, nofun⟩
  | @chain t op _ _ _ _ _ _ _ ih ih' =>
    obtain ⟨e, rfl, he, -⟩ := ih
    obtain ⟨operand, rfl, hoperand, hrank⟩ := ih'
    have hlt : op.strength < operand.rank := by
      rw [hrank rfl]
      exact Nat.lt_succ_of_le op.strength_le_three
    exact ⟨e.extend op t.position operand, e.nodes_extend _ _ _, he.extend hlt hoperand, nofun⟩

/-!
## An expression has one tree

Precedence and association determine the tree of an expression: graded trees with the same nodes are
the same (`eq_of_nodes_eq`).

Two trees are compared from the right, where the last operand of each begins behind its operator.
What matters of the nodes in front of a tree is only the last one: it is no `abs`, which would take
a group, and no operator that binds as tightly as the tree, which would take operands from it
(`Stops`). With left operands the comparison goes on in front of the operator, so that association
to the left needs nothing to be known of what is behind a tree.
-/

namespace Expr

/-- Nodes that a tree of some rank, or a tighter one, can stand behind as a whole. -/
def Stops (rank : Nat) (before : List Node) : Prop :=
  ∀ n ∈ before.getLast?, n.shape ≠ .abs ∧ ∀ op, n.shape = .operator op → op.strength < rank

theorem stops_nil (rank : Nat) : Stops rank [] := nofun

theorem stops_operator {op : Operator} {rank : Nat} (h : op.strength < rank)
    (before : List Node) (position : Nat) :
    Stops rank (before ++ [⟨.operator op, position⟩]) := by
  intro n hn
  rw [List.getLast?_concat] at hn
  cases hn
  refine ⟨nofun, fun op' hop' ↦ ?_⟩
  cases hop'
  exact h

theorem stops_lparen (rank : Nat) (before : List Node) (position : Nat) :
    Stops rank (before ++ [⟨.lparen, position⟩]) := by
  intro n hn
  rw [List.getLast?_concat] at hn
  cases hn
  exact ⟨nofun, nofun⟩

theorem Stops.mono {rank rank' : Nat} {before : List Node} (h : Stops rank before)
    (hle : rank ≤ rank') : Stops rank' before :=
  fun n hn ↦ ⟨(h n hn).1, fun op hop ↦ Nat.lt_of_lt_of_le ((h n hn).2 op hop) hle⟩

/-- Trees that can only be taken off in one way, whatever stands in front of them. -/
def Agree (e e' : Expr) : Prop :=
  ∀ ⦃rank before before'⦄, rank ≤ e.rank → rank ≤ e'.rank → Stops rank before →
    Stops rank before' → before ++ e.nodes = before' ++ e'.nodes → e = e' ∧ before = before'

theorem Agree.symm {e e' : Expr} (h : Agree e e') : Agree e' e := by
  intro rank before before' hrank hrank' hstops hstops' heq
  obtain ⟨rfl, rfl⟩ := h hrank' hrank hstops' hstops heq.symm
  exact ⟨rfl, rfl⟩

/-! ### Two operators -/

section

variable {op op' : Operator} {position position' : Nat} {left left' right right' e : Expr}

/-- A tree that is tighter than an operator does not reach over its right operand. -/
theorem agree_of_strength_lt (hright : Agree right e) (hop : op.strength < right.rank)
    (he : op.strength < e.rank) : Agree (binary op position left right) e := by
  intro rank before before' hrank _ _ hstops' heq
  have heq' : (before ++ left.nodes ++ [⟨.operator op, position⟩]) ++ right.nodes
      = before' ++ e.nodes := by simpa [nodes] using heq
  -- the right operand alone would be all of `e`, and the operator would stand in front of `e`
  obtain ⟨-, hbefore⟩ := hright hop he (stops_operator (Nat.lt_succ_self _) _ position)
    (hstops'.mono (Nat.le_succ_of_le hrank)) heq'
  have hlt := (hstops' ⟨.operator op, position⟩ (by simp [← hbefore])).2 op rfl
  exact absurd hrank (Nat.not_le_of_lt hlt)

/-- Operators of one level have the same operands. -/
theorem agree_of_strength_eq (hleft : Agree left left') (hright : Agree right right')
    (h : (binary op position left right).Graded) (h' : (binary op' position' left' right').Graded)
    (hop : op.strength = op'.strength) :
    Agree (binary op position left right) (binary op' position' left' right') := by
  intro rank before before' hrank hrank' hstops hstops' heq
  have heq' : (before ++ left.nodes ++ [⟨.operator op, position⟩]) ++ right.nodes
      = (before' ++ left'.nodes ++ [⟨.operator op', position'⟩]) ++ right'.nodes := by
    simpa [nodes] using heq
  obtain ⟨rfl, hbefore⟩ := hright h.2.1 (hop ▸ h'.2.1)
    (stops_operator (Nat.lt_succ_self _) _ position)
    (stops_operator (hop ▸ Nat.lt_succ_self _) _ position') heq'
  obtain ⟨hfront, hlast⟩ := List.append_inj' hbefore rfl
  cases hlast
  obtain ⟨rfl, rfl⟩ := hleft h.1 h'.1 (hstops.mono hrank) (hstops'.mono hrank) hfront
  exact ⟨rfl, rfl⟩

end

/-! ### Two groups -/

section

variable {inner inner' : Expr} {opening opening' closing closing' : Nat}

theorem eq_of_enclosed (h : Agree inner inner') {before before' : List Node}
    (heq : before ++ ⟨.lparen, opening⟩ :: (inner.nodes ++ [⟨.rparen, closing⟩])
      = before' ++ ⟨.lparen, opening'⟩ :: (inner'.nodes ++ [⟨.rparen, closing'⟩])) :
    inner = inner' ∧ before = before' ∧ opening = opening' ∧ closing = closing' := by
  have heq' : (before ++ [⟨.lparen, opening⟩]) ++ inner.nodes ++ [⟨.rparen, closing⟩]
      = (before' ++ [⟨.lparen, opening'⟩]) ++ inner'.nodes ++ [⟨.rparen, closing'⟩] := by
    simpa using heq
  obtain ⟨hfront, hlast⟩ := List.append_inj' heq' rfl
  obtain ⟨rfl, hbefore⟩ := h inner.rank_pos inner'.rank_pos (stops_lparen _ _ opening)
    (stops_lparen _ _ opening') hfront
  obtain ⟨rfl, hfirst⟩ := List.append_inj' hbefore rfl
  cases hlast
  cases hfirst
  exact ⟨rfl, rfl, rfl, rfl⟩

/-- A group is no `abs` with its group, because no `abs` stands in front of a tree. -/
theorem agree_group_abs (h : Agree inner inner') (function : Nat) :
    Agree (group opening inner closing) (abs function opening' inner' closing') := by
  intro rank before before' _ _ hstops _ heq
  have heq' : before ++ ⟨.lparen, opening⟩ :: (inner.nodes ++ [⟨.rparen, closing⟩])
      = (before' ++ [⟨.abs, function⟩])
        ++ ⟨.lparen, opening'⟩ :: (inner'.nodes ++ [⟨.rparen, closing'⟩]) := by
    simpa [nodes] using heq
  obtain ⟨-, rfl, -⟩ := eq_of_enclosed h heq'
  exact absurd rfl (hstops ⟨.abs, function⟩ (by simp)).1

theorem agree_group_group (h : Agree inner inner') :
    Agree (group opening inner closing) (group opening' inner' closing') := by
  intro rank before before' _ _ _ _ heq
  obtain ⟨rfl, rfl, rfl, rfl⟩ := eq_of_enclosed h heq
  exact ⟨rfl, rfl⟩

theorem agree_abs_abs (h : Agree inner inner') (function function' : Nat) :
    Agree (abs function opening inner closing) (abs function' opening' inner' closing') := by
  intro rank before before' _ _ _ _ heq
  have heq' : (before ++ [⟨.abs, function⟩])
        ++ ⟨.lparen, opening⟩ :: (inner.nodes ++ [⟨.rparen, closing⟩])
      = (before' ++ [⟨.abs, function'⟩])
        ++ ⟨.lparen, opening'⟩ :: (inner'.nodes ++ [⟨.rparen, closing'⟩]) := by
    simpa [nodes] using heq
  obtain ⟨rfl, hbefore, rfl, rfl⟩ := eq_of_enclosed h heq'
  obtain ⟨rfl, hlast⟩ := List.append_inj' hbefore rfl
  cases hlast
  exact ⟨rfl, rfl⟩

end

/-! ### All trees -/

theorem agree_of_leaf? {e e' : Expr} {n : Node} (hn : e.leaf? = some n) (he' : e'.rank = 4) :
    Agree e e' := by
  intro rank before before' _ _ _ _ heq
  rw [nodes_of_leaf? hn] at heq
  cases e' with
  | number | var =>
    obtain ⟨rfl, hlast⟩ := List.append_inj' heq rfl
    refine ⟨eq_of_leaf?_eq hn ?_, rfl⟩
    cases hlast
    rfl
  | group | abs =>
    have hlast := congrArg List.getLast? heq
    simp only [nodes, List.getLast?_append, List.getLast?_cons, Option.some_or, Option.getD_some,
      Option.some.injEq] at hlast
    subst hlast
    exact absurd (isValue_of_leaf? hn) Bool.false_ne_true
  | binary op => exact absurd he' (Nat.ne_of_lt (Nat.lt_succ_of_le op.strength_le_three))

/-- A tree that agrees with all operands agrees with all graded trees. -/
theorem agree_of_operands {e : Expr} (he : e.rank = 4)
    (h : ∀ e' : Expr, e'.rank = 4 → e'.Graded → Agree e e') {e' : Expr} (hgraded : e'.Graded) :
    Agree e e' := by
  induction e' with
  | binary op position left right _ ih =>
    have hop : op.strength < e.rank := he.symm ▸ Nat.lt_succ_of_le op.strength_le_three
    exact (agree_of_strength_lt (ih hgraded.2.2.2).symm hgraded.2.1 hop).symm
  | _ => exact h _ rfl hgraded

theorem agree {e e' : Expr} (hgraded : e.Graded) (hgraded' : e'.Graded) : Agree e e' := by
  induction e generalizing e' with
  | number | var => exact agree_of_operands rfl (fun _ he' _ ↦ agree_of_leaf? rfl he') hgraded'
  | group opening inner closing ih =>
    refine agree_of_operands rfl (fun e' he' hgraded' ↦ ?_) hgraded'
    cases e' with
    | number | var => exact (agree_of_leaf? rfl rfl).symm
    | group _ inner' =>
      have hinner : Agree inner inner' := ih hgraded hgraded'
      exact agree_group_group hinner
    | abs function _ inner' =>
      have hinner : Agree inner inner' := ih hgraded hgraded'
      exact agree_group_abs hinner function
    | binary op => exact absurd he' (Nat.ne_of_lt (Nat.lt_succ_of_le op.strength_le_three))
  | abs function opening inner closing ih =>
    refine agree_of_operands rfl (fun e' he' hgraded' ↦ ?_) hgraded'
    cases e' with
    | number | var => exact (agree_of_leaf? rfl rfl).symm
    | group _ inner' =>
      have hinner : Agree inner inner' := ih hgraded hgraded'
      exact (agree_group_abs hinner.symm function).symm
    | abs function' _ inner' =>
      have hinner : Agree inner inner' := ih hgraded hgraded'
      exact agree_abs_abs hinner function function'
    | binary op => exact absurd he' (Nat.ne_of_lt (Nat.lt_succ_of_le op.strength_le_three))
  | binary op position left right ihl ihr =>
    induction e' with
    | binary op' position' left' right' _ ih' =>
      -- the operator that binds less tightly is at the top, and then the other is not
      rcases Nat.lt_trichotomy op.strength op'.strength with hlt | heq | hgt
      · exact agree_of_strength_lt (ihr hgraded.2.2.2 hgraded') hgraded.2.1 hlt
      · exact agree_of_strength_eq (ihl hgraded.2.2.1 hgraded'.2.2.1)
          (ihr hgraded.2.2.2 hgraded'.2.2.2) hgraded hgraded' heq
      · exact (agree_of_strength_lt (ih' hgraded'.2.2.2).symm hgraded'.2.1 hgt).symm
    | _ =>
      exact agree_of_strength_lt (ihr hgraded.2.2.2 hgraded') hgraded.2.1
        (Nat.lt_succ_of_le op.strength_le_three)

/-- **One tree.** Graded trees with the same nodes are the same. -/
theorem eq_of_nodes_eq {e e' : Expr} (hgraded : e.Graded) (hgraded' : e'.Graded)
    (h : e.nodes = e'.nodes) : e = e' :=
  (agree hgraded hgraded' e.rank_pos e'.rank_pos (stops_nil 1) (stops_nil 1)
    (by rw [List.nil_append, List.nil_append, h])).1

end Expr

end Abacus
