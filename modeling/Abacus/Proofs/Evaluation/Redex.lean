import Abacus.Evaluation
import Abacus.Proofs.Except
import Abacus.Proofs.Expression.Tree

/-!
# One pass of a reduction

What one pass does, said on the tree of an expression and on a list of nodes.
-/

namespace Abacus

/-!
## Passes over a tree

The order in which a list of nodes is reduced, said on the tree of an expression: one pass from left
to right for groups and powers, where the inside of a group is evaluated completely when the pass
comes to it, then one pass for each of the two lower levels. A pass applies the operators of its own
strength and puts everything else together again. Where several things are wrong with an expression,
the passes decide which of them is reported.

Operators are applied to leaves. In a graded tree every pass leaves the operands of the operators it
applies as leaves (`Between`), and the last pass leaves a leaf.
-/

namespace Expr

open Evaluation

/-! ### Leaves -/

theorem readValue_var (store : Store) (name : Bytes) (position : Nat) :
    readValue store ⟨.var name, position⟩ = match store.find? name with
      | some v => .ok v
      | none => .error (.unknownVariable name position) := rfl

/-- The value of a leaf. -/
def readLeaf (store : Store) (e : Expr) : Except Error Value :=
  match e.leaf? with
  | some n => readValue store n
  | none => .error (.irreducible e.nodes)

/-! ### The passes -/

/-- An operator applied to two leaves. -/
def combine (store : Store) (op : Operator) (position : Nat) (left right : Expr) :
    Except Error Expr :=
  match left.leaf?, right.leaf? with
  | some x, some y => do
    let a ← readOperand store x
    let b ← readOperand store y
    let z ← (op.apply a b).mapError (.operation op position)
    return number (.ofNumber z) x.position
  | _, _ => .error (.missingOperand (binary op position left right).nodes)

/-- An operator behind a pass for operators of some strength. -/
def rebuild (store : Store) (strength : Nat) (op : Operator) (position : Nat)
    (left right : Expr) : Except Error Expr :=
  if op.strength = strength then combine store op position left right
  else .ok (binary op position left right)

/-- The pass for the operators of some strength. -/
def applyAt (store : Store) (strength : Nat) : Expr → Except Error Expr
  | binary op position left right => do
    let left ← left.applyAt store strength
    let right ← right.applyAt store strength
    rebuild store strength op position left right
  | e => .ok e

/-- The passes for the two lower levels. -/
def applyLower (store : Store) (e : Expr) : Except Error Expr := do
  (← e.applyAt store 2).applyAt store 1

/-- The value that is left behind the passes for the two lower levels. -/
def finish (store : Store) (e : Expr) : Except Error Value := do
  (← e.applyLower store).readLeaf store

/-- The pass for groups and powers. -/
def applyFirst (store : Store) : Expr → Except Error Expr
  | group opening inner _ => do
    let value ← (← inner.applyFirst store).finish store
    return number (.ofText value.numeral.text) opening
  | abs function _ inner _ => do
    let value ← (← inner.applyFirst store).finish store
    return number (.ofNumber (← readNumber value).abs) function
  | binary op position left right => do
    let left ← left.applyFirst store
    let right ← right.applyFirst store
    rebuild store 3 op position left right
  | e => .ok e

/-- The value that all passes leave. -/
def passValue (store : Store) (e : Expr) : Except Error Value := do
  (← e.applyFirst store).finish store

theorem applyAt_of_leaf? {e : Expr} {n : Node} (h : e.leaf? = some n) (store : Store)
    (strength : Nat) : e.applyAt store strength = .ok e := by
  cases e with
  | number | var => rfl
  | _ => cases h

theorem applyFirst_of_leaf? {e : Expr} {n : Node} (h : e.leaf? = some n) (store : Store) :
    e.applyFirst store = .ok e := by
  cases e with
  | number | var => rfl
  | _ => cases h

theorem applyFirst_group (store : Store) (opening close : Nat) (inner : Expr) :
    (group opening inner close).applyFirst store = inner.passValue store >>= fun value ↦
      .ok (number (.ofText value.numeral.text) opening) := by
  rw [passValue, bind_assoc]
  rfl

theorem applyFirst_abs (store : Store) (function opening close : Nat) (inner : Expr) :
    (abs function opening inner close).applyFirst store = inner.passValue store >>= fun value ↦
      readNumber value >>= fun x ↦ .ok (number (.ofNumber x.abs) function) := by
  rw [passValue, bind_assoc]
  rfl

theorem passValue_var (store : Store) (name : Bytes) (position : Nat) :
    (var name position).passValue store = readValue store ⟨.var name, position⟩ := rfl

theorem passValue_group (store : Store) (opening close : Nat) (inner : Expr) :
    (group opening inner close).passValue store = inner.passValue store >>= fun value ↦
      .ok ⟨.ofText value.numeral.text, opening⟩ := by
  rw [passValue, applyFirst_group, bind_assoc]
  rfl

theorem passValue_abs (store : Store) (function opening close : Nat) (inner : Expr) :
    (abs function opening inner close).passValue store = inner.passValue store >>= fun value ↦
      readNumber value >>= fun x ↦ .ok ⟨.ofNumber x.abs, function⟩ := by
  rw [passValue, applyFirst_abs]
  simp only [bind_assoc]
  rfl

/-! ### What passes leave -/

/-- No group, and only operators below some strength. -/
def Below (strength : Nat) : Expr → Prop
  | number _ _ => True
  | var _ _ => True
  | group _ _ _ => False
  | abs _ _ _ _ => False
  | binary op _ left right => op.strength < strength ∧ left.Below strength ∧ right.Below strength

/-- A tree that operators above some strength have been applied in, which is at least as tight as
another rank. -/
structure Between (strength rank : Nat) (e : Expr) : Prop where
  graded : e.Graded
  below : e.Below strength
  le_rank : rank ≤ e.rank

theorem Between.exists_leaf {strength rank : Nat} {e : Expr} (h : Between strength rank e)
    (hle : strength ≤ rank) : ∃ n, e.leaf? = some n := by
  cases e with
  | number numeral position => exact ⟨_, rfl⟩
  | var name position => exact ⟨_, rfl⟩
  | group | abs => exact absurd h.below id
  | binary op position left right =>
    -- an operator would be below `strength` and at least as tight as `rank`
    have hop := h.below.1
    have hrank := h.le_rank
    simp only [Expr.rank] at hrank
    omega

theorem Between.mono {strength rank rank' : Nat} {e : Expr} (h : Between strength rank e)
    (hle : rank' ≤ rank) : Between strength rank' e :=
  ⟨h.graded, h.below, Nat.le_trans hle h.le_rank⟩

theorem between_number (strength : Nat) {rank : Nat} (h : rank ≤ 4) (numeral : Numeral)
    (position : Nat) : Between strength rank (number numeral position) := ⟨trivial, trivial, h⟩

theorem exists_number_of_combine {store : Store} {op : Operator} {position : Nat}
    {left right e : Expr} (h : combine store op position left right = .ok e) :
    ∃ z p, e = number (.ofNumber z) p := by
  unfold combine at h
  split at h
  · obtain ⟨a, -, h⟩ := bind_eq_ok_iff.mp h
    obtain ⟨b, -, h⟩ := bind_eq_ok_iff.mp h
    obtain ⟨z, -, h⟩ := bind_eq_ok_iff.mp h
    cases h
    exact ⟨z, _, rfl⟩
  · cases h

/-- A pass leaves a decimal numeral where it applies an operator, and the operator elsewhere. -/
theorem rebuild_cases {store : Store} {strength : Nat} {op : Operator} {position : Nat}
    {left right e : Expr} (h : rebuild store strength op position left right = .ok e) :
    (∃ z p, e = number (.ofNumber z) p) ∨ e = binary op position left right := by
  unfold rebuild at h
  split at h
  · exact .inl (exists_number_of_combine h)
  · cases h
    exact .inr rfl

theorem Between.rebuild {store : Store} {strength : Nat} {op : Operator} {position : Nat}
    {left right e : Expr} (hl : Between strength op.strength left)
    (hr : Between strength (op.strength + 1) right) (hop : op.strength ≤ strength)
    (h : rebuild store strength op position left right = .ok e) :
    Between strength op.strength e := by
  unfold Expr.rebuild at h
  split at h
  · obtain ⟨z, p, rfl⟩ := exists_number_of_combine h
    exact between_number strength (Nat.le_succ_of_le op.strength_le_three) _ p
  · next hne =>
    cases h
    exact ⟨⟨hl.le_rank, hr.le_rank, hl.graded, hr.graded⟩,
      ⟨by omega, hl.below, hr.below⟩, Nat.le_refl _⟩

/-- Behind the pass for some strength only weaker operators are left. -/
theorem between_of_applyAt {store : Store} {strength : Nat} {e e' : Expr} (hgraded : e.Graded)
    (hbelow : e.Below (strength + 1)) (h : e.applyAt store strength = .ok e') :
    Between strength e.rank e' := by
  induction e generalizing e' with
  | binary op position left right ihl ihr =>
    obtain ⟨hleft, hright, hgl, hgr⟩ := hgraded
    obtain ⟨hop, hbl, hbr⟩ := hbelow
    obtain ⟨l, hl, h⟩ := bind_eq_ok_iff.mp h
    obtain ⟨r, hr, h⟩ := bind_eq_ok_iff.mp h
    exact Between.rebuild ((ihl hgl hbl hl).mono hleft) ((ihr hgr hbr hr).mono hright)
      (Nat.le_of_lt_succ hop) h
  | number | var =>
    cases h
    exact ⟨trivial, trivial, Nat.le_refl _⟩
  | group | abs => exact absurd hbelow id

theorem between_of_applyFirst {store : Store} {e e' : Expr} (hgraded : e.Graded)
    (h : e.applyFirst store = .ok e') : Between 3 e.rank e' := by
  induction e generalizing e' with
  | binary op position left right ihl ihr =>
    obtain ⟨hleft, hright, hgl, hgr⟩ := hgraded
    obtain ⟨l, hl, h⟩ := bind_eq_ok_iff.mp h
    obtain ⟨r, hr, h⟩ := bind_eq_ok_iff.mp h
    exact Between.rebuild ((ihl hgl hl).mono hleft) ((ihr hgr hr).mono hright)
      op.strength_le_three h
  | number | var =>
    cases h
    exact ⟨trivial, trivial, Nat.le_refl _⟩
  | group =>
    obtain ⟨_, -, h⟩ := bind_eq_ok_iff.mp h
    obtain ⟨_, -, h⟩ := bind_eq_ok_iff.mp h
    cases h
    exact between_number 3 (Nat.le_refl 4) _ _
  | abs =>
    obtain ⟨_, -, h⟩ := bind_eq_ok_iff.mp h
    obtain ⟨_, -, h⟩ := bind_eq_ok_iff.mp h
    obtain ⟨_, -, h⟩ := bind_eq_ok_iff.mp h
    cases h
    exact between_number 3 (Nat.le_refl 4) _ _

theorem exists_leaf_of_applyLower {store : Store} {e e' : Expr} (hgraded : e.Graded)
    (hbelow : e.Below 3) (h : e.applyLower store = .ok e') : ∃ n, e'.leaf? = some n := by
  obtain ⟨e₁, h₁, h⟩ := bind_eq_ok_iff.mp h
  have hfirst := between_of_applyAt hgraded hbelow h₁
  exact (between_of_applyAt hfirst.graded hfirst.below h).exists_leaf e₁.rank_pos

end Expr

/-!
## Which part is reduced next

Where the next pass of a reduction works, for lists that are given with a place in them: the
leftmost of the strongest nodes, save that a power waits for a group on its right. What a pass does
there is one equation of `reduce` for each kind of part, and nothing later unfolds `reduce`. It
leaves nodes of the list and the one that the part turns into.
-/

/-- How early a node is worked on: groups and powers first, then the operators of the lower levels;
all other nodes are not worked on. -/
def Node.strength (n : Node) : Nat :=
  match n.shape with
  | .operator op => op.strength
  | .lparen => 3
  | _ => 0

namespace Evaluation

/-! ### Strength -/

theorem strength_le_three (n : Node) : n.strength ≤ 3 := by
  obtain ⟨shape, position⟩ := n
  cases shape with
  | operator op => exact op.strength_le_three
  | lparen => exact Nat.le_refl 3
  | _ => exact Nat.zero_le 3

theorem strength_of_isValue {n : Node} (h : n.kind.isValue = true) : n.strength = 0 := by
  obtain ⟨shape, position⟩ := n
  cases shape with
  | number | var => rfl
  | _ => cases h

theorem isFirst_eq (n : Node) : isFirst n = decide (n.strength = 3) := by
  obtain ⟨shape, position⟩ := n
  cases shape with
  | operator op =>
    cases op with
    | pow => rfl
    | _ => rfl
  | _ => rfl

theorem isAtLevel_multiplicative_eq (n : Node) :
    isAtLevel .multiplicative n = decide (n.strength = 2) := by
  obtain ⟨shape, position⟩ := n
  cases shape with
  | operator op =>
    cases op with
    | add | sub | pow => rfl
    | _ => rfl
  | _ => rfl

theorem isAtLevel_additive_eq (n : Node) : isAtLevel .additive n = decide (n.strength = 1) := by
  obtain ⟨shape, position⟩ := n
  cases shape with
  | operator op =>
    cases op with
    | add | sub => rfl
    | _ => rfl
  | _ => rfl

/-! ### Cuts -/

theorem cutAt_append {p : Node → Bool} {before : List Node} {n : Node} (after : List Node)
    (hbefore : ∀ m ∈ before, p m = false) (hn : p n = true) :
    cutAt p (before ++ n :: after) = some (before, n, after) := by
  induction before with
  | nil => simp [cutAt, hn]
  | cons m before ih =>
    have hm := hbefore m List.mem_cons_self
    rw [List.cons_append, cutAt, hm, ih fun k hk ↦ hbefore k (List.mem_cons_of_mem m hk)]
    rfl

theorem cutAt_eq_none {p : Node → Bool} {nodes : List Node} (h : ∀ m ∈ nodes, p m = false) :
    cutAt p nodes = none := by
  induction nodes with
  | nil => rfl
  | cons m nodes ih =>
    rw [cutAt, h m List.mem_cons_self, ih fun k hk ↦ h k (List.mem_cons_of_mem m hk)]
    rfl

/-- The leftmost of the strongest nodes is worked on. -/
theorem findRedex_append {before after : List Node} {n : Node} (hn : 0 < n.strength)
    (hbefore : ∀ m ∈ before, m.strength < n.strength)
    (hafter : ∀ m ∈ after, m.strength ≤ n.strength) :
    findRedex (before ++ n :: after) = some (redexAt before n after) := by
  -- a level above that of `n` has no node in the list, and at its own level `n` is the first
  have hnone : ∀ k, n.strength < k →
      ∀ m ∈ before ++ n :: after, decide (m.strength = k) = false := by
    intro k hk m hm
    rcases List.mem_append.mp hm with hm | hm
    · have := hbefore m hm
      exact decide_eq_false (by omega)
    · rcases List.mem_cons.mp hm with rfl | hm
      · exact decide_eq_false (by omega)
      · have := hafter m hm
        exact decide_eq_false (by omega)
  have hfirst : ∀ k, n.strength = k → cutAt (fun m ↦ decide (m.strength = k)) (before ++ n :: after)
      = some (before, n, after) := by
    rintro k rfl
    exact cutAt_append after (fun m hm ↦ decide_eq_false (Nat.ne_of_lt (hbefore m hm)))
      (decide_eq_true rfl)
  rw [findRedex, show isFirst = fun m ↦ decide (m.strength = 3) from funext isFirst_eq,
    show isAtLevel .multiplicative = fun m ↦ decide (m.strength = 2) from
      funext isAtLevel_multiplicative_eq,
    show isAtLevel .additive = fun m ↦ decide (m.strength = 1) from funext isAtLevel_additive_eq]
  have hle := strength_le_three n
  by_cases h3 : n.strength = 3
  · rw [hfirst 3 h3]
    rfl
  rw [cutAt_eq_none (hnone 3 (by omega))]
  by_cases h2 : n.strength = 2
  · rw [hfirst 2 h2]
    rfl
  rw [cutAt_eq_none (hnone 2 (by omega)), hfirst 1 (by omega)]
  rfl

/-- The leftmost group or power is worked on, whatever is behind it. -/
theorem findRedex_first {before : List Node} {n : Node} (after : List Node) (hn : n.strength = 3)
    (hbefore : ∀ m ∈ before, m.strength < 3) :
    findRedex (before ++ n :: after) = some (redexAt before n after) :=
  findRedex_append (by omega) (by rwa [hn]) fun m _ ↦ hn.symm ▸ strength_le_three m

theorem findRedex_eq_none {nodes : List Node} (h : ∀ m ∈ nodes, m.strength = 0) :
    findRedex nodes = none := by
  have hnone : ∀ k, 0 < k → ∀ m ∈ nodes, decide (m.strength = k) = false := fun k hk m hm ↦
    decide_eq_false (by rw [h m hm]; omega)
  rw [findRedex, cutAt_eq_none fun m hm ↦ (isFirst_eq m).trans (hnone 3 (by decide) m hm),
    cutAt_eq_none fun m hm ↦ (isAtLevel_multiplicative_eq m).trans (hnone 2 (by decide) m hm),
    cutAt_eq_none fun m hm ↦ (isAtLevel_additive_eq m).trans (hnone 1 (by decide) m hm)]
  rfl

/-- What is inside a group, its closing parenthesis and what is behind that make up all nodes behind
its opening. -/
theorem append_of_closing {depth : Int} {nodes inner after : List Node}
    (h : closing depth nodes = some (inner, after)) :
    ∃ closer, nodes = inner ++ closer :: after := by
  induction nodes generalizing depth inner with
  | nil => cases h
  | cons n rest ih =>
    rw [closing] at h
    split at h
    · cases h
      exact ⟨n, rfl⟩
    · obtain ⟨⟨i, a⟩, hrest, heq⟩ := Option.map_eq_some_iff.mp h
      cases heq
      obtain ⟨closer, rfl⟩ := ih hrest
      exact ⟨closer, rfl⟩

/-! ### One pass -/

section

variable (store : Store) {nodes before after inner rest : List Node}

theorem reduce_eq (nodes : List Node) : reduce store nodes
    = if nodes.length ≤ 1 then alone nodes
      else match findRedex nodes with
        | some (.group before opener rest) =>
          match closing (depthAfter 0 opener) rest with
          | none => .error (.unmatched nodes)
          | some (inner, after) => do
            let value ← readValue store (← reduce store inner)
            let node ← groupNode before opener value
            reduce store (withoutAbs before ++ node :: after)
        | some (.operator before op position after) =>
          match operands? before after with
          | none => .error (.missingOperand nodes)
          | some (left, right) => do
            let node ← operatorNode store op position left right
            reduce store (before.dropLast ++ node :: after.tail)
        | none =>
          match dropEnd? nodes with
          | some shorter => reduce store shorter
          | none => .error (.irreducible nodes) := by
  rw [reduce]
  split
  · rfl
  · split
    · next hr =>
      rw [hr]
      dsimp only
      split
      · next hc => rw [hc]
      · next hc => rw [hc]
    · next before op position after hr =>
      rcases ho : operands? before after with _ | ⟨left, right⟩
      · simp only [hr, ho]
      · simp only [hr, ho]
    · next hr =>
      rw [hr]
      dsimp only
      split
      · next hd => rw [hd]
      · next hd => rw [hd]

@[simp] theorem reduce_singleton (n : Node) : reduce store [n] = .ok n := by
  rw [reduce_eq]
  rfl

theorem reduce_of_group {opener : Node}
    (hr : findRedex nodes = some (.group before opener rest))
    (hc : closing (depthAfter 0 opener) rest = some (inner, after)) :
    reduce store nodes = (do
      let value ← readValue store (← reduce store inner)
      let node ← groupNode before opener value
      reduce store (withoutAbs before ++ node :: after)) := by
  -- the closing parenthesis is a second node
  have hlength : ¬nodes.length ≤ 1 := by
    have hnodes := congrArg List.length (findRedex_nodes hr)
    have hrest := length_of_closing hc
    simp only [Redex.nodes, List.length_append, List.length_cons] at hnodes
    omega
  rw [reduce_eq, if_neg hlength, hr]
  dsimp only
  rw [hc]

theorem reduce_of_operator {op : Operator} {position : Nat} {left right : Node}
    (hr : findRedex nodes = some (.operator before op position after))
    (ho : operands? before after = some (left, right)) :
    reduce store nodes = (do
      let node ← operatorNode store op position left right
      reduce store (before.dropLast ++ node :: after.tail)) := by
  have hlength : ¬nodes.length ≤ 1 := by
    have hnodes := congrArg List.length (findRedex_nodes hr)
    have hafter : after ≠ [] := by
      rintro rfl
      simp [operands?] at ho
    have hpos := List.length_pos_iff.mpr hafter
    simp only [Redex.nodes, List.length_append, List.length_cons] at hnodes
    omega
  rw [reduce_eq, if_neg hlength, hr]
  dsimp only
  rw [ho]

/-- The mark that ends the line is dropped last. -/
theorem reduce_of_dropEnd? {shorter : List Node} (hr : findRedex nodes = none)
    (hd : dropEnd? nodes = some shorter) : reduce store nodes = reduce store shorter := by
  have hlength : ¬nodes.length ≤ 1 := by
    unfold dropEnd? at hd
    split at hd
    · simp
    · cases hd
  rw [reduce_eq, if_neg hlength, hr]
  dsimp only
  rw [hd]

end

/-! ### Nodes that a pass leaves -/

section

variable {nodes before after inner rest : List Node}

theorem mem_of_mem_withoutAbs {n : Node} (h : n ∈ withoutAbs before) : n ∈ before := by
  unfold withoutAbs at h
  split at h
  · exact List.dropLast_subset _ h
  · exact h

section

variable {opener : Node} (hr : findRedex nodes = some (.group before opener rest))
include hr

theorem mem_of_mem_inner (hc : closing (depthAfter 0 opener) rest = some (inner, after)) {n : Node}
    (hn : n ∈ inner) : n ∈ nodes := by
  obtain rfl := findRedex_nodes hr
  obtain ⟨closer, rfl⟩ := append_of_closing hc
  simp [Redex.nodes, hn]

theorem mem_or_eq_of_group (hc : closing (depthAfter 0 opener) rest = some (inner, after))
    {node n : Node} (hn : n ∈ withoutAbs before ++ node :: after) : n ∈ nodes ∨ n = node := by
  obtain rfl := findRedex_nodes hr
  obtain ⟨closer, rfl⟩ := append_of_closing hc
  rcases List.mem_append.mp hn with hn | hn
  · exact .inl (List.mem_append_left _ (mem_of_mem_withoutAbs hn))
  rcases List.mem_cons.mp hn with rfl | hn
  · exact .inr rfl
  · exact .inl (by simp [Redex.nodes, hn])

end

section

variable {op : Operator} {position : Nat}
  (hr : findRedex nodes = some (.operator before op position after))
include hr

theorem mem_of_operands? {left right : Node} (ho : operands? before after = some (left, right)) :
    left ∈ nodes ∧ right ∈ nodes := by
  obtain rfl := findRedex_nodes hr
  obtain ⟨l, hl, hrest⟩ := Option.bind_eq_some_iff.mp ho
  obtain ⟨r, hr, hrest⟩ := Option.bind_eq_some_iff.mp hrest
  split at hrest
  · cases hrest
    exact ⟨List.mem_append_left _ (List.mem_of_getLast? hl),
      List.mem_append_right _ (List.mem_cons_of_mem _ (List.mem_of_mem_head? hr))⟩
  · cases hrest

theorem mem_or_eq_of_operator {node n : Node} (hn : n ∈ before.dropLast ++ node :: after.tail) :
    n ∈ nodes ∨ n = node := by
  obtain rfl := findRedex_nodes hr
  rcases List.mem_append.mp hn with hn | hn
  · exact .inl (List.mem_append_left _ (List.dropLast_subset _ hn))
  rcases List.mem_cons.mp hn with rfl | hn
  · exact .inr rfl
  · exact .inl (List.mem_append_right _ (List.mem_cons_of_mem _ (List.mem_of_mem_tail hn)))

end

theorem mem_of_mem_dropEnd? {shorter : List Node} (h : dropEnd? nodes = some shorter) {n : Node}
    (hn : n ∈ shorter) : n ∈ nodes := by
  unfold dropEnd? at h
  split at h
  · split at h
    · cases h
      rcases List.mem_cons.mp hn with rfl | hn
      · exact List.mem_cons_self
      · exact List.mem_cons_of_mem _ (List.mem_cons_of_mem _ hn)
    · cases h
  · cases h

end

/-! ### Groups and operands in their places -/

/-- Nodes behind which a group is worked on next: none of them is worked on before it, unless the
last one is a power, which waits for the group. -/
def Opens (before : List Node) : Prop :=
  (∀ m ∈ before, m.strength < 3) ∨ ∃ front position,
    before = front ++ [⟨.operator .pow, position⟩] ∧ ∀ m ∈ front, m.strength < 3

theorem Opens.findRedex_lparen {before : List Node} (h : Opens before) (position : Nat)
    (rest : List Node) :
    findRedex (before ++ ⟨.lparen, position⟩ :: rest)
      = some (.group before ⟨.lparen, position⟩ rest) := by
  rcases h with h | ⟨front, p, rfl, h⟩
  · exact findRedex_first rest rfl h
  · rw [List.append_assoc, List.singleton_append, findRedex_first _ rfl h]
    cases rest with
    | nil | cons => rfl

theorem Opens.findRedex_abs {before : List Node} (h : Opens before) (function position : Nat)
    (rest : List Node) :
    findRedex (before ++ ⟨.abs, function⟩ :: ⟨.lparen, position⟩ :: rest)
      = some (.group (before ++ [⟨.abs, function⟩]) ⟨.lparen, position⟩ rest) := by
  rcases h with h | ⟨front, p, rfl, h⟩
  · have hopens : Opens (before ++ [⟨.abs, function⟩]) := .inl fun m hm ↦ by
      rcases List.mem_append.mp hm with hm | hm
      · exact h m hm
      · rw [List.mem_singleton.mp hm]
        exact Nat.zero_lt_succ 2
    simpa using hopens.findRedex_lparen position rest
  · rw [List.append_assoc, List.singleton_append, findRedex_first _ rfl h]
    simp [redexAt, groupBehind?, isLparen, isAbs]

/-- A value is no group that a power would wait for. -/
theorem groupBehind?_of_isValue {before after : List Node} {power n : Node}
    (hn : n.kind.isValue = true) : groupBehind? before power (n :: after) = none := by
  obtain ⟨shape, position⟩ := n
  cases shape with
  | number | var =>
    cases after with
    | nil | cons => rfl
  | _ => cases hn

/-- An operator whose operands are values turns into one node together with them, where it is the
leftmost of the strongest nodes. -/
theorem reduce_operands (store : Store) {before after : List Node} {x y : Node} {op : Operator}
    (position : Nat) (hx : x.kind.isValue = true) (hy : y.kind.isValue = true)
    (hbefore : ∀ m ∈ before, m.strength < op.strength)
    (hafter : ∀ m ∈ y :: after, m.strength ≤ op.strength) :
    reduce store (before ++ x :: ⟨.operator op, position⟩ :: y :: after) = (do
      let node ← operatorNode store op position x y
      reduce store (before ++ node :: after)) := by
  have hbefore' : ∀ m ∈ before ++ [x], m.strength < op.strength := fun m hm ↦ by
    rcases List.mem_append.mp hm with hm | hm
    · exact hbefore m hm
    · rw [List.mem_singleton.mp hm, strength_of_isValue hx]
      exact op.strength_pos
  have hredex : findRedex ((before ++ [x]) ++ ⟨.operator op, position⟩ :: y :: after)
      = some (.operator (before ++ [x]) op position (y :: after)) := by
    -- for a power it also matters that no group is behind it
    rw [findRedex_append (n := ⟨.operator op, position⟩) op.strength_pos hbefore' hafter]
    cases op with
    | pow => simp [redexAt, groupBehind?_of_isValue hy]
    | _ => rfl
  have hoperands : operands? (before ++ [x]) (y :: after) = some (x, y) := by
    simp [operands?, hx, hy]
  have hreduce := reduce_of_operator store hredex hoperands
  simpa using hreduce

end Evaluation

end Abacus
