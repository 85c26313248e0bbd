import Abacus.Proofs.Evaluation.Redex

/-!
# Reduction takes the passes

A list of nodes knows nothing of the tree it stands for, and reduction rewrites it in place: it cuts
the list at the leftmost node it can work on, finds the end of a group by counting parentheses, and
puts one node where several were. Still it does to the nodes of a graded tree what the passes do to
the tree (`reduce_passValue`).

Each lemma is about the nodes of a tree between other nodes, so that the induction on the tree can
move the nodes of one operand to the nodes around the other. What stands in front has been through
the pass; what stands behind has not.
-/

namespace Abacus.Evaluation

variable {store : Store} {before after : List Node}

/-! ## Parentheses -/

theorem closing_cons {depth : Int} {n : Node} (rest : List Node)
    (h : ¬(n.shape = .rparen ∧ depthAfter depth n = 0)) :
    closing depth (n :: rest)
      = (closing (depthAfter depth n) rest).map fun (inner, after) ↦ (n :: inner, after) := by
  rw [closing, if_neg h]

/-- Nodes that leave any depth above zero as it is, and so do not close what is open around them. -/
def Balanced (nodes : List Node) : Prop :=
  ∀ depth : Int, 0 < depth → ∀ rest, closing depth (nodes ++ rest)
    = (closing depth rest).map fun (inner, after) ↦ (nodes ++ inner, after)

theorem Balanced.append {nodes nodes' : List Node} (h : Balanced nodes) (h' : Balanced nodes') :
    Balanced (nodes ++ nodes') := by
  intro depth hdepth rest
  rw [List.append_assoc, h depth hdepth, h' depth hdepth, Option.map_map]
  simp [Function.comp_def]

theorem balanced_singleton {n : Node} (hn : n.shape ≠ .rparen)
    (hdepth : ∀ depth, depthAfter depth n = depth) : Balanced [n] := by
  intro depth _ rest
  rw [List.singleton_append, closing_cons rest fun h ↦ hn h.1, hdepth]
  rfl

theorem Balanced.enclosed {nodes : List Node} (h : Balanced nodes) (opening close : Nat) :
    Balanced (⟨.lparen, opening⟩ :: (nodes ++ [⟨.rparen, close⟩])) := by
  intro depth hdepth rest
  -- behind the opening parenthesis the depth is one more, so that its own one does not end the scan
  have hdown : depthAfter (depth + 1) ⟨.rparen, close⟩ = depth := Int.add_sub_cancel depth 1
  have hclose : closing (depth + 1) (⟨.rparen, close⟩ :: rest)
      = (closing depth rest).map fun (inner, after) ↦ (⟨.rparen, close⟩ :: inner, after) := by
    rw [closing_cons rest (by rw [hdown]; omega), hdown]
  have hinner := h (depth + 1) (by omega) (⟨.rparen, close⟩ :: rest)
  have hopen : closing depth (⟨.lparen, opening⟩ :: (nodes ++ ⟨.rparen, close⟩ :: rest))
      = (closing (depth + 1) (nodes ++ ⟨.rparen, close⟩ :: rest)).map
        fun (inner, after) ↦ (⟨.lparen, opening⟩ :: inner, after) :=
    closing_cons _ fun h ↦ nomatch h.1
  rw [show ⟨.lparen, opening⟩ :: (nodes ++ [⟨.rparen, close⟩]) ++ rest
    = ⟨.lparen, opening⟩ :: (nodes ++ ⟨.rparen, close⟩ :: rest) by simp, hopen, hinner, hclose]
  simp [Function.comp_def]

/-- An expression closes the parentheses that it opens, and no others. -/
theorem balanced_nodes (e : Expr) : Balanced e.nodes := by
  induction e with
  | number | var => exact balanced_singleton nofun fun _ ↦ rfl
  | group opening inner close ih => exact ih.enclosed opening close
  | abs function opening inner close ih =>
    exact (balanced_singleton (n := ⟨.abs, function⟩) nofun fun _ ↦ rfl).append
      (ih.enclosed opening close)
  | binary op position left right ihl ihr =>
    exact ihl.append ((balanced_singleton (n := ⟨.operator op, position⟩) nofun fun _ ↦ rfl).append
      ihr)

theorem closing_nodes (e : Expr) (close : Nat) (after : List Node) :
    closing 1 (e.nodes ++ ⟨.rparen, close⟩ :: after) = some (e.nodes, after) := by
  rw [balanced_nodes e 1 (by decide), closing, if_pos ⟨rfl, rfl⟩]
  simp

/-! ## Surroundings -/

/-- Nodes that a pass for operators of some strength has left behind. -/
structure Passed (strength : Nat) (nodes : List Node) : Prop where
  lt_strength : ∀ m ∈ nodes, m.strength < strength
  ne_abs : ∀ m ∈ nodes, isAbs m = false

theorem passed_nil (strength : Nat) : Passed strength [] := ⟨by simp, by simp⟩

theorem Passed.append {strength : Nat} {nodes nodes' : List Node} (h : Passed strength nodes)
    (h' : Passed strength nodes') : Passed strength (nodes ++ nodes') :=
  ⟨fun m hm ↦ (List.mem_append.mp hm).elim (h.lt_strength m) (h'.lt_strength m),
    fun m hm ↦ (List.mem_append.mp hm).elim (h.ne_abs m) (h'.ne_abs m)⟩

theorem passed_operator {strength : Nat} {op : Operator} (h : op.strength < strength)
    (position : Nat) : Passed strength [⟨.operator op, position⟩] :=
  ⟨by simpa [Node.strength] using h, by simp [isAbs]⟩

theorem passed_nodes {strength : Nat} (hpos : 0 < strength) {e : Expr} (h : e.Below strength) :
    Passed strength e.nodes := by
  induction e with
  | number | var =>
    exact ⟨by simpa [Expr.nodes, Node.strength] using hpos, by simp [Expr.nodes, isAbs]⟩
  | group | abs => exact absurd h id
  | binary op position left right ihl ihr =>
    exact (ihl h.2.1).append ((passed_operator h.1 position).append (ihr h.2.2))

/-! ## Operators -/

theorem combine_bind (store : Store) (op : Operator) (position : Nat) {left right : Expr}
    {x y : Node} (hx : left.leaf? = some x) (hy : right.leaf? = some y) {β : Type}
    (f : List Node → Except Error β) :
    (operatorNode store op position x y >>= fun node ↦ f [node])
      = left.combine store op position right >>= fun e ↦ f e.nodes := by
  simp only [operatorNode, Expr.combine, hx, hy]
  cases readOperand store x with
  | error => rfl
  | ok a =>
    cases readOperand store y with
    | error => rfl
    | ok b =>
      simp only [ok_bind]
      cases op.apply a b with
      | error | ok => rfl

/-- An operator behind the pass for its operands is applied if its turn has come. -/
theorem reduce_rebuild (store : Store) {strength : Nat} {op : Operator} (position : Nat)
    {left right : Expr}
    (hl : Expr.Between strength op.strength left)
    (hr : Expr.Between strength (op.strength + 1) right)
    (hbefore : ∀ m ∈ before, m.strength < strength)
    (hafter : strength = 3 ∨ ∀ m ∈ after, m.strength ≤ strength) :
    reduce store (before ++ (Expr.binary op position left right).nodes ++ after)
      = left.rebuild store strength op position right >>= fun e ↦
        reduce store (before ++ e.nodes ++ after) := by
  unfold Expr.rebuild
  split
  · next hop =>
    obtain ⟨x, hx⟩ := hl.exists_leaf (Nat.le_of_eq hop.symm)
    obtain ⟨y, hy⟩ := hr.exists_leaf (by omega)
    have hvalue := Expr.isValue_of_leaf? hy
    -- nothing is stronger than a power, so behind it anything may stand
    have hafter' : ∀ m ∈ y :: after, m.strength ≤ op.strength := by
      intro m hm
      rcases hafter with h3 | hafter
      · exact Nat.le_trans (strength_le_three m) (by omega)
      · rcases List.mem_cons.mp hm with rfl | hm
        · exact (strength_of_isValue hvalue).symm ▸ Nat.zero_le _
        · exact hop.symm ▸ hafter m hm
    have hreduce := reduce_operands store position
      (Expr.isValue_of_leaf? hx) hvalue (by rwa [hop]) hafter'
    rw [Expr.nodes, Expr.nodes_of_leaf? hx, Expr.nodes_of_leaf? hy]
    simp only [List.append_assoc, List.cons_append, List.nil_append]
    rw [hreduce]
    have hcombine := combine_bind store op position hx hy
      fun ns ↦ reduce store (before ++ (ns ++ after))
    simpa using hcombine
  · rfl

/-- A pass that takes its way through the left operand and then through the right one takes it
through the operator and its operands. -/
theorem reduce_binary {pass : Expr → Except Error Expr} {strength : Nat} {op : Operator}
    {position : Nat} {left right : Expr}
    (hleft :
      reduce store (before ++ left.nodes ++ ⟨.operator op, position⟩ :: (right.nodes ++ after))
        = pass left >>= fun l ↦
          reduce store (before ++ l.nodes ++ ⟨.operator op, position⟩ :: (right.nodes ++ after)))
    (hright : ∀ l, pass left = .ok l →
      reduce store (before ++ l.nodes ++ [⟨.operator op, position⟩] ++ right.nodes ++ after)
        = pass right >>= fun r ↦
          reduce store (before ++ l.nodes ++ [⟨.operator op, position⟩] ++ r.nodes ++ after))
    (hl : ∀ l, pass left = .ok l → Expr.Between strength op.strength l)
    (hr : ∀ r, pass right = .ok r → Expr.Between strength (op.strength + 1) r)
    (hbefore : ∀ m ∈ before, m.strength < strength)
    (hafter : strength = 3 ∨ ∀ m ∈ after, m.strength ≤ strength) :
    reduce store (before ++ (Expr.binary op position left right).nodes ++ after)
      = (do
        let l ← pass left
        let r ← pass right
        l.rebuild store strength op position r) >>= fun e ↦
          reduce store (before ++ e.nodes ++ after) := by
  rw [show before ++ (Expr.binary op position left right).nodes ++ after
    = before ++ left.nodes ++ ⟨.operator op, position⟩ :: (right.nodes ++ after) by
      simp [Expr.nodes], hleft]
  cases hl' : pass left with
  | error => rfl
  | ok l =>
    have hmoved : before ++ l.nodes ++ ⟨.operator op, position⟩ :: (right.nodes ++ after)
        = before ++ l.nodes ++ [⟨.operator op, position⟩] ++ right.nodes ++ after := by simp
    rw [ok_bind, ok_bind, hmoved, hright l hl']
    cases hr' : pass right with
    | error => rfl
    | ok r =>
      have hrebuild := reduce_rebuild store position (hl l hl') (hr r hr') hbefore hafter
      simpa [Expr.nodes] using hrebuild

theorem reduce_applyAt (store : Store) {strength : Nat} (hpos : 0 < strength) {e : Expr}
    (hgraded : e.Graded) (hbelow : e.Below (strength + 1)) (hbefore : Passed strength before)
    (hafter : ∀ m ∈ after, m.strength ≤ strength) :
    reduce store (before ++ e.nodes ++ after)
      = e.applyAt store strength >>= fun e ↦ reduce store (before ++ e.nodes ++ after) := by
  induction e generalizing before after with
  | number | var => rfl
  | group | abs => exact absurd hbelow id
  | binary op position left right ihl ihr =>
    obtain ⟨hleft, hright, hgl, hgr⟩ := hgraded
    obtain ⟨hop, hbl, hbr⟩ := hbelow
    -- what is behind the left operand has not been through this pass, but through those before it
    have hlater : ∀ m ∈ ⟨.operator op, position⟩ :: (right.nodes ++ after),
        m.strength ≤ strength := by
      intro m hm
      rcases List.mem_cons.mp hm with rfl | hm
      · exact Nat.le_of_lt_succ hop
      rcases List.mem_append.mp hm with hm | hm
      · exact Nat.le_of_lt_succ ((passed_nodes (Nat.succ_pos strength) hbr).lt_strength m hm)
      · exact hafter m hm
    refine reduce_binary (ihl hgl hbl hbefore hlater) (fun l hl ↦ ?_)
      (fun l hl ↦ (Expr.between_of_applyAt hgl hbl hl).mono hleft)
      (fun r hr ↦ (Expr.between_of_applyAt hgr hbr hr).mono hright) hbefore.lt_strength
      (.inr hafter)
    rcases Nat.lt_or_eq_of_le (Nat.le_of_lt_succ hop) with hlt | heq
    · have hl' := Expr.between_of_applyAt hgl hbl hl
      exact ihr hgr hbr ((hbefore.append (passed_nodes hpos hl'.below)).append
        (passed_operator hlt position)) hafter
    · -- the operator's turn has come, so its right operand is a leaf already
      obtain ⟨n, hn⟩ := Expr.Between.exists_leaf ⟨hgr, hbr, hright⟩ (by omega)
      rw [Expr.applyAt_of_leaf? hn, ok_bind]

/-! ## The end of a list -/

/-- What stands behind an expression: nothing, or the mark that ends the line. -/
def IsTail (tail : List Node) : Prop := tail = [] ∨ ∃ position, tail = [⟨.endOfLine, position⟩]

theorem IsTail.strength_le {tail : List Node} (h : IsTail tail) (strength : Nat) :
    ∀ m ∈ tail, m.strength ≤ strength := by
  rcases h with rfl | ⟨position, rfl⟩
  · simp
  · simp [Node.strength]

theorem reduce_leaf {tail : List Node} {n : Node} (hn : n.kind.isValue = true)
    (htail : IsTail tail) : reduce store (n :: tail) = .ok n := by
  rcases htail with rfl | ⟨position, rfl⟩
  · exact reduce_singleton store n
  · have hnone : findRedex [n, ⟨.endOfLine, position⟩] = none := by
      refine findRedex_eq_none fun m hm ↦ ?_
      rcases List.mem_cons.mp hm with rfl | hm
      · exact strength_of_isValue hn
      · rw [List.mem_singleton.mp hm]
        rfl
    have hdrop : dropEnd? [n, ⟨.endOfLine, position⟩] = some [n] := rfl
    rw [reduce_of_dropEnd? store hnone hdrop, reduce_singleton]

theorem reduce_finish {tail : List Node} {e : Expr} (hgraded : e.Graded) (hbelow : e.Below 3)
    (htail : IsTail tail) :
    reduce store (e.nodes ++ tail) >>= readValue store = e.finish store := by
  have hsecond := reduce_applyAt store (by decide) hgraded hbelow (passed_nil 2)
    (htail.strength_le 2)
  rw [List.nil_append] at hsecond
  rw [hsecond, Expr.finish, Expr.applyLower]
  cases h₁ : e.applyAt store 2 with
  | error => rfl
  | ok e₁ =>
    have hbetween := Expr.between_of_applyAt hgraded hbelow h₁
    have hthird := reduce_applyAt store (by decide) hbetween.graded hbetween.below
      (passed_nil 1) (htail.strength_le 1)
    rw [List.nil_append] at hthird
    rw [ok_bind, ok_bind, List.nil_append, hthird]
    cases h₂ : e₁.applyAt store 1 with
    | error => rfl
    | ok e₂ =>
      have hlast := Expr.between_of_applyAt hbetween.graded hbetween.below h₂
      obtain ⟨n, hn⟩ := hlast.exists_leaf e₁.rank_pos
      rw [ok_bind, ok_bind, List.nil_append, Expr.nodes_of_leaf? hn, List.singleton_append,
        reduce_leaf (Expr.isValue_of_leaf? hn) htail, Expr.readLeaf, hn]
      rfl

/-! ## Groups -/

theorem filter_isAbs_eq_none (h : ∀ m ∈ before, isAbs m = false) :
    before.getLast?.filter isAbs = none := by
  cases hlast : before.getLast? with
  | none => rfl
  | some m => simp [h m (List.mem_of_getLast? hlast)]

theorem withoutAbs_of_forall (h : ∀ m ∈ before, isAbs m = false) : withoutAbs before = before := by
  unfold withoutAbs
  cases hlast : before.getLast? with
  | none => rfl
  | some m => simp [h m (List.mem_of_getLast? hlast)]

/-- The inside of a group comes to what the passes leave of it. -/
def IsEvaluated (store : Store) (e : Expr) : Prop :=
  reduce store e.nodes >>= readValue store = e.passValue store

theorem reduce_group {opening close : Nat} {inner : Expr} (hinner : IsEvaluated store inner)
    (hopens : Opens before) (habs : ∀ m ∈ before, isAbs m = false) :
    reduce store (before ++ (Expr.group opening inner close).nodes ++ after)
      = (Expr.group opening inner close).applyFirst store >>= fun e ↦
        reduce store (before ++ e.nodes ++ after) := by
  have hreduce := reduce_of_group store
    (hopens.findRedex_lparen opening (inner.nodes ++ ⟨.rparen, close⟩ :: after))
    (closing_nodes inner close after)
  rw [← bind_assoc, hinner, withoutAbs_of_forall habs] at hreduce
  have hnodes : before ++ (Expr.group opening inner close).nodes ++ after
      = before ++ ⟨.lparen, opening⟩ :: (inner.nodes ++ ⟨.rparen, close⟩ :: after) := by
    simp [Expr.nodes]
  rw [hnodes, hreduce, Expr.applyFirst_group]
  cases inner.passValue store with
  | error => rfl
  | ok value =>
    have hnode : groupNode before ⟨.lparen, opening⟩ value
        = .ok ⟨.number (.ofText value.numeral.text), opening⟩ := by
      rw [groupNode, filter_isAbs_eq_none habs]
    rw [ok_bind, ok_bind, ok_bind, hnode, ok_bind]
    simp [Expr.nodes]

theorem reduce_abs {function opening close : Nat} {inner : Expr} (hinner : IsEvaluated store inner)
    (hopens : Opens before) :
    reduce store (before ++ (Expr.abs function opening inner close).nodes ++ after)
      = (Expr.abs function opening inner close).applyFirst store >>= fun e ↦
        reduce store (before ++ e.nodes ++ after) := by
  have hreduce := reduce_of_group store
    (hopens.findRedex_abs function opening (inner.nodes ++ ⟨.rparen, close⟩ :: after))
    (closing_nodes inner close after)
  have hwithout : withoutAbs (before ++ [⟨.abs, function⟩]) = before := by
    simp [withoutAbs, isAbs]
  rw [← bind_assoc, hinner, hwithout] at hreduce
  have hnodes : before ++ (Expr.abs function opening inner close).nodes ++ after
      = before ++ ⟨.abs, function⟩ :: ⟨.lparen, opening⟩
        :: (inner.nodes ++ ⟨.rparen, close⟩ :: after) := by simp [Expr.nodes]
  rw [hnodes, hreduce, Expr.applyFirst_abs]
  cases inner.passValue store with
  | error => rfl
  | ok value =>
    have hnode : groupNode (before ++ [⟨.abs, function⟩]) ⟨.lparen, opening⟩ value
        = readNumber value >>= fun x ↦ .ok ⟨.number (.ofNumber x.abs), function⟩ := by
      rw [groupNode, List.getLast?_concat]
      rfl
    rw [ok_bind, ok_bind, hnode]
    cases readNumber value with
    | error => rfl
    | ok x => simp [Expr.nodes]

/-! ## Groups and powers -/

/-- What the pass for groups and powers has left behind when it comes to an expression; behind a
power it comes to a right operand. -/
def Reached (before : List Node) (e : Expr) : Prop :=
  Passed 3 before ∨ e.rank = 4 ∧ ∃ front position,
    before = front ++ [⟨.operator .pow, position⟩] ∧ Passed 3 front

theorem Reached.opens {e : Expr} (h : Reached before e) : Opens before := by
  rcases h with h | ⟨-, front, position, rfl, h⟩
  · exact .inl h.lt_strength
  · exact .inr ⟨front, position, rfl, h.lt_strength⟩

theorem Reached.ne_abs {e : Expr} (h : Reached before e) : ∀ m ∈ before, isAbs m = false := by
  rcases h with h | ⟨-, front, position, rfl, h⟩
  · exact h.ne_abs
  · intro m hm
    rcases List.mem_append.mp hm with hm | hm
    · exact h.ne_abs m hm
    · rw [List.mem_singleton.mp hm]
      rfl

/-- An expression that is an operator and its operands is not behind a power. -/
theorem Reached.passed {op : Operator} {position : Nat} {left right : Expr}
    (h : Reached before (.binary op position left right)) : Passed 3 before := by
  rcases h with h | ⟨hrank, -⟩
  · exact h
  · have hle := op.strength_le_three
    simp only [Expr.rank] at hrank
    omega

theorem reached_right {op : Operator} (position : Nat) {right : Expr} (h : Passed 3 before)
    (hrank : op.strength < right.rank) : Reached (before ++ [⟨.operator op, position⟩]) right := by
  rcases Nat.lt_or_eq_of_le op.strength_le_three with hlt | heq
  · exact .inl (h.append (passed_operator hlt position))
  · have hpow : op = .pow := by
      cases op with
      | pow => rfl
      | _ => cases heq
    have hle := right.rank_le_four
    exact .inr ⟨by omega, before, position, by rw [hpow], h⟩

/-- What all passes leave, once the first of them is known to be taken. -/
theorem reduce_of_applyFirst {tail : List Node} {e : Expr} (hgraded : e.Graded)
    (htail : IsTail tail)
    (h : reduce store (e.nodes ++ tail)
      = e.applyFirst store >>= fun e ↦ reduce store (e.nodes ++ tail)) :
    reduce store (e.nodes ++ tail) >>= readValue store = e.passValue store := by
  rw [h, bind_assoc, Expr.passValue]
  cases h₁ : e.applyFirst store with
  | error => rfl
  | ok e₁ =>
    have hfirst := Expr.between_of_applyFirst hgraded h₁
    exact reduce_finish hfirst.graded hfirst.below htail

theorem isEvaluated_of_applyFirst {e : Expr} (hgraded : e.Graded)
    (h : reduce store (e.nodes ++ [])
      = e.applyFirst store >>= fun e ↦ reduce store (e.nodes ++ [])) : IsEvaluated store e := by
  have hinner := reduce_of_applyFirst hgraded (.inl rfl) h
  rwa [List.append_nil] at hinner

theorem reduce_applyFirst {e : Expr} (hgraded : e.Graded) (hbefore : Reached before e) :
    reduce store (before ++ e.nodes ++ after)
      = e.applyFirst store >>= fun e ↦ reduce store (before ++ e.nodes ++ after) := by
  induction e generalizing before after with
  | number | var => rfl
  | group opening inner close ih =>
    have hinner := isEvaluated_of_applyFirst (e := inner) hgraded (ih hgraded (.inl (passed_nil 3)))
    exact reduce_group hinner hbefore.opens hbefore.ne_abs
  | abs function opening inner close ih =>
    have hinner := isEvaluated_of_applyFirst (e := inner) hgraded (ih hgraded (.inl (passed_nil 3)))
    exact reduce_abs hinner hbefore.opens
  | binary op position left right ihl ihr =>
    obtain ⟨hleft, hright, hgl, hgr⟩ := hgraded
    refine reduce_binary (ihl hgl (.inl hbefore.passed)) (fun l hl ↦ ?_)
      (fun l hl ↦ (Expr.between_of_applyFirst hgl hl).mono hleft)
      (fun r hr ↦ (Expr.between_of_applyFirst hgr hr).mono hright) hbefore.passed.lt_strength
      (.inl rfl)
    have hl' := Expr.between_of_applyFirst hgl hl
    exact ihr hgr (reached_right position
      (hbefore.passed.append (passed_nodes (by decide) hl'.below)) hright)

/-- **Reduction takes the passes.** The nodes of a graded tree are reduced to the value that the
passes leave of the tree, or fail as the passes do. -/
theorem reduce_passValue {tail : List Node} {e : Expr} (hgraded : e.Graded) (htail : IsTail tail) :
    reduce store (e.nodes ++ tail) >>= readValue store = e.passValue store := by
  refine reduce_of_applyFirst hgraded htail ?_
  have hfirst : reduce store ([] ++ e.nodes ++ tail)
      = e.applyFirst store >>= fun e ↦ reduce store ([] ++ e.nodes ++ tail) :=
    reduce_applyFirst hgraded (.inl (passed_nil 3))
  simpa using hfirst

end Abacus.Evaluation
