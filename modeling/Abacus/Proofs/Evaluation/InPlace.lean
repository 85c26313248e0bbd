import Abacus.Proofs.Evaluation.Redex
import Abacus.Proofs.Except
import Mathlib.Data.List.Basic

/-!
# Reduction in place

The reduction of a list of nodes, carried out on the list as a whole: a pass looks for a node by its
place, scans on from there for a parenthesis, reads the neighbours of an operator, and puts one node
where several were. None of this is safe by itself, so every place and every range is checked here.
Nor is it clear that there is an end. A pass is given the reduction of the inside of a group from
outside (`pass`), and passes follow one another as often as they are allowed to (`loop`).

A pass does what `reduce` does on the parts of a list (`pass_eq_step`). So it never looks at a place
that is not there, it leaves a shorter list, and it has no use for the reduction of any list but
shorter ones. Therefore more passes than the list has nodes are never due (`loop_eq_reduced`).
-/

namespace Abacus.Evaluation.InPlace

/-- Why a reduction in place comes to no node. -/
inductive Stop where
  /-- A place is looked at that the list does not have. -/
  | outOfRange
  /-- A node is applied as an operator, and is none. -/
  | notAnOperator
  /-- More passes are due than are allowed. -/
  | unfinished
  /-- The list has no value. -/
  | failed (e : Error)

/-! ## Places and ranges -/

/-- The node at a place. -/
def nodeAt (nodes : List Node) (i : Nat) : Except Stop Node :=
  match nodes[i]? with
  | some n => .ok n
  | none => .error .outOfRange

/-- Whether the node at a place has a property; the place is looked at only under a condition. -/
def look (condition : Bool) (nodes : List Node) (i : Nat) (p : Node → Bool) : Except Stop Bool :=
  if condition then do return p (← nodeAt nodes i) else return false

/-- The nodes from one place up to another. -/
def slice (nodes : List Node) (i j : Nat) : Except Stop (List Node) :=
  if i ≤ j ∧ j ≤ nodes.length then .ok ((nodes.take j).drop i) else .error .outOfRange

/-- The list without the nodes from one place up to another. -/
def erase (nodes : List Node) (i j : Nat) : Except Stop (List Node) :=
  if i ≤ j ∧ j ≤ nodes.length then .ok (nodes.take i ++ nodes.drop j) else .error .outOfRange

/-- The list with another node at a place. -/
def put (nodes : List Node) (i : Nat) (n : Node) : Except Stop (List Node) :=
  if i < nodes.length then .ok (nodes.set i n) else .error .outOfRange

/-- The list with one node in place of those from one place up to another. -/
def collapse (nodes : List Node) (i j : Nat) (n : Node) : Except Stop (List Node) := do
  put (← erase nodes (i + 1) j) i n

/-! ## Passes -/

/-- The place where the nesting depth comes back to zero at a closing parenthesis. -/
def findClosing (nodes : List Node) (depth : Int) (i : Nat) : Except Stop (Option Nat) :=
  if i < nodes.length then do
    let n ← nodeAt nodes i
    if n.shape = .rparen ∧ depthAfter depth n = 0 then return some i
    else findClosing nodes (depthAfter depth n) (i + 1)
  else return none
termination_by nodes.length - i

section Passes

variable (store : Store) (recur : List Node → Except Stop Node) (nodes : List Node)

/-- Puts one node in place of a group of some value, and of an `abs` in front of it. -/
def replaceGroup (opening close : Nat) (value : Value) : Except Stop (List Node) := do
  if ← look (0 < opening) nodes (opening - 1) isAbs then
    let x ← (readNumber value).mapError .failed
    let function ← nodeAt nodes (opening - 1)
    collapse nodes (opening - 1) (close + 1) ⟨.number (.ofNumber x.abs), function.position⟩
  else
    let opener ← nodeAt nodes opening
    collapse nodes opening (close + 1) ⟨.number (.ofText value.numeral.text), opener.position⟩

/-- Reduces what is inside a group, and puts one node in place of it. -/
def resolveGroup (opening : Nat) : Except Stop (List Node) := do
  match ← findClosing nodes 0 opening with
  | none => Except.error (.failed (.unmatched nodes))
  | some close =>
    let value ← (readValue store (← recur (← slice nodes (opening + 1) close))).mapError .failed
    replaceGroup nodes opening close value

/-- Puts one node in place of an operator and its operands. -/
def reduceOperator (i : Nat) : Except Stop (List Node) := do
  if i = 0 ∨ nodes.length ≤ i + 1 then Except.error (.failed (.missingOperand nodes))
  else
    let left ← nodeAt nodes (i - 1)
    let right ← nodeAt nodes (i + 1)
    if left.kind.isValue && right.kind.isValue then
      let n ← nodeAt nodes i
      match n.shape with
      | .operator op =>
        let node ← (operatorNode store op n.position left right).mapError .failed
        collapse nodes (i - 1) (i + 2) node
      | _ => Except.error .notAnOperator
    else Except.error (.failed (.missingOperand nodes))

/-- Works on a group, or on a power unless there is a group behind it, which then comes first. -/
def workAt (i : Nat) : Except Stop (List Node) := do
  if isLparen (← nodeAt nodes i) then resolveGroup store recur nodes i
  else if ← look (i + 1 < nodes.length) nodes (i + 1) isLparen then
    resolveGroup store recur nodes (i + 1)
  else if ← look (i + 2 < nodes.length) nodes (i + 1) isAbs then
    resolveGroup store recur nodes (i + 2)
  else reduceOperator store nodes i

/-- One pass over a list of at least two nodes. -/
def pass : Except Stop (List Node) :=
  match nodes.findIdx? isFirst with
  | some i => workAt store recur nodes i
  | none =>
    match nodes.findIdx? (isAtLevel .multiplicative) with
    | some i => reduceOperator store nodes i
    | none =>
      match nodes.findIdx? (isAtLevel .additive) with
      | some i => reduceOperator store nodes i
      | none => do
        if (← nodeAt nodes 1).shape = .endOfLine then erase nodes 1 2
        else Except.error (.failed (.irreducible nodes))

end Passes

/-- Passes over a list until one node is left, as many as are allowed and within groups no more than
are left of them. -/
def loop (store : Store) : Nat → List Node → Except Stop Node
  | 0, _ => .error .unfinished
  | rounds + 1, nodes =>
    if nodes.length ≤ 1 then (alone nodes).mapError .failed
    else do loop store rounds (← pass store (loop store rounds) nodes)

/-! ## Steps on the parts of a list -/

section Steps

variable (store : Store) (recur : List Node → Except Stop Node)

/-- What becomes of a list at a group of it. -/
def groupStep (before : List Node) (opener : Node) (rest : List Node) : Except Stop (List Node) :=
  match closing (depthAfter 0 opener) rest with
  | none => .error (.failed (.unmatched (before ++ opener :: rest)))
  | some (inner, after) => do
    let value ← (readValue store (← recur inner)).mapError .failed
    let node ← (groupNode before opener value).mapError .failed
    return withoutAbs before ++ node :: after

/-- What becomes of a list at an operator of it. -/
def operatorStep (before : List Node) (op : Operator) (position : Nat) (after : List Node) :
    Except Stop (List Node) :=
  match operands? before after with
  | none => .error (.failed (.missingOperand (before ++ ⟨.operator op, position⟩ :: after)))
  | some (left, right) => do
    let node ← (operatorNode store op position left right).mapError .failed
    return before.dropLast ++ node :: after.tail

/-- What becomes of a list at a part of it. -/
def redexStep : Redex → Except Stop (List Node)
  | .group before opener rest => groupStep store recur before opener rest
  | .operator before op position after => operatorStep store before op position after

/-- What becomes of a list at the part that is worked on next. -/
def step (nodes : List Node) : Except Stop (List Node) :=
  match findRedex nodes with
  | some redex => redexStep store recur redex
  | none =>
    match dropEnd? nodes with
    | some shorter => .ok shorter
    | none => .error (.failed (.irreducible nodes))

end Steps

/-! ## A pass is a step -/

theorem nodeAt_append (before : List Node) (n : Node) (after : List Node) :
    nodeAt (before ++ n :: after) before.length = .ok n := by
  simp [nodeAt]

theorem findClosing_append (before nodes : List Node) (depth : Int) :
    findClosing (before ++ nodes) depth before.length
      = .ok ((closing depth nodes).map fun p ↦ before.length + p.1.length) := by
  induction nodes generalizing before depth with
  | nil =>
    rw [findClosing, if_neg (by simp)]
    rfl
  | cons n rest ih =>
    have hlength : before.length < (before ++ n :: rest).length := by simp
    rw [findClosing, if_pos hlength, nodeAt_append, closing, ok_bind]
    split
    · rfl
    · have hnext := ih (before ++ [n]) (depthAfter depth n)
      rw [List.append_assoc, List.singleton_append, List.length_append, List.length_singleton]
        at hnext
      rw [hnext, Option.map_map]
      refine congrArg Except.ok (Option.map_congr fun p _ ↦ ?_)
      simp only [Function.comp_apply, List.length_cons]
      omega

section Ranges

variable (front mid back : List Node) {i j : Nat} (hi : i = front.length)
  (hj : j = front.length + mid.length)
include hi hj

theorem slice_append : slice (front ++ mid ++ back) i j = .ok mid := by
  have hij : i ≤ j ∧ j ≤ (front ++ mid ++ back).length := by simp; omega
  rw [← List.length_append] at hj
  rw [slice, if_pos hij, hi, hj, List.take_left, List.drop_left]

theorem erase_append : erase (front ++ mid ++ back) i j = .ok (front ++ back) := by
  have hij : i ≤ j ∧ j ≤ (front ++ mid ++ back).length := by simp; omega
  have hback : (front ++ mid ++ back).drop j = back := by
    rw [hj, ← List.length_append, List.drop_left]
  rw [erase, if_pos hij, hback, hi, List.append_assoc, List.take_left]

end Ranges

theorem collapse_append (front : List Node) (n : Node) (mid back : List Node) (node : Node)
    {i j : Nat} (hi : i = front.length) (hj : j = front.length + 1 + mid.length) :
    collapse (front ++ n :: mid ++ back) i j node = .ok (front ++ node :: back) := by
  have herase : erase (front ++ n :: mid ++ back) (i + 1) j = .ok (front ++ n :: back) := by
    have hrange := erase_append (front ++ [n]) mid back (i := i + 1) (j := j) (by simp [hi])
      (by simp [hj])
    simpa using hrange
  rw [collapse, herase, ok_bind, put, if_pos (by simp [hi]), hi,
    List.set_append_right _ _ (Nat.le_refl _), Nat.sub_self, List.set_cons_zero]

section Steps

variable (store : Store) (recur : List Node → Except Stop Node)

theorem closing_opener (opener : Node) (rest : List Node) :
    closing 0 (opener :: rest)
      = (closing (depthAfter 0 opener) rest).map fun p ↦ (opener :: p.1, p.2) := by
  have hopen : ¬(opener.shape = .rparen ∧ depthAfter 0 opener = 0) := by
    rintro ⟨hshape, hdepth⟩
    simp [depthAfter, hshape] at hdepth
  rw [closing, if_neg hopen]

theorem replaceGroup_append (before : List Node) (opener : Node) (inner : List Node)
    (closer : Node) (after : List Node) (value : Value) {close : Nat}
    (hclose : close = before.length + 1 + inner.length) :
    replaceGroup (before ++ opener :: (inner ++ closer :: after)) before.length close value
      = (groupNode before opener value).mapError .failed >>= fun node ↦
        .ok (withoutAbs before ++ node :: after) := by
  have hopener := nodeAt_append before opener (inner ++ closer :: after)
  have hgroup : before ++ opener :: (inner ++ closer :: after)
      = before ++ opener :: (inner ++ [closer]) ++ after := by simp
  have hlength : close + 1 = before.length + 1 + (inner ++ [closer]).length := by
    rw [hclose, List.length_append, List.length_singleton]
    omega
  rcases before.eq_nil_or_concat' with rfl | ⟨front, f, rfl⟩
  · have hlook : look (0 < ([] : List Node).length) ([] ++ opener :: (inner ++ closer :: after))
        (([] : List Node).length - 1) isAbs = .ok false := rfl
    rw [replaceGroup, hlook, ok_bind, if_neg Bool.false_ne_true, hopener, ok_bind, hgroup,
      collapse_append _ _ _ _ _ rfl hlength]
    rfl
  have hf : nodeAt (front ++ [f] ++ opener :: (inner ++ closer :: after))
      ((front ++ [f]).length - 1) = .ok f := by simp [nodeAt]
  have hlook : look (0 < (front ++ [f]).length)
      (front ++ [f] ++ opener :: (inner ++ closer :: after)) ((front ++ [f]).length - 1) isAbs
      = .ok (isAbs f) := by
    rw [look, hf]
    simp
  have hany : (front ++ [f]).getLast?.any isAbs = isAbs f := by rw [List.getLast?_concat]; rfl
  rw [replaceGroup, hlook, ok_bind, groupNode, withoutAbs, hany, List.getLast?_concat]
  cases habs : isAbs f with
  | false =>
    rw [if_neg Bool.false_ne_true, hopener, ok_bind, hgroup, collapse_append _ _ _ _ _ rfl hlength,
      Option.filter_some_neg habs, if_neg Bool.false_ne_true]
    rfl
  | true =>
    -- the function is the first of the nodes that go
    have hfunction : front ++ [f] ++ opener :: (inner ++ closer :: after)
        = front ++ f :: (opener :: (inner ++ [closer])) ++ after := by simp
    have hcollapse := fun node ↦ collapse_append front f (opener :: (inner ++ [closer])) after node
      (i := (front ++ [f]).length - 1) (j := close + 1) (by simp) (by simp [hclose]; omega)
    rw [if_pos rfl, hf, hfunction, Option.filter_some_pos habs, if_pos rfl, List.dropLast_concat]
    cases readNumber value with
    | error e => rfl
    | ok x => exact hcollapse _

theorem resolveGroup_append (before : List Node) (opener : Node) (rest : List Node) :
    resolveGroup store recur (before ++ opener :: rest) before.length
      = groupStep store recur before opener rest := by
  rw [resolveGroup, groupStep, findClosing_append, closing_opener, ok_bind, Option.map_map]
  cases hc : closing (depthAfter 0 opener) rest with
  | none => rfl
  | some p =>
    obtain ⟨inner, after⟩ := p
    obtain ⟨closer, rfl⟩ := append_of_closing hc
    have hslice : slice (before ++ opener :: (inner ++ closer :: after)) (before.length + 1)
        (before.length + (opener :: inner).length) = .ok inner := by
      have hrange := slice_append (before ++ [opener]) inner (closer :: after)
        (i := before.length + 1) (j := before.length + (opener :: inner).length)
        (by simp) (by simp; omega)
      simpa using hrange
    simp only [Option.map_some, Function.comp_apply, hslice, ok_bind]
    cases recur inner with
    | error stop => rfl
    | ok n =>
      simp only [ok_bind]
      cases readValue store n with
      | error e => rfl
      | ok value =>
        exact replaceGroup_append before opener inner closer after value (by simp; omega)

theorem reduceOperator_append (before : List Node) (op : Operator) (position : Nat)
    (after : List Node) :
    reduceOperator store (before ++ ⟨.operator op, position⟩ :: after) before.length
      = operatorStep store before op position after := by
  have hop := nodeAt_append before ⟨.operator op, position⟩ after
  rw [reduceOperator, operatorStep]
  rcases before.eq_nil_or_concat' with rfl | ⟨front, left, rfl⟩
  · rfl
  rcases after with _ | ⟨right, back⟩
  · have hnone : operands? (front ++ [left]) [] = none := by simp [operands?]
    rw [if_pos (by simp), hnone]
  have hleft : nodeAt (front ++ [left] ++ ⟨.operator op, position⟩ :: right :: back)
      ((front ++ [left]).length - 1) = .ok left := by simp [nodeAt]
  have hright : nodeAt (front ++ [left] ++ ⟨.operator op, position⟩ :: right :: back)
      ((front ++ [left]).length + 1) = .ok right := by
    have hplace := nodeAt_append (front ++ [left] ++ [⟨.operator op, position⟩]) right back
    simpa using hplace
  have hoperands : operands? (front ++ [left]) (right :: back)
      = if left.kind.isValue && right.kind.isValue then some (left, right) else none := by
    simp [operands?]
  rw [if_neg (by simp; omega), hleft, ok_bind, hright, ok_bind, hoperands, hop]
  by_cases hvalues : (left.kind.isValue && right.kind.isValue) = true
  · have hlist : front ++ [left] ++ ⟨.operator op, position⟩ :: right :: back
        = front ++ left :: [⟨.operator op, position⟩, right] ++ back := by simp
    have hcollapse := fun node ↦ collapse_append front left [⟨.operator op, position⟩, right] back
      node (i := (front ++ [left]).length - 1) (j := (front ++ [left]).length + 2) (by simp)
      (by simp)
    rw [if_pos hvalues, if_pos hvalues, hlist, List.dropLast_concat]
    simp only [ok_bind, hcollapse]
    rfl
  · rw [if_neg hvalues, if_neg hvalues]

theorem look_behind {condition : Bool} (h : condition = true) (before : List Node) (n m : Node)
    (rest : List Node) (p : Node → Bool) :
    look condition (before ++ n :: m :: rest) (before.length + 1) p = .ok (p m) := by
  have hplace := nodeAt_append (before ++ [n]) m rest
  rw [List.append_assoc, List.length_append, List.length_singleton, List.singleton_append] at hplace
  rw [look, if_pos h, hplace]
  rfl

theorem look_eq_false {condition : Bool} (h : condition = false) (nodes : List Node) (i : Nat)
    (p : Node → Bool) : look condition nodes i p = .ok false := by
  rw [look, h]
  rfl

theorem resolveGroup_concat (before : List Node) (n opener : Node) (rest : List Node) :
    resolveGroup store recur (before ++ n :: opener :: rest) (before.length + 1)
      = groupStep store recur (before ++ [n]) opener rest := by
  have hgroup := resolveGroup_append store recur (before ++ [n]) opener rest
  rwa [List.append_assoc, List.length_append, List.length_singleton, List.singleton_append]
    at hgroup

/-- A place is looked at behind a power only where the list goes on. -/
theorem workAt_append {before : List Node} {n : Node} (after : List Node) (hn : isFirst n = true) :
    workAt store recur (before ++ n :: after) before.length
      = redexStep store recur (redexAt before n after) := by
  obtain ⟨shape, position⟩ := n
  have hshape : shape = .lparen ∨ shape = .operator .pow := by simpa [isFirst, isLparen] using hn
  rw [workAt, nodeAt_append, ok_bind]
  rcases hshape with rfl | rfl
  · exact resolveGroup_append store recur before _ after
  have hpower := reduceOperator_append store before .pow position after
  have hredex : redexAt before ⟨.operator .pow, position⟩ after
      = (groupBehind? before ⟨.operator .pow, position⟩ after).getD
        (.operator before .pow position after) := rfl
  rw [if_neg (by simp [isLparen]), hredex]
  rcases after with _ | ⟨m, _ | ⟨k, rest⟩⟩
  · rw [look_eq_false (by simp), look_eq_false (by simp)]
    exact hpower
  · rw [look_behind (by simp), look_eq_false (by simp), ok_bind, ok_bind, groupBehind?]
    cases isLparen m with
    | true => exact resolveGroup_concat store recur before _ m []
    | false => exact hpower
  · rw [look_behind (by simp), look_behind (by simp), ok_bind, ok_bind, groupBehind?]
    cases isLparen m with
    | true => exact resolveGroup_concat store recur before _ m (k :: rest)
    | false =>
      cases isAbs m with
      | true =>
        have hgroup := resolveGroup_concat store recur (before ++ [⟨.operator .pow, position⟩])
          m k rest
        simp only [List.append_assoc, List.length_append, List.length_singleton,
          List.singleton_append] at hgroup
        exact hgroup
      | false => exact hpower

theorem redexAt_of_ne {op : Operator} (h : op ≠ .pow) (before : List Node) (position : Nat)
    (after : List Node) :
    redexAt before ⟨.operator op, position⟩ after = .operator before op position after := by
  cases op with
  | pow => exact absurd rfl h
  | _ => rfl

theorem reduceOperator_of_isAtLevel {level : Operator.Level} {before : List Node} {n : Node}
    (after : List Node) (hn : isAtLevel level n = true) (hlevel : level ≠ .power) :
    reduceOperator store (before ++ n :: after) before.length
      = redexStep store recur (redexAt before n after) := by
  obtain ⟨shape, position⟩ := n
  cases shape with
  | operator op =>
    have hop : op ≠ .pow := by
      rintro rfl
      have hpower : Operator.Level.power = level := by simpa [isAtLevel, Operator.level] using hn
      exact hlevel hpower.symm
    rw [redexAt_of_ne hop]
    exact reduceOperator_append store before op position after
  | _ => cases hn

theorem findIdx?_eq_cutAt (p : Node → Bool) (nodes : List Node) :
    nodes.findIdx? p = (cutAt p nodes).map fun c ↦ c.1.length := by
  induction nodes with
  | nil => rfl
  | cons n rest ih =>
    rw [List.findIdx?_cons, cutAt]
    cases p n with
    | true => rfl
    | false =>
      rw [if_neg Bool.false_ne_true, if_neg Bool.false_ne_true, ih, Option.map_map, Option.map_map]
      rfl

/-- **A pass in place does what is done to the parts of the list.** -/
theorem pass_eq_step {nodes : List Node} (hlength : 1 < nodes.length) :
    pass store recur nodes = step store recur nodes := by
  rw [pass, step, findRedex, findIdx?_eq_cutAt, findIdx?_eq_cutAt, findIdx?_eq_cutAt]
  rcases hfirst : cutAt isFirst nodes with _ | ⟨before, n, after⟩
  · rcases hsecond : cutAt (isAtLevel .multiplicative) nodes with _ | ⟨before, n, after⟩
    · rcases hthird : cutAt (isAtLevel .additive) nodes with _ | ⟨before, n, after⟩
      · -- there are two nodes at least, and the second one may be the mark of the end
        rcases nodes with _ | ⟨first, _ | ⟨second, rest⟩⟩
        · cases hlength
        · exact absurd hlength (Nat.lt_irrefl 1)
        by_cases hend : second.shape = .endOfLine
        · simp [nodeAt, dropEnd?, hend, erase]
        · simp [nodeAt, dropEnd?, hend]
      · obtain ⟨rfl, hn⟩ := append_of_cutAt hthird
        exact reduceOperator_of_isAtLevel store recur after hn (by decide)
    · obtain ⟨rfl, hn⟩ := append_of_cutAt hsecond
      exact reduceOperator_of_isAtLevel store recur after hn (by decide)
  · obtain ⟨rfl, hn⟩ := append_of_cutAt hfirst
    exact workAt_append store recur after hn

end Steps

/-! ## Steps shorten the list -/

/-- A list became shorter, or failed for a reason of its own. -/
inductive Shortens (nodes : List Node) : Except Stop (List Node) → Prop where
  | ok {shorter : List Node} (h : shorter.length < nodes.length) : Shortens nodes (.ok shorter)
  | failed (e : Error) : Shortens nodes (.error (.failed e))

theorem Shortens.length_lt {nodes shorter : List Node} (h : Shortens nodes (.ok shorter)) :
    shorter.length < nodes.length := by
  cases h with
  | ok h => exact h

theorem Shortens.bind {α : Type} {nodes : List Node} {f : α → Except Stop (List Node)}
    (h : ∀ a, Shortens nodes (f a)) (x : Except Error α) :
    Shortens nodes (x.mapError .failed >>= f) := by
  cases x with
  | error e => exact .failed e
  | ok a => exact h a

/-- A step leaves a shorter list or fails, and if the reduction of another list has a part in it,
then just one, and that list is shorter too. -/
inductive Depends (nodes : List Node) :
    ((List Node → Except Stop Node) → Except Stop (List Node)) → Prop where
  | done {result : Except Stop (List Node)} (h : Shortens nodes result) :
    Depends nodes fun _ ↦ result
  | asks {inner : List Node} (hinner : inner.length < nodes.length)
      {next : Node → Except Stop (List Node)} (h : ∀ n, Shortens nodes (next n)) :
    Depends nodes fun recur ↦ recur inner >>= next

section Steps

variable (store : Store)

/-- A group has at least the node that it opens with and the one that closes it, so its inside is
shorter than the list, and so is the list with one node in place of it. -/
theorem depends_groupStep (before : List Node) (opener : Node) (rest : List Node) :
    Depends (before ++ opener :: rest) (groupStep store · before opener rest) := by
  unfold groupStep
  rcases hclosing : closing (depthAfter 0 opener) rest with _ | ⟨inner, after⟩
  · exact .done (.failed _)
  have hrest := length_of_closing hclosing
  have hbefore := length_withoutAbs_le before
  refine .asks (by simp; omega) fun n ↦ ?_
  refine Shortens.bind (fun value ↦ Shortens.bind (fun node ↦ .ok ?_) _) _
  simp only [List.length_append, List.length_cons]
  omega

/-- An operator goes together with one of its operands. -/
theorem depends_operatorStep (before : List Node) (op : Operator) (position : Nat)
    (after : List Node) :
    Depends (before ++ ⟨.operator op, position⟩ :: after)
      fun _ ↦ operatorStep store before op position after := by
  refine .done ?_
  unfold operatorStep
  rcases hoperands : operands? before after with _ | ⟨left, right⟩
  · exact .failed _
  have hbefore : 0 < before.length := by
    rcases before with _ | ⟨n, before⟩
    · cases hoperands
    · simp
  refine Shortens.bind (fun node ↦ .ok ?_) _
  simp only [List.length_append, List.length_cons, List.length_dropLast, List.length_tail]
  omega

theorem depends_step (nodes : List Node) : Depends nodes (step store · nodes) := by
  unfold step
  rcases hredex : findRedex nodes with _ | ⟨before, opener, rest⟩ | ⟨before, op, position, after⟩
  · rcases hend : dropEnd? nodes with _ | shorter
    · exact .done (.failed _)
    · exact .done (.ok (length_of_dropEnd? hend))
  · obtain rfl := findRedex_nodes hredex
    exact depends_groupStep store before opener rest
  · obtain rfl := findRedex_nodes hredex
    exact depends_operatorStep store before op position after

/-- A pass over a list of at least two nodes never looks at a place that is not there. -/
theorem depends_pass {nodes : List Node} (hlength : 1 < nodes.length) :
    Depends nodes (pass store · nodes) := by
  have hpass : (pass store · nodes) = (step store · nodes) :=
    funext fun recur ↦ pass_eq_step store recur hlength
  rw [hpass]
  exact depends_step store nodes

/-! ## The reduction -/

/-- What a list is reduced to. -/
def reduced (nodes : List Node) : Except Stop Node := (reduce store nodes).mapError .failed

theorem reduced_eq_step {nodes : List Node} (hlength : 1 < nodes.length) :
    reduced store nodes = step store (reduced store) nodes >>= reduced store := by
  rw [reduced, reduce_eq, if_neg (Nat.not_le_of_lt hlength), step]
  rcases hredex : findRedex nodes with _ | ⟨before, opener, rest⟩ | ⟨before, op, position, after⟩
  · rcases dropEnd? nodes with _ | shorter
    · rfl
    · rfl
  · obtain rfl := findRedex_nodes hredex
    simp only [redexStep, groupStep]
    rcases closing (depthAfter 0 opener) rest with _ | ⟨inner, after⟩
    · rfl
    · simp only [mapError_bind, bind_assoc]
      rfl
  · obtain rfl := findRedex_nodes hredex
    simp only [redexStep, operatorStep]
    rcases operands? before after with _ | ⟨left, right⟩
    · rfl
    · simp only [mapError_bind, bind_assoc]
      rfl

end Steps

theorem Depends.congr {nodes : List Node}
    {f : (List Node → Except Stop Node) → Except Stop (List Node)} (h : Depends nodes f)
    {recur recur' : List Node → Except Stop Node}
    (heq : ∀ inner, inner.length < nodes.length → recur inner = recur' inner) :
    f recur = f recur' := by
  cases h with
  | done => rfl
  | asks hinner => exact congrArg (· >>= _) (heq _ hinner)

theorem Depends.length_lt {nodes : List Node}
    {f : (List Node → Except Stop Node) → Except Stop (List Node)} (h : Depends nodes f)
    {recur : List Node → Except Stop Node} {shorter : List Node} (hok : f recur = .ok shorter) :
    shorter.length < nodes.length := by
  cases h with
  | done h =>
    cases hok
    exact h.length_lt
  | asks hinner h =>
    obtain ⟨n, -, hnext⟩ := bind_eq_ok_iff.mp hok
    exact (hnext ▸ h n).length_lt

/-- **Passes come to an end.** Allowed more passes than a list has nodes, the loop reduces the
list. -/
theorem loop_eq_reduced (store : Store) {rounds : Nat} {nodes : List Node}
    (h : nodes.length < rounds) : loop store rounds nodes = reduced store nodes := by
  induction rounds generalizing nodes with
  | zero => cases h
  | succ rounds ih =>
    rw [loop]
    by_cases hlength : nodes.length ≤ 1
    · rw [if_pos hlength, reduced, reduce_eq, if_pos hlength]
    have hdepends := depends_step store nodes
    have hinner : step store (loop store rounds) nodes = step store (reduced store) nodes :=
      hdepends.congr fun inner hlt ↦ ih (by omega)
    rw [if_neg hlength, pass_eq_step _ _ (Nat.lt_of_not_le hlength), hinner,
      reduced_eq_step store (Nat.lt_of_not_le hlength)]
    cases hstep : step store (reduced store) nodes with
    | error stop => rfl
    | ok shorter =>
      have hlt := hdepends.length_lt hstep
      exact ih (by omega)

end Abacus.Evaluation.InPlace
