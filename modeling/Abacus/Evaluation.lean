import Abacus.Fault
import Abacus.NameMap

/-!
# Evaluation

From the nodes of a line to its value, given the variables.
-/

namespace Abacus

/-!
## Reducing a list of nodes

A list of nodes is shortened until one node is left. The leftmost group or power is worked on
first, then the leftmost operator of the multiplicative level, then the leftmost of the additive
level; when none is left, a mark that ends the line is dropped. A power waits for a group behind
it, or behind an `abs` behind it. A group becomes one number in place of its parentheses, and an
`abs` in front of it takes part.

Every pass shortens the list or fails, whatever the list, and a group is reduced by itself as a
shorter list, so the reduction always ends.
-/

/-- The variables and their values. -/
abbrev Store := NameMap Value

namespace Evaluation

/-! ### Values -/

/-- The value that a node stands for. -/
def readValue (store : Store) (n : Node) : Except Error Value :=
  match n.shape with
  | .number numeral => .ok ⟨numeral, n.position⟩
  | .var name =>
    match store.find? name with
    | some value => .ok value
    | none => .error (.unknownVariable name n.position)
  | _ => .error (.notAValue n)

/-- The number of a value. -/
def readNumber (value : Value) : Except Error Binary64 :=
  match value.numeral.number? with
  | some x => .ok x
  | none => .error (.malformed value)

/-- The number that a node stands for. -/
def readOperand (store : Store) (n : Node) : Except Error Binary64 := do
  readNumber (← readValue store n)

/-! ### Where to work -/

/-- A list cut at its first node with a property: what is before it, the node, what is behind. -/
def cutAt (p : Node → Bool) : List Node → Option (List Node × Node × List Node)
  | [] => none
  | n :: rest =>
    if p n then some ([], n, rest)
    else (cutAt p rest).map fun (before, m, after) ↦ (n :: before, m, after)

theorem append_of_cutAt {p : Node → Bool} {nodes before after : List Node} {n : Node}
    (h : cutAt p nodes = some (before, n, after)) : nodes = before ++ n :: after ∧ p n = true := by
  induction nodes generalizing before with
  | nil => simp [cutAt] at h
  | cons m rest ih =>
    simp only [cutAt] at h
    split at h
    · next hm =>
      cases h
      exact ⟨rfl, hm⟩
    · obtain ⟨⟨b, k, a⟩, hcut, heq⟩ := Option.map_eq_some_iff.mp h
      cases heq
      exact ⟨by rw [(ih hcut).1]; rfl, (ih hcut).2⟩

/-- A part of a list that one pass works on. -/
inductive Redex where
  /-- A group: what is before it, the node it opens with, what is behind that. -/
  | group (before : List Node) (opener : Node) (rest : List Node)
  /-- An operator: what is before it, the operator and its offset, what is behind. -/
  | operator (before : List Node) (op : Operator) (position : Nat) (after : List Node)
  deriving DecidableEq

/-- The list that a part was found in. -/
def Redex.nodes : Redex → List Node
  | .group before opener rest => before ++ opener :: rest
  | .operator before op position after => before ++ ⟨.operator op, position⟩ :: after

/-- An opening parenthesis. -/
def isLparen (n : Node) : Bool := n.shape == .lparen

/-- The function `abs`. -/
def isAbs (n : Node) : Bool := n.shape == .abs

/-- A group or a power. -/
def isFirst (n : Node) : Bool := isLparen n || n.shape == .operator .pow

/-- An operator of a level. -/
def isAtLevel (level : Operator.Level) (n : Node) : Bool :=
  match n.shape with
  | .operator op => op.level == level
  | _ => false

/-- What a power waits for: a group right behind it, or behind an `abs` right behind it. -/
def groupBehind? (before : List Node) (power : Node) : List Node → Option Redex
  | [] => none
  | [n] => if isLparen n then some (.group (before ++ [power]) n []) else none
  | n :: m :: rest =>
    if isLparen n then some (.group (before ++ [power]) n (m :: rest))
    else if isAbs n then some (.group (before ++ [power, n]) m rest)
    else none

/-- The part that a cut at a group or an operator leads to. -/
def redexAt (before : List Node) (n : Node) (after : List Node) : Redex :=
  match n.shape with
  | .operator .pow => (groupBehind? before n after).getD (.operator before .pow n.position after)
  | .operator op => .operator before op n.position after
  | _ => .group before n after

/-- The part that the next pass works on. -/
def findRedex (nodes : List Node) : Option Redex :=
  ((cutAt isFirst nodes <|> cutAt (isAtLevel .multiplicative) nodes
    <|> cutAt (isAtLevel .additive) nodes)).map fun (before, n, after) ↦ redexAt before n after

theorem groupBehind?_nodes {before after : List Node} {power : Node} {r : Redex}
    (h : groupBehind? before power after = some r) : r.nodes = before ++ power :: after := by
  unfold groupBehind? at h
  split at h
  · cases h
  · split at h
    · cases h
      simp [Redex.nodes]
    · cases h
  · split at h
    · cases h
      simp [Redex.nodes]
    · split at h
      · cases h
        simp [Redex.nodes]
      · cases h

theorem redexAt_nodes (before : List Node) (n : Node) (after : List Node) :
    (redexAt before n after).nodes = before ++ n :: after := by
  obtain ⟨shape, position⟩ := n
  unfold redexAt
  split
  · next hshape =>
    cases hshape
    cases h : groupBehind? before ⟨.operator .pow, position⟩ after with
    | some r => exact groupBehind?_nodes h
    | none => rfl
  · next hshape =>
    cases hshape
    rfl
  · rfl

theorem findRedex_nodes {nodes : List Node} {r : Redex} (h : findRedex nodes = some r) :
    r.nodes = nodes := by
  obtain ⟨⟨before, n, after⟩, hcut, rfl⟩ := Option.map_eq_some_iff.mp h
  rw [redexAt_nodes]
  simp only [Option.orElse_eq_orElse, Option.orElse_eq_or, Option.or_eq_some_iff] at hcut
  rcases hcut with h | ⟨-, h | ⟨-, h⟩⟩
  · exact (append_of_cutAt h).1.symm
  · exact (append_of_cutAt h).1.symm
  · exact (append_of_cutAt h).1.symm

/-! ### Groups -/

/-- The nesting depth behind a node. -/
def depthAfter (depth : Int) (n : Node) : Int :=
  match n.shape with
  | .lparen => depth + 1
  | .rparen => depth - 1
  | _ => depth

/-- What is inside a group and what is behind it, from the depth behind its opening node on: the
group ends at the first closing parenthesis that brings the depth to zero. -/
def closing : Int → List Node → Option (List Node × List Node)
  | _, [] => none
  | depth, n :: rest =>
    if n.shape = .rparen ∧ depthAfter depth n = 0 then some ([], rest)
    else (closing (depthAfter depth n) rest).map fun (inner, after) ↦ (n :: inner, after)

theorem length_of_closing {depth : Int} {nodes inner after : List Node}
    (h : closing depth nodes = some (inner, after)) :
    nodes.length = inner.length + 1 + after.length := by
  induction nodes generalizing depth inner with
  | nil => simp [closing] at h
  | cons n rest ih =>
    simp only [closing] at h
    split at h
    · cases h
      simp only [List.length_cons, List.length_nil]
      omega
    · obtain ⟨⟨i, a⟩, hrest, heq⟩ := Option.map_eq_some_iff.mp h
      cases heq
      simp only [List.length_cons, ih hrest]
      omega

/-- The nodes before a group without an `abs` that takes part in it. -/
def withoutAbs (before : List Node) : List Node :=
  if before.getLast?.any isAbs then before.dropLast else before

/-- The node that a group turns into. -/
def groupNode (before : List Node) (opener : Node) (value : Value) : Except Error Node :=
  match before.getLast?.filter isAbs with
  | some function => do
    return ⟨.number (.ofNumber (← readNumber value).abs), function.position⟩
  | none => .ok ⟨.number (.ofText value.numeral.text), opener.position⟩

/-! ### Operators -/

/-- The values on the two sides of an operator. -/
def operands? (before after : List Node) : Option (Node × Node) := do
  let left ← before.getLast?
  let right ← after.head?
  if left.kind.isValue && right.kind.isValue then some (left, right) else none

/-- The node that an operator and its operands turn into. -/
def operatorNode (store : Store) (op : Operator) (position : Nat) (left right : Node) :
    Except Error Node := do
  let x ← readOperand store left
  let y ← readOperand store right
  match op.apply x y with
  | .ok z => .ok ⟨.number (.ofNumber z), left.position⟩
  | .error failure => .error (.operation op position failure)

/-! ### The reduction -/

/-- A list without the mark that ends the line, when that is its second node. -/
def dropEnd? : List Node → Option (List Node)
  | first :: second :: rest => if second.shape = .endOfLine then some (first :: rest) else none
  | _ => none

theorem length_of_dropEnd? {nodes shorter : List Node} (h : dropEnd? nodes = some shorter) :
    shorter.length < nodes.length := by
  unfold dropEnd? at h
  split at h
  · split at h
    · cases h
      simp
    · cases h
  · cases h

theorem length_withoutAbs_le (before : List Node) :
    (withoutAbs before).length ≤ before.length := by
  unfold withoutAbs
  split
  · simp
  · exact Nat.le_refl _

/-- The only node of a list that is short enough. -/
def alone (nodes : List Node) : Except Error Node :=
  match nodes.head? with
  | some n => .ok n
  | none => .error .empty

/-- Reduces a list of nodes to one node. -/
def reduce (store : Store) (nodes : List Node) : Except Error Node :=
  if nodes.length ≤ 1 then alone nodes
  else match _hr : findRedex nodes with
  | some (.group before opener rest) =>
    match _hc : closing (depthAfter 0 opener) rest with
    | none => .error (.unmatched nodes)
    | some (inner, after) => do
      let value ← readValue store (← reduce store inner)
      let node ← groupNode before opener value
      reduce store (withoutAbs before ++ node :: after)
  | some (.operator before op position after) =>
    match operands? before after with
    | none => .error (.missingOperand nodes)
    | some (left, right) => do
      let node ← operatorNode store op position left right
      reduce store (before.dropLast ++ node :: after.tail)
  | none =>
    match _he : dropEnd? nodes with
    | some shorter => reduce store shorter
    | none => .error (.irreducible nodes)
termination_by nodes.length
decreasing_by
  · have hn := congrArg List.length (findRedex_nodes _hr)
    have hl := length_of_closing _hc
    simp only [Redex.nodes, List.length_append, List.length_cons] at hn
    omega
  · have hn := congrArg List.length (findRedex_nodes _hr)
    have hl := length_of_closing _hc
    have hw := length_withoutAbs_le before
    simp only [Redex.nodes, List.length_append, List.length_cons] at hn ⊢
    omega
  · have hn := congrArg List.length (findRedex_nodes _hr)
    simp only [Redex.nodes, List.length_append, List.length_cons, List.length_dropLast,
      List.length_tail] at hn ⊢
    omega
  · exact length_of_dropEnd? _he

/-!
## Answers

What a list of nodes is answered with, given the variables. Evaluation reads the variables and
changes nothing: whatever a line changes is changed by the session that it is evaluated in.
-/

/-- The numeral that an expression evaluates to. A number that stands alone is kept as it is
written, but has to be one of its radix. -/
def evaluate (store : Store) (nodes : List Node) : Except Error (Numeral × Binary64) := do
  let value ← readValue store (← reduce store nodes)
  return (value.numeral, ← readNumber value)

/-- The answer of an expression. -/
def answer (store : Store) (nodes : List Node) : Except Error Bytes := do
  let (numeral, _) ← evaluate store nodes
  return numeral.text

/-- The answer of an expression in a radix that a node at some offset asks for. -/
def answerIn (radix : Radix) (position : Nat) (store : Store) (nodes : List Node) :
    Except Error Bytes := do
  let (numeral, x) ← evaluate store nodes
  match radix.write? x with
  | some text => return text
  | none => throw (.unwritable numeral.text radix position)

/-- A list of nodes that asks for nothing: none at all, or only the end of the line. -/
def isBlank : List Node → Bool
  | [] => true
  | [n] => n.shape == .endOfLine
  | _ => false

/-- The offset of the mark that reading was stopped, if a list ends in it. -/
def stopped? (nodes : List Node) : Option Nat :=
  (nodes.getLast?.filter fun n ↦ n.shape == .stopped).map (·.position)

end Evaluation

end Abacus
