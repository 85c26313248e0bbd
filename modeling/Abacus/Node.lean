import Abacus.Radix

/-!
# Operators and nodes

What a line is made of once it has been read.
-/

namespace Abacus

/-!
## Operators

The thirteen binary operators of a line and what they compute on binary64 numbers. The four
operators `& | ^ ~` compute the difference of their operands. A shift takes the whole parts of its
operands as signed 64-bit numbers and refuses any other operand.
-/

/-- A binary operator. -/
inductive Operator where
  | add
  | sub
  | mul
  | pow
  | div
  | floorDiv
  | and
  | or
  | xor
  | inv
  | mod
  | shiftLeft
  | shiftRight
  deriving DecidableEq, Repr

namespace Operator

/-- Every operator, in the order of the operator names. -/
def all : List Operator :=
  [.add, .sub, .mul, .pow, .div, .floorDiv, .and, .or, .xor, .inv, .mod, .shiftLeft, .shiftRight]

/-- The spelling of an operator. -/
def symbol : Operator → Bytes
  | add => utf8 "+"
  | sub => utf8 "-"
  | mul => utf8 "*"
  | pow => utf8 "**"
  | div => utf8 "/"
  | floorDiv => utf8 "//"
  | and => utf8 "&"
  | or => utf8 "|"
  | xor => utf8 "^"
  | inv => utf8 "~"
  | mod => utf8 "%"
  | shiftLeft => utf8 "<<"
  | shiftRight => utf8 ">>"

/-- The name of an operator in a trace. -/
def name : Operator → Bytes
  | add => utf8 "Add"
  | sub => utf8 "Sub"
  | mul => utf8 "Mult"
  | pow => utf8 "Exp"
  | div => utf8 "Div"
  | floorDiv => utf8 "Fdiv"
  | and => utf8 "And"
  | or => utf8 "Or"
  | xor => utf8 "Xor"
  | inv => utf8 "Inv"
  | mod => utf8 "Mod"
  | shiftLeft => utf8 "LShift"
  | shiftRight => utf8 "RShift"

/-- The operator with a given spelling. -/
def ofSymbol? (s : Bytes) : Option Operator := all.find? (·.symbol = s)

/-! ### Binding strength -/

/-- How strongly an operator binds. Operators of one level are applied from left to right. -/
inductive Level where
  | additive
  | multiplicative
  | power
  deriving DecidableEq, Repr

/-- The level of an operator. -/
def level : Operator → Level
  | add | sub => .additive
  | pow => .power
  | _ => .multiplicative

/-! ### Values -/

/-- Why an operator has no value at its operands. -/
inductive Failure where
  /-- A shift operand is not a signed 64-bit number. -/
  | shiftOperand (operand : Binary64)
  /-- A shift goes by a negative count. -/
  | negativeCount (count : Int)
  /-- The value is not a number. -/
  | undefined (left right : Binary64)
  deriving DecidableEq

/-- The quotient rounded to a binary64 number and then down to a whole one. -/
def floorQuotient (x y : Binary64) : Binary64 := (x.div y).floor

/-- The remainder that has the sign of the divisor. -/
def floorRemainder (x y : Binary64) : Binary64 :=
  let r := x.remainder y
  if !r.isZero && r.isNegative != y.isNegative then r.add y else r

/-- A whole number reduced modulo `2 ^ 64` to a signed 64-bit number. -/
def wrap (n : Int) : Int := (n + Nat.pow 2 63) % Nat.pow 2 64 - Nat.pow 2 63

/-- A shift to the left: the bits above the lowest 64 are lost. -/
def shiftedLeft (n : Int) (count : Nat) : Int :=
  if 64 ≤ count then 0 else wrap (n * Nat.pow 2 count)

/-- A shift to the right that keeps the sign. -/
def shiftedRight (n : Int) (count : Nat) : Int :=
  if 64 ≤ count then (if n < 0 then -1 else 0) else n / Nat.pow 2 count

/-- A shift of the whole parts of two numbers; the left operand is looked at first. -/
def shift (move : Int → Nat → Int) (x y : Binary64) : Except Failure Binary64 :=
  match Radix.integer? x, Radix.integer? y with
  | none, _ => .error (.shiftOperand x)
  | _, none => .error (.shiftOperand y)
  | some n, some count =>
    if count < 0 then .error (.negativeCount count) else .ok (.ofInt (move n count.toNat))

/-- What an operator computes, a NaN among the results. -/
def compute : Operator → Binary64 → Binary64 → Except Failure Binary64
  | add, x, y => .ok (x.add y)
  | sub, x, y => .ok (x.sub y)
  | mul, x, y => .ok (x.mul y)
  | pow, x, y => .ok (x.pow y)
  | div, x, y => .ok (x.div y)
  | floorDiv, x, y => .ok (floorQuotient x y)
  | mod, x, y => .ok (floorRemainder x y)
  | shiftLeft, x, y => shift shiftedLeft x y
  | shiftRight, x, y => shift shiftedRight x y
  | and, x, y => .ok (x.sub y)
  | or, x, y => .ok (x.sub y)
  | xor, x, y => .ok (x.sub y)
  | inv, x, y => .ok (x.sub y)

/-- The value of an operator: what it computes, unless that is not a number. -/
def apply (op : Operator) (x y : Binary64) : Except Failure Binary64 :=
  match op.compute x y with
  | .ok z => if z.isNaN then .error (.undefined x y) else .ok z
  | .error e => .error e

end Operator

/-!
## Nodes

A line is read into a flat list of nodes, which evaluation then shortens to a single value. What a
node is (`Node.Shape`) and where it was found are kept apart, because positions only serve to
report errors. The last node of a line that was read says whether reading reached the end.
-/

namespace Node

/-- What a node is. -/
inductive Shape where
  | assign (target : Bytes)
  | lparen
  | rparen
  | number (numeral : Numeral)
  | var (name : Bytes)
  | operator (op : Operator)
  | abs
  | setOutput (radix : Radix)
  | save (profile : Bytes)
  | load (profile : Bytes)
  | clear
  | endOfLine
  | stopped
  deriving DecidableEq, Repr

/-- A shape without what it carries, save for operators. -/
inductive Kind where
  | assign
  | lparen
  | rparen
  | number
  | var
  | operator (op : Operator)
  | abs
  | setOutput
  | save
  | load
  | clear
  | endOfLine
  | stopped
  deriving DecidableEq, Repr

namespace Kind

/-- The name of a kind. -/
def name : Kind → Bytes
  | assign => utf8 "Assign"
  | lparen => utf8 "LParen"
  | rparen => utf8 "RParen"
  | number => utf8 "Number"
  | var => utf8 "Variable"
  | operator op => op.name
  | abs => utf8 "Abs"
  | setOutput => utf8 "SetOutput"
  | save => utf8 "Save"
  | load => utf8 "Load"
  | clear => utf8 "Clear"
  | endOfLine => utf8 "End"
  | stopped => utf8 "ParsingStopped"

/-- A number or a variable. -/
def isValue : Kind → Bool
  | number | var => true
  | _ => false

/-- A binary operator. -/
def isOperator : Kind → Bool
  | operator _ => true
  | _ => false

/-- A node other than an operator behind which a value may stand. -/
def opensOperand : Kind → Bool
  | lparen | setOutput | assign => true
  | _ => false

/-- A function, behind which a parenthesis may stand. -/
def isFunction : Kind → Bool
  | abs | setOutput => true
  | _ => false

/-- The text of a bare mark; a kind that is no mark gives its name. -/
def mark : Kind → Bytes
  | lparen => utf8 "("
  | rparen => utf8 ")"
  | abs => utf8 "abs"
  | clear => utf8 "clear()"
  | endOfLine => utf8 "<end>"
  | stopped => utf8 "<parsing stopped>"
  | kind => kind.name

end Kind

namespace Shape

/-- The kind of a shape. -/
def kind : Shape → Kind
  | assign _ => .assign
  | lparen => .lparen
  | rparen => .rparen
  | number _ => .number
  | var _ => .var
  | operator op => .operator op
  | abs => .abs
  | setOutput _ => .setOutput
  | save _ => .save
  | load _ => .load
  | clear => .clear
  | endOfLine => .endOfLine
  | stopped => .stopped

/-- The canonical text of a shape. -/
def describe : Shape → Bytes
  | assign target => target ++ utf8 " ="
  | number numeral => numeral.text
  | var name => name
  | operator op => op.symbol
  | setOutput radix => radix.name
  | save profile => utf8 "save(" ++ profile ++ utf8 ")"
  | load profile => utf8 "load(" ++ profile ++ utf8 ")"
  | lparen => Kind.lparen.mark
  | rparen => Kind.rparen.mark
  | abs => Kind.abs.mark
  | clear => Kind.clear.mark
  | endOfLine => Kind.endOfLine.mark
  | stopped => Kind.stopped.mark

end Shape

end Node

/-- A node of a line. -/
structure Node where
  /-- What it is. -/
  shape : Node.Shape
  /-- The offset in the line that it was taken from. -/
  position : Nat
  deriving DecidableEq, Repr

namespace Node

/-- The kind of a node. -/
def kind (n : Node) : Kind := n.shape.kind

/-- The canonical text of a node. -/
def describe (n : Node) : Bytes := n.shape.describe

/-- The node of a value. -/
def ofValue (v : Value) : Node := ⟨.number v.numeral, v.position⟩

/-- A node that a complete expression can end with: a value or a closing parenthesis. -/
def endsOperand (n : Node) : Bool := n.kind.isValue || n.kind == .rparen

/-- A node behind which a value may stand: an operator or a node that opens an operand. -/
def awaitsOperand (n : Node) : Bool := n.kind.isOperator || n.kind.opensOperand

end Node

/-- The canonical texts of some nodes in brackets, with a space between neighbours. -/
def describeNodes (nodes : List Node) : Bytes :=
  utf8 "[" ++ Bytes.joinWith (utf8 " ") (nodes.map Node.describe) ++ utf8 "]"

end Abacus
