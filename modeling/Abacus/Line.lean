import Abacus.Fault
import Abacus.Token

/-!
# Reading a line

A line is read token by token into nodes. Whether a token may stand where it does depends on the
node to its left, on the number of open parentheses and, for a minus sign where an operand is due,
on the next token: a minus sign and a number behind it are one negative number. The commands
`clear()`, `save(name)` and `load(name)` take the whole line.

Reading never fails as a whole: a line with an error yields the nodes before the error, with a node
at the end that says so.
-/

namespace Abacus

namespace Line

/-! ## Tokens that matter -/

/-- How the tokens of a line end. -/
inductive Ending where
  /-- At the end of the line. -/
  | endOfLine (position : Nat)
  /-- At a stray character. -/
  | stray (character : Bytes) (position : Nat)
  /-- No token says how. -/
  | cutShort (position : Nat)
  deriving DecidableEq, Repr

/-- The offset at which the tokens end. -/
def Ending.position : Ending → Nat
  | .endOfLine position => position
  | .stray _ position => position
  | .cutShort position => position

/-- The tokens of a line other than blanks, and how they end. -/
structure Lexemes where
  /-- The tokens. -/
  tokens : List Token
  /-- What stopped the scan. -/
  ending : Ending
  deriving DecidableEq, Repr

/-- The lexemes of the scanned tokens of a line of some length, where the first token that ends a
line is the last one used. -/
def Lexemes.ofTokens (length : Nat) : List Token → Lexemes
  | [] => ⟨[], .cutShort length⟩
  | t :: rest =>
    match t.kind with
    | .endOfLine => ⟨[], .endOfLine t.position⟩
    | .stray => ⟨[], .stray t.lexeme t.position⟩
    | .space => ofTokens length rest
    | _ => { ofTokens length rest with tokens := t :: (ofTokens length rest).tokens }

/-- The lexemes of a line. -/
def lexemes (line : Bytes) : Lexemes := .ofTokens line.length (Token.scan line)

/-! ## Progress -/

/-- What has been read of a line. -/
structure Progress where
  /-- The nodes read so far, the last one first. -/
  recent : List Node
  /-- The number of open parentheses. -/
  depth : Nat
  /-- The offset behind the last token consumed. -/
  consumed : Nat
  deriving DecidableEq, Repr

namespace Progress

/-- Nothing has been read. -/
def start : Progress := ⟨[], 0, 0⟩

/-- The node to the left of the next token. -/
def left? (p : Progress) : Option Node := p.recent.head?

/-- One more node. -/
def push (p : Progress) (shape : Node.Shape) (position : Nat) : Progress :=
  { p with recent := ⟨shape, position⟩ :: p.recent }

/-- A token has been consumed. -/
def consume (p : Progress) (t : Token) : Progress := { p with consumed := t.finish }

/-- The nodes read so far, in the order of the line. -/
def nodes (p : Progress) : List Node := p.recent.reverse

/-- An operand may stand next: at the start of the line or behind a node that awaits one. -/
def operandDue (p : Progress) : Bool := p.left?.all Node.awaitsOperand

end Progress

/-! ## Single tokens -/

/-- `=` turns the variable that begins the line into the target of an assignment. -/
def readEquals (p : Progress) (t : Token) : Except Error Progress :=
  match p.recent with
  | [⟨.var name, position⟩] => .ok { p with recent := [⟨.assign name, position⟩] }
  | _ => .error (.unexpected t .assignmentStart)

/-- A variable stands where an operand is due. -/
def readVariable (p : Progress) (t : Token) : Except Error Progress :=
  match p.left? with
  | some left =>
    if left.awaitsOperand then .ok (p.push (.var t.lexeme) t.position)
    else .error (.unexpected t (.notAfter left))
  | none => .ok (p.push (.var t.lexeme) t.position)

/-- A number stands where an operand is due. -/
def readNumber (p : Progress) (t : Token) : Except Error Progress :=
  if p.operandDue then .ok (p.push (.number (.ofText t.lexeme)) t.position)
  else .error (.unexpected t .numberPlace)

/-- `abs` stands where an operand is due. -/
def readAbs (p : Progress) (t : Token) : Except Error Progress :=
  if p.operandDue then .ok (p.push .abs t.position) else .error (.unexpected t .absPlace)

/-- The radix of the result stands at the start of the line. -/
def readOutput (radix : Radix) (p : Progress) (t : Token) : Except Error Progress :=
  if p.recent.isEmpty then .ok (p.push (.setOutput radix) t.position)
  else .error (.unexpected t .outputStart)

/-- `(` stands where an operand is due or behind a function. -/
def readLparen (p : Progress) (t : Token) : Except Error Progress :=
  if p.left?.all fun left ↦ left.awaitsOperand || left.kind.isFunction then
    .ok { p.push .lparen t.position with depth := p.depth + 1 }
  else .error (.unexpected t .lparenPlace)

/-- `)` closes an open parenthesis behind a complete operand. -/
def readRparen (p : Progress) (t : Token) : Except Error Progress :=
  if p.depth = 0 then .error (.unexpected t .openParen)
  else if p.left?.any Node.endsOperand then
    .ok { p.push .rparen t.position with depth := p.depth - 1 }
  else .error (.unexpected t .rparenPlace)

/-- A binary operator stands behind a complete operand. -/
def readOperator (op : Operator) (p : Progress) (t : Token) : Except Error Progress :=
  match p.left? with
  | some left =>
    if left.endsOperand then .ok (p.push (.operator op) t.position)
    else .error (.unexpected t .operatorPlace)
  | none => .error (.unexpected t .unstated)

/-- A token that reads as one node of its own, whatever follows it. -/
def readToken (p : Progress) (t : Token) : Except Error Progress :=
  match t.kind with
  | .equals => readEquals p t
  | .var => readVariable p t
  | .number => readNumber p t
  | .abs => readAbs p t
  | .output radix => readOutput radix p t
  | .lparen => readLparen p t
  | .rparen => readRparen p t
  | .operator op => readOperator op p t
  | _ => .error (.unexpected t .unstated)

/-- A minus sign where an operand is due, with a number behind it. -/
def pushNegative (p : Progress) (minus number : Token) : Progress :=
  (p.consume number).push (.number (.negated number.lexeme)) minus.position

/-- Whether a minus sign is looked at as the sign of a number: it does not follow an operand. -/
def looksAhead (p : Progress) (t : Token) : Bool :=
  t.kind == .operator .sub && !p.left?.any Node.endsOperand

/-! ## Commands -/

/-- A command that takes the whole line. -/
inductive Verb where
  | clear
  | save
  | load
  deriving DecidableEq, Repr

/-- The verb of a token kind. -/
def Verb.ofKind? : Token.Kind → Option Verb
  | .clear => some .clear
  | .save => some .save
  | .load => some .load
  | _ => none

/-- The form of the line that a verb asks for. -/
def Verb.form (verb : Verb) (t : Token) : Bytes :=
  t.lexeme ++ match verb with
    | .clear => utf8 "()"
    | _ => utf8 "(name)"

/-- The node of a verb that names a profile. -/
def Verb.ofProfile? : Verb → Bytes → Option Node.Shape
  | .clear, _ => none
  | .save, name => some (.save name)
  | .load, name => some (.load name)

/-- The node of a verb, if the tokens behind it have the right form: `( )` behind `clear`, and a
word in parentheses behind the others. -/
def Verb.shape? (verb : Verb) : List Token → Option Node.Shape
  | [a, b] =>
    if verb = .clear ∧ a.kind = .lparen ∧ b.kind = .rparen then some .clear else none
  | [a, name, b] =>
    if a.kind = .lparen ∧ name.kind = .word ∧ b.kind = .rparen then verb.ofProfile? name.lexeme
    else none
  | _ => none

/-! ## Whole lines -/

/-- How reading a line went: what was read and, if it stopped early, why. -/
structure Outcome where
  /-- What has been read. -/
  progress : Progress
  /-- Why reading stopped before the end. -/
  error : Option Error
  deriving DecidableEq, Repr

/-- The error of looking for one more token at the end of the line. -/
def aheadError? (p : Progress) : Ending → Option Error
  | .stray character position => some (.stray character position)
  | .cutShort position => some (.cutShort position)
  | .endOfLine position => if p.depth ≠ 0 then some (.unclosed position) else none

/-- The error of a line that ends before it is complete. -/
def endError? (p : Progress) (ending : Ending) : Option Error :=
  match aheadError? p ending, p.left? with
  | some e, _ => some e
  | none, none => none
  | none, some left => if left.endsOperand then none else some (.incomplete left ending.position)

/-- The end of a line, which is marked when the line is complete. -/
def readEnd (p : Progress) (ending : Ending) : Outcome :=
  match endError? p ending with
  | some e => ⟨p, some e⟩
  | none => ⟨p.push .endOfLine ending.position, none⟩

/-- A line that begins with a verb: the rest is consumed first, then its form is looked at. -/
def readVerb (verb : Verb) (p : Progress) (t : Token) (rest : List Token) (ending : Ending) :
    Outcome :=
  let drained := rest.foldl Progress.consume p
  match ending with
  | .stray character position => ⟨drained, some (.stray character position)⟩
  | .cutShort position => ⟨drained, some (.cutShort position)⟩
  | .endOfLine position =>
    match verb.shape? rest with
    | some shape => ⟨(drained.push shape t.position).push .endOfLine position, none⟩
    | none => ⟨drained, some (.unexpected t (.wholeLine (verb.form t)))⟩

/-- The rest of a line, from its tokens on. -/
def readTokens (ending : Ending) : List Token → Progress → Outcome
  | [], p => readEnd p ending
  | t :: rest, before =>
    let p := before.consume t
    match Verb.ofKind? t.kind with
    | some verb =>
      if p.recent.isEmpty then readVerb verb p t rest ending
      else ⟨p, some (.unexpected t (.wholeLine (verb.form t)))⟩
    | none =>
      if looksAhead p t then
        match rest with
        | next :: rest' =>
          if next.kind = .number ∧ p.operandDue then
            readTokens ending rest' (pushNegative p t next)
          else ⟨p, some (.unexpected t (if p.recent.isEmpty then .unstated else .operatorPlace))⟩
        | [] =>
          ⟨p, some ((aheadError? p ending).getD
            (.unexpected t (if p.recent.isEmpty then .unstated else .operatorPlace)))⟩
      else
        match readToken p t with
        | .ok p' => readTokens ending rest p'
        | .error e => ⟨p, some e⟩

end Line

/-- A line that was read: its nodes, the last of which says whether reading reached the end, and
the error that stopped it otherwise. -/
structure ReadLine where
  /-- The nodes. -/
  nodes : List Node
  /-- Why reading stopped before the end. -/
  error : Option Line.Error
  deriving DecidableEq, Repr

namespace Line

/-- The error of an outcome, where one without an error has to have the mark of the end. -/
def Outcome.error? (o : Outcome) : Option Error :=
  match o.error with
  | some e => some e
  | none =>
    if o.progress.left?.any (·.shape == .endOfLine) then none
    else some (.unmarked o.progress.consumed)

/-- The nodes of an outcome, behind which a mark says if reading was stopped by an error. -/
def Outcome.nodes (o : Outcome) : List Node :=
  match o.error? with
  | none => o.progress.nodes
  | some _ => o.progress.nodes ++ [⟨.stopped, o.progress.consumed⟩]

/-- What reading a line comes to. -/
def outcome (line : Bytes) : Outcome :=
  readTokens (lexemes line).ending (lexemes line).tokens .start

/-- Reads a line. -/
def read (line : Bytes) : ReadLine := ⟨(outcome line).nodes, (outcome line).error?⟩

end Line

end Abacus
