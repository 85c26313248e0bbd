import Abacus.Bytes
import Abacus.Node
import Abacus.Token

/-!
# Errors

What can be wrong with a line, and how it is reported.
-/

namespace Abacus

/-!
## Faults

What is reported when a line has no result: a kind, a message, the piece of text at fault and its
offset. The errors themselves are causes (`Line.Error`, `Evaluation.Error`); each has one fault.
A message ends at its first NUL byte, while the text at fault is kept whole.
-/

namespace Fault

/-- The kind of a fault. -/
inductive Kind where
  | lexical
  | grammatical
  | unexpectedEnd
  | unknownVariable
  | invalidNumber
  | internal
  deriving DecidableEq, Repr

/-- The name of a kind. -/
def Kind.name : Kind → Bytes
  | .lexical => utf8 "lexical"
  | .grammatical => utf8 "syntax"
  | .unexpectedEnd => utf8 "unexpected-end"
  | .unknownVariable => utf8 "unknown-variable"
  | .invalidNumber => utf8 "invalid-number"
  | .internal => utf8 "internal"

end Fault

/-- A report about a line that has no result. -/
structure Fault where
  /-- The kind of the fault. -/
  kind : Fault.Kind
  /-- The message, without the offset where that is not part of the wording. -/
  message : Bytes
  /-- The piece of text at fault. -/
  text : Bytes
  /-- The offset of the fault in the line. -/
  position : Nat
  deriving DecidableEq, Repr

/-- A fault whose message ends at its first NUL byte. -/
def Fault.report (kind : Fault.Kind) (message text : Bytes) (position : Nat) : Fault :=
  ⟨kind, Bytes.untilNul message, text, position⟩

/-!
## Errors of reading a line

A line is refused at a stray character, at a token that cannot follow what stands before it, or at
the end of the line when an operand or a parenthesis is still missing. The two remaining errors are
checks of the reader on its own work: no line has them.
-/

namespace Line

/-- What a token that cannot stand where it does would have needed. -/
inductive Requirement where
  /-- Nothing in particular is named. -/
  | unstated
  /-- `=` follows the variable that begins the line. -/
  | assignmentStart
  /-- A variable does not follow this node. -/
  | notAfter (left : Node)
  /-- The radix of the result is asked for at the start of the line. -/
  | outputStart
  /-- An operator follows a value or a closing parenthesis. -/
  | operatorPlace
  /-- A number follows an operator or a node that opens an operand. -/
  | numberPlace
  /-- A command is the whole line, in this form. -/
  | wholeLine (form : Bytes)
  /-- An opening parenthesis follows a function, an operator or a node that opens an operand. -/
  | lparenPlace
  /-- A closing parenthesis needs an opening one. -/
  | openParen
  /-- A closing parenthesis follows a value or another closing parenthesis. -/
  | rparenPlace
  /-- `abs` follows an operator or a node that opens an operand. -/
  | absPlace
  deriving DecidableEq, Repr

/-- The wording of a requirement. -/
def Requirement.message : Requirement → Bytes
  | .unstated => []
  | .assignmentStart => utf8
      "знак = может стоять только сразу после имени переменной в начале строки, например: $foo = 1"
  | .notAfter left => utf8 "после " ++ left.describe
  | .outputStart => utf8 "систему счисления вывода можно задать только в начале строки"
  | .operatorPlace => utf8
      "оператор должен следовать за числом, переменной или закрывающей скобкой"
  | .numberPlace => utf8 "число должно следовать за оператором, (, = или установкой вывода"
  | .wholeLine form => utf8 "строка должна состоять только из " ++ form
  | .lparenPlace => utf8
      "скобка должна следовать за abs, dec, hex, bin, oct, =, оператором или другой ("
  | .openParen => utf8 "нет открытых скобок"
  | .rparenPlace => utf8 "скобка должна следовать за числом, переменной или другой )"
  | .absPlace => utf8 "abs() может следовать за оператором, ( или ="

/-- Why a line cannot be read. -/
inductive Error where
  /-- No lexeme begins with this character. -/
  | stray (character : Bytes) (position : Nat)
  /-- The token cannot stand here. -/
  | unexpected (token : Token) (requirement : Requirement)
  /-- The line ends inside parentheses. -/
  | unclosed (position : Nat)
  /-- The line ends behind a node that something has to follow. -/
  | incomplete (last : Node) (position : Nat)
  /-- The tokens stop without a last one that says how the line ends. -/
  | cutShort (position : Nat)
  /-- Reading is over, but no mark of the end stands behind the nodes. -/
  | unmarked (position : Nat)
  deriving DecidableEq, Repr

/-- An offset as the messages give it. -/
private def atPosition (position : Nat) : Bytes :=
  utf8 " на позиции " ++ Digits.ofNat 10 position

/-- What is said of a token that cannot stand where it does. -/
def unexpectedMessage (token : Token) (requirement : Requirement) : Bytes :=
  utf8 "неожиданный токен " ++ token.text ++ atPosition token.position ++
    if requirement.message.isEmpty then [] else utf8 ": " ++ requirement.message

/-- The report of an error. -/
def Error.fault : Error → Fault
  | .stray character position =>
    .report .lexical (Token.strayText character ++ atPosition position) character position
  | .unexpected token requirement =>
    .report .grammatical (unexpectedMessage token requirement) token.text token.position
  | .unclosed position =>
    .report .unexpectedEnd (utf8 "неожиданный конец ввода: остались незакрытые скобки") [] position
  | .incomplete last position =>
    .report .unexpectedEnd (utf8 "неожиданный конец ввода") last.describe position
  | .cutShort position => .report .internal (utf8 "поток токенов оборвался без End") [] position
  | .unmarked position => .report .internal (utf8 "внутренняя ошибка разбора") [] position

end Line

/-!
## Errors of evaluating a line

A line that was read can still lack a value: it names an unknown variable, it holds a text that is
no number of its radix, an operator has no value at its operands, or the result cannot be written
in the radix asked for. The remaining errors are of lists of nodes that no line is read into.
-/

namespace Evaluation

/-- Why a list of nodes has no value. -/
inductive Error where
  /-- The store has no variable of this name. -/
  | unknownVariable (name : Bytes) (position : Nat)
  /-- The text is no number of its radix. -/
  | malformed (value : Value)
  /-- The operator at this offset has no value at its operands. -/
  | operation (op : Operator) (position : Nat) (failure : Operator.Failure)
  /-- The result of this text cannot be written in the radix. -/
  | unwritable (text : Bytes) (radix : Radix) (position : Nat)
  /-- Reading the line was stopped by an error. -/
  | stopped (position : Nat)
  /-- There is nothing to evaluate. -/
  | empty
  /-- No operator, group or end of the line is left to work on. -/
  | irreducible (nodes : List Node)
  /-- A parenthesis has no partner. -/
  | unmatched (nodes : List Node)
  /-- An operator stands without a value on one side. -/
  | missingOperand (nodes : List Node)
  /-- A node stands where a value is needed. -/
  | notAValue (node : Node)
  deriving DecidableEq

/-- The report of a list of nodes that no line is read into. -/
private def internal (what : Bytes) (nodes : List Node) : Fault :=
  .report .internal (what ++ utf8 ": " ++ describeNodes nodes) []
    ((nodes.head?.map (·.position)).getD 0)

/-- What is said of an operator without a value. -/
def failureMessage (op : Operator) : Operator.Failure → Bytes
  | .shiftOperand x =>
    utf8 "операнд сдвига " ++ Decimal.write x ++ utf8 " не помещается в 64-битное целое"
  | .negativeCount count => utf8 "отрицательная величина сдвига " ++ Digits.ofInt count
  | .undefined x y =>
    utf8 "результат " ++ Decimal.write x ++ utf8 " " ++ op.symbol ++ utf8 " " ++ Decimal.write y
      ++ utf8 " не определён"

/-- The report of an error. -/
def Error.fault : Error → Fault
  | .unknownVariable name position =>
    .report .unknownVariable (utf8 "неизвестная переменная " ++ name) name position
  | .malformed value =>
    .report .invalidNumber
      (utf8 "некорректное число " ++ value.numeral.text ++ utf8 " (" ++ value.numeral.radix.name
        ++ utf8 ")")
      value.numeral.text value.position
  | .operation op position failure =>
    .report .invalidNumber (failureMessage op failure) op.symbol position
  | .unwritable text radix position =>
    .report .invalidNumber
      (utf8 "значение " ++ text ++ utf8 " нельзя записать в системе " ++ radix.name) text position
  | .stopped position =>
    .report .internal (utf8 "строка разобрана с ошибкой и не может быть вычислена") [] position
  | .empty => internal (utf8 "пустое выражение") []
  | .irreducible nodes => internal (utf8 "не удалось свести выражение") nodes
  | .unmatched nodes => internal (utf8 "нет парной скобки") nodes
  | .missingOperand nodes => internal (utf8 "оператору не хватает операндов") nodes
  | .notAValue node =>
    .report .internal (utf8 "ожидалось значение, получено " ++ node.describe) node.describe
      node.position

end Evaluation

end Abacus
