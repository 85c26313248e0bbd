import Abacus.Profile
import Abacus.Proofs.Evaluation.Agreement
import Abacus.Proofs.Evaluation.Footprint
import Abacus.Proofs.Evaluation.Reduction
import Abacus.Proofs.Expression.Tree
import Abacus.Proofs.Line.Literals
import Abacus.Proofs.Session.Failure

/-!
# What lines are answered with

The statements that lines make, and the values that they are answered with.
-/

namespace Abacus

/-!
## Lines with an expression

A line that is no command has an expression, and may ask for the radix of its value or have a
variable set to it. What it answers depends on the variables alone, and what it does to the session
is to set its target, if it has one and is committed (`run_exec_statement`).
-/

/-- What a line with an expression asks for. -/
inductive Statement where
  | plain (e : Expr)
  | output (radix : Radix) (position : Nat) (e : Expr)
  | assign (target : Bytes) (position : Nat) (e : Expr)

namespace Statement

/-- The expression of a statement. -/
def expr : Statement → Expr
  | plain e => e
  | output _ _ e => e
  | assign _ _ e => e

/-- The nodes of a statement. -/
def nodes : Statement → List Node
  | plain e => e.nodes
  | output radix position e => ⟨.setOutput radix, position⟩ :: e.nodes
  | assign target position e => ⟨.assign target, position⟩ :: e.nodes

/-- The text of a number in a radix that is asked for at some offset; `text` is what it is written
as in the line. -/
def writeIn (radix : Radix) (position : Nat) (text : Bytes) (x : Binary64) :
    Except Evaluation.Error Bytes :=
  match radix.write? x with
  | some text => .ok text
  | none => .error (.unwritable text radix position)

/-- The answer of a statement by the passes over its tree. -/
def passAnswer (store : Store) : Statement → Except Evaluation.Error Bytes
  | output radix position e => do
    let value ← e.passValue store
    writeIn radix position value.numeral.text (← Evaluation.readNumber value)
  | plain e | assign _ _ e => do
    let value ← e.passValue store
    let _ ← Evaluation.readNumber value
    return value.numeral.text

/-- What a statement with some answer does to a session. -/
def effect {σ : Type} (statement : Statement) (commit : Bool) (text : Bytes) (s : Session σ) :
    Session σ :=
  match statement with
  | assign target position _ => if commit then s.assign target position text else s
  | _ => s

end Statement

/-! ### Sentences -/

theorem Line.Sentence.cases {ts : List Token} {ns : List Node} (h : Sentence ts ns) :
    ns = [] ∨ (∃ position, ns = [⟨.clear, position⟩])
      ∨ (∃ name position, ns = [⟨.save name, position⟩])
      ∨ (∃ name position, ns = [⟨.load name, position⟩])
      ∨ ∃ statement : Statement, statement.expr.Graded ∧ ns = statement.nodes := by
  cases h with
  | blank => exact .inl rfl
  | clear => exact .inr (.inl ⟨_, rfl⟩)
  | save => exact .inr (.inr (.inl ⟨_, _, rfl⟩))
  | load => exact .inr (.inr (.inr (.inl ⟨_, _, rfl⟩)))
  | plain h =>
    obtain ⟨e, rfl, he, -⟩ := h.exists_graded
    exact .inr (.inr (.inr (.inr ⟨.plain e, he, rfl⟩)))
  | output _ h =>
    obtain ⟨e, rfl, he, -⟩ := h.exists_graded
    exact .inr (.inr (.inr (.inr ⟨.output _ _ e, he, rfl⟩)))
  | assign _ _ h =>
    obtain ⟨e, rfl, he, -⟩ := h.exists_graded
    exact .inr (.inr (.inr (.inr ⟨.assign _ _ e, he, rfl⟩)))

/-! ### Evaluation of a statement -/

namespace Evaluation

/-- An expression evaluates to what the passes leave of its tree, if that is a number. -/
theorem evaluate_nodes {store : Store} {e : Expr} {tail : List Node} (hgraded : e.Graded)
    (htail : IsTail tail) :
    evaluate store (e.nodes ++ tail) = e.passValue store >>= fun value ↦
      readNumber value >>= fun x ↦ .ok (value.numeral, x) := by
  rw [← reduce_passValue hgraded htail, bind_assoc]
  rfl

theorem answer_nodes (store : Store) {e : Expr} {tail : List Node} (hgraded : e.Graded)
    (htail : IsTail tail) :
    answer store (e.nodes ++ tail) = (Statement.plain e).passAnswer store := by
  rw [answer, evaluate_nodes hgraded htail]
  simp only [bind_assoc]
  rfl

theorem answerIn_nodes {store : Store} {e : Expr} {tail : List Node} (hgraded : e.Graded)
    (htail : IsTail tail) (radix : Radix) (position : Nat) :
    answerIn radix position store (e.nodes ++ tail)
      = (Statement.output radix position e).passAnswer store := by
  rw [answerIn, evaluate_nodes hgraded htail]
  simp only [bind_assoc]
  rfl

end Evaluation

namespace Session

variable {σ : Type} [ProfileStorage σ]

theorem execFrom_of_startsOperand {first : Node} (h : first.startsOperand = true)
    (rest : List Node) (commit : Bool) :
    (execFrom first rest commit : Action σ Bytes)
      = consult (Evaluation.answer · (first :: rest)) := by
  obtain ⟨shape, position⟩ := first
  cases shape with
  | number | var | lparen | abs => rfl
  | _ => cases h

theorem exec_append_endOfLine {first : Node} {rest : List Node} (position : Nat) (commit : Bool) :
    (exec (first :: rest ++ [⟨.endOfLine, position⟩]) commit : Action σ Bytes)
      = execFrom first (rest ++ [⟨.endOfLine, position⟩]) commit := by
  have hblank : Evaluation.isBlank (first :: rest ++ [⟨.endOfLine, position⟩]) = false := by
    cases rest with
    | nil | cons => rfl
  -- the last node says that the line was read to its end
  have hstopped : Evaluation.stopped? (first :: rest ++ [⟨.endOfLine, position⟩]) = none := by
    rw [Evaluation.stopped?, List.getLast?_concat]
    rfl
  rcases exec_cases (σ := σ) (first :: rest ++ [⟨.endOfLine, position⟩]) commit with
    ⟨h, -⟩ | ⟨_, h, -⟩ | ⟨_, _, heq, -, -, h⟩
  · rw [hblank] at h
    cases h
  · rw [hstopped] at h
    cases h
  · cases heq
    exact h

/-- A statement answers what the passes over its tree leave, and has its effect if they do. -/
theorem run_exec_statement {statement : Statement} (hgraded : statement.expr.Graded)
    (position : Nat) (commit : Bool) (s : Session σ) :
    Action.run (exec (statement.nodes ++ [⟨.endOfLine, position⟩]) commit) s
      = match statement.passAnswer s.store with
        | .ok text => (.ok text, statement.effect commit text s)
        | .error e => (.error (.evaluating e), s) := by
  have htail : Evaluation.IsTail [⟨.endOfLine, position⟩] := .inr ⟨position, rfl⟩
  cases statement with
  | plain e =>
    obtain ⟨first, rest, hnodes, hfirst⟩ := e.exists_first
    have hanswer := Evaluation.answer_nodes s.store hgraded htail
    simp only [Statement.expr, hnodes] at hanswer
    rw [Statement.nodes, hnodes, exec_append_endOfLine, execFrom_of_startsOperand hfirst,
      run_consult, ← List.cons_append, hanswer]
    cases (Statement.plain e).passAnswer s.store with
    | error | ok => rfl
  | output radix p e =>
    rw [Statement.nodes, exec_append_endOfLine]
    show Action.run (consult (Evaluation.answerIn radix p · (e.nodes ++ _))) s = _
    rw [run_consult, Evaluation.answerIn_nodes (e := e) hgraded htail]
    cases (Statement.output radix p e).passAnswer s.store with
    | error | ok => rfl
  | assign target p e =>
    rw [Statement.nodes, exec_append_endOfLine]
    show Action.run (do
      let text ← consult (Evaluation.answer · (e.nodes ++ _))
      if commit then modify (assign target p text)
      return text) s = _
    have hanswer : (Statement.assign target p e).passAnswer s.store
        = (Statement.plain e).passAnswer s.store := rfl
    rw [Action.run_bind, run_consult, Evaluation.answer_nodes _ (e := e) hgraded htail, hanswer]
    cases (Statement.plain e).passAnswer s.store with
    | error => rfl
    | ok text =>
      cases commit with
      | false | true => rfl

theorem read_of_run_evaluate {line text : Bytes} {commit : Bool} {s s' : Session σ}
    (h : Action.run (evaluate line commit) s = (.ok text, s')) : (Line.read line).error = none := by
  unfold evaluate at h
  split at h
  · cases h
  · next hread => exact hread

end Session

/-!
## What a line is answered with

The answer of a line with an expression is the value of the tree of that expression, written in the
radix that the line asks for, and there is none exactly where the tree has no value or where it
cannot be written.
-/

namespace Statement

/-- The answer of a statement by the value of its tree. -/
def answer (store : Store) : Statement → Except Cause Bytes
  | output radix _ e => do
    let q ← e.value store
    match radix.write? q.number with
    | some text => return text
    | none => throw (.unwritable q.numeral radix)
  | plain e | assign _ _ e => do
    let q ← e.value store
    return q.numeral.text

/-- The statement that a line was read into. -/
def IsOf (statement : Statement) (line : Bytes) : Prop :=
  statement.expr.Graded
    ∧ (Line.read line).nodes = statement.nodes ++ [⟨.endOfLine, line.length⟩]

/-- The variable that a statement sets, and the offset it stands at. -/
def target? : Statement → Option (Bytes × Nat)
  | assign target position _ => some (target, position)
  | _ => none

/-- A line that is neither blank nor a command is a statement with the target of the line. -/
theorem exists_isOf_target? {line : Bytes} (hread : (Line.read line).error = none)
    (hline : ∃ t ∈ (Line.significant line).head?, Line.Verb.ofKind? t.kind = none) :
    ∃ statement : Statement, statement.IsOf line
      ∧ statement.target?
        = (Line.target? (Line.significant line)).map fun t ↦ (t.lexeme, t.position) := by
  obtain ⟨hstray, ns, hsentence⟩ := Line.sentence_of_read hread
  have hnodes : (Line.read line).nodes = ns ++ [⟨.endOfLine, line.length⟩] := by
    rw [Line.read_of_sentence hstray hsentence]
  obtain ⟨t, ht, hverb⟩ := hline
  generalize Line.significant line = ts at hsentence ht
  cases hsentence with
  | blank => cases ht
  | clear hkind | save hkind | load hkind =>
    -- the first token of a command is a verb
    cases ht
    rw [hkind] at hverb
    cases hverb
  | plain h =>
    have hnone := (Line.target?_eq_none ts fun t ht ↦ h.ne_equals t (List.mem_of_mem_tail ht)).1
    obtain ⟨e, rfl, he, -⟩ := h.exists_graded
    exact ⟨.plain e, ⟨he, hnodes⟩, by rw [hnone]; rfl⟩
  | @output t _ ts _ _ h =>
    have hnone := (Line.target?_eq_none (t :: ts) h.ne_equals).1
    obtain ⟨e, rfl, he, -⟩ := h.exists_graded
    exact ⟨.output _ _ e, ⟨he, hnodes⟩, by rw [hnone]; rfl⟩
  | assign _ hequals h =>
    obtain ⟨e, rfl, he, -⟩ := h.exists_graded
    exact ⟨.assign _ _ e, ⟨he, hnodes⟩, by rw [Line.target?, if_pos hequals]; rfl⟩

theorem literal_of_isOf {statement : Statement} {line : Bytes}
    (hread : (Line.read line).error = none) (h : statement.IsOf line) {numeral : Numeral}
    {position : Nat} (hmem : ⟨.number numeral, position⟩ ∈ statement.expr.nodes) :
    Line.Literal numeral := by
  have hline : ⟨.number numeral, position⟩ ∈ (Line.read line).nodes := by
    rw [h.2]
    cases statement with
    | plain => exact List.mem_append_left _ hmem
    | output | assign => exact List.mem_cons_of_mem _ (List.mem_append_left _ hmem)
  exact Line.literal_of_read hread hline

theorem lexeme_target_of_isOf {line target : Bytes} {position : Nat} {e : Expr}
    (hread : (Line.read line).error = none) (h : (assign target position e).IsOf line) :
    Token.Lexeme target .var := by
  obtain ⟨hstray, ns, hsentence⟩ := Line.sentence_of_read hread
  have hnodes : ns = ⟨.assign target, position⟩ :: e.nodes := by
    have heq := h.2
    rw [Line.read_of_sentence hstray hsentence] at heq
    exact List.append_cancel_right heq
  have hlexeme := fun t ↦ Line.lexeme_of_mem_significant hstray (t := t)
  generalize Line.significant line = ts at hsentence hlexeme
  cases hsentence with
  | blank | clear | save | load | output => cases hnodes
  | plain hderives =>
    obtain ⟨e', rfl, -, -⟩ := hderives.exists_graded
    exact absurd hnodes (e'.nodes_ne_cons rfl _)
  | @assign t equals ts ns ht he hderives =>
    cases hnodes
    exact ht ▸ hlexeme t (by simp)

theorem showsRadix_of_isOf {statement : Statement} {line : Bytes}
    (hread : (Line.read line).error = none) (h : statement.IsOf line) :
    statement.expr.ShowsRadix :=
  Expr.showsRadix_of_nodes fun _ _ hmem ↦ (literal_of_isOf hread h hmem).showsRadix

variable {store : Store}

/-- The text of a statement whose expression has some value. -/
def textOf? (q : Quantity) : Statement → Option Bytes
  | output radix _ _ => radix.write? q.number
  | plain _ | assign _ _ _ => some q.numeral.text

/-- An answer is a text of the value of the tree, which is what the expression evaluates to. -/
theorem exists_value_of_passAnswer
    (hstore : ∀ name v, store.find? name = some v → v.numeral.ShowsRadix) {statement : Statement}
    (hgraded : statement.expr.Graded) (he : statement.expr.ShowsRadix) {text : Bytes}
    (h : statement.passAnswer store = .ok text) (position : Nat) :
    ∃ q, statement.expr.value store = .ok q
      ∧ Evaluation.evaluate store (statement.expr.nodes ++ [⟨.endOfLine, position⟩])
        = .ok (q.numeral, q.number)
      ∧ statement.textOf? q = some text := by
  obtain ⟨v, x, hv, hx, htext⟩ : ∃ v x, statement.expr.passValue store = .ok v
      ∧ Evaluation.readNumber v = .ok x
      ∧ ∀ hnumber, statement.textOf? ⟨v.numeral, x, hnumber⟩ = some text := by
    cases statement with
    | plain e | assign _ _ e =>
      obtain ⟨v, hv, h⟩ := bind_eq_ok_iff.mp h
      obtain ⟨x, hx, h⟩ := bind_eq_ok_iff.mp h
      cases h
      exact ⟨v, x, hv, hx, fun _ ↦ rfl⟩
    | output radix _ e =>
      obtain ⟨v, hv, h⟩ := bind_eq_ok_iff.mp h
      obtain ⟨x, hx, h⟩ := bind_eq_ok_iff.mp h
      unfold writeIn at h
      split at h
      · next hwrite =>
        cases h
        exact ⟨v, x, hv, hx, fun _ ↦ hwrite⟩
      · cases h
  have hnumber : v.numeral.number? = some x := by
    rw [← Expr.toOption_readNumber, hx]
    rfl
  refine ⟨⟨v.numeral, x, hnumber⟩, ?_, ?_, htext hnumber⟩
  · refine toOption_eq_some_iff.mp ?_
    show statement.expr.value? store = _
    rw [← Expr.passValue_agrees hstore hgraded he, hv]
    exact Quantity.ofNumeral?_eq_some_iff.mpr rfl
  · rw [Evaluation.evaluate_nodes hgraded (.inr ⟨position, rfl⟩), hv, ok_bind, hx, ok_bind]

end Statement

namespace Session

variable {σ : Type} [ProfileStorage σ]

/-- A line that was read into a statement answers what the passes leave, and has its effect. -/
theorem run_evaluate_statement {line : Bytes} {statement : Statement}
    (hread : (Line.read line).error = none) (hof : statement.IsOf line) (commit : Bool)
    (s : Session σ) :
    Action.run (evaluate line commit) s
      = match statement.passAnswer s.store with
        | .ok text => (.ok text, statement.effect commit text s)
        | .error e => (.error (.evaluating e), s) := by
  rw [evaluate, hread, hof.2]
  exact run_exec_statement hof.1 line.length commit s

end Session

end Abacus
