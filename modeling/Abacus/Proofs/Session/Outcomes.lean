import Abacus.Profile
import Abacus.Proofs.Evaluation.Blame
import Abacus.Proofs.Line.Accepted
import Abacus.Proofs.Session.Answers
import Abacus.Proofs.Session.Invariants

/-!
# What can be wrong with a line

The errors that evaluating a line can come to, and which of its operands they blame.
-/

namespace Abacus

/-!
## What a line can come to

A line is answered with a text, or it is to blame for a report about reading it, or a variable or a
number of it is to blame for a report about its value. None of the checks that the calculator makes
on its own work ever fails.
-/

namespace Session

variable {σ : Type} [ProfileStorage σ]

/-! ### Statements -/

/-- A statement without an answer has an operand or an operator to blame, or the radix that it asks
for. -/
theorem blames_of_passAnswer {store : Store} {R : Node → Prop} (hkeeps : Expr.Keeps store R)
    {statement : Statement} (hgraded : statement.expr.Graded) (hwithin : statement.expr.Within R)
    {e : Evaluation.Error} (h : statement.passAnswer store = .error e) : Expr.Blames R e := by
  cases statement with
  | plain | assign =>
    rcases bind_eq_error_iff.mp h with h | ⟨value, hvalue, h⟩
    · exact Expr.blames_of_passValue hkeeps hgraded hwithin h
    rcases bind_eq_error_iff.mp h with h | ⟨x, -, h⟩
    · exact Expr.blames_of_readNumber (Expr.holds_of_passValue hkeeps hgraded hwithin hvalue) h
    · cases h
  | output radix position e =>
    rcases bind_eq_error_iff.mp h with h | ⟨value, hvalue, h⟩
    · exact Expr.blames_of_passValue hkeeps hgraded hwithin h
    rcases bind_eq_error_iff.mp h with h | ⟨x, -, h⟩
    · exact Expr.blames_of_readNumber (Expr.holds_of_passValue hkeeps hgraded hwithin hvalue) h
    · unfold Statement.writeIn at h
      split at h
      · cases h
      · cases h
        exact .unwritable _ radix position

theorem blamesOperand_of_passAnswer {store : Store} {statement : Statement}
    (hgraded : statement.expr.Graded) {e : Evaluation.Error}
    (h : statement.passAnswer store = .error e) : Expr.BlamesOperand e :=
  (blames_of_passAnswer (Expr.keeps_true store) hgraded (fun _ _ ↦ trivial) h).blamesOperand

/-! ### Commands -/

/-- A storage breaks down on no name. -/
def NeverBreaks (storage : σ) : Prop :=
  ∀ name b, ProfileStorage.load storage name ≠ .error b

/-- Commands are answered, whatever the storage makes of them. -/
theorem exists_ok_of_load {s : Session σ} (hstorage : ∀ storage, s.storage = some storage →
      NeverBreaks storage) (name : Bytes) :
    ∃ text, (Action.run (ExceptT.adapt Failure.broken (load name)) s).1 = .ok text := by
  rw [run_load]
  cases h : s.storage with
  | none => exact ⟨_, rfl⟩
  | some storage =>
    dsimp only
    rcases hl : ProfileStorage.load storage name with b | e | loaded
    · exact absurd hl (hstorage storage h name b)
    · exact ⟨_, rfl⟩
    · exact ⟨_, rfl⟩

/-! ### Lines -/

/-- The nodes of a line that was read have an answer, or an operand to blame. -/
theorem exec_outcome {s : Session σ} (hstorage : ∀ storage, s.storage = some storage →
      NeverBreaks storage) {ts : List Token} {ns : List Node} (h : Line.Sentence ts ns)
    (position : Nat) (commit : Bool) :
    (∃ text, (Action.run (exec (ns ++ [⟨.endOfLine, position⟩]) commit) s).1 = .ok text)
      ∨ ∃ e, (Action.run (exec (ns ++ [⟨.endOfLine, position⟩]) commit) s).1
        = .error (.evaluating e) ∧ Expr.BlamesOperand e := by
  rcases h.cases with rfl | ⟨p, rfl⟩ | ⟨name, p, rfl⟩ | ⟨name, p, rfl⟩ | ⟨statement, hgraded, rfl⟩
  · exact .inl ⟨_, rfl⟩
  · exact .inl ⟨_, rfl⟩
  · exact .inl ⟨_, rfl⟩
  · exact .inl (exists_ok_of_load hstorage name)
  · rw [run_exec_statement hgraded]
    cases h : statement.passAnswer s.store with
    | ok text => exact .inl ⟨text, rfl⟩
    | error e => exact .inr ⟨e, rfl, blamesOperand_of_passAnswer hgraded h⟩

/-- **Nothing internal.** With a storage that never breaks down, or none, a line is answered, or it
cannot be read for a reason of its own, or it has no value because of a variable or a number. While
a line is read there is always a node to the left of a token that is not the first; a line that was
read ends with the mark of the end; and the lexeme of an operator is always one of the known
symbols. -/
theorem evaluate_outcome (s : Session σ) (hstorage : ∀ storage, s.storage = some storage →
      NeverBreaks storage) (line : Bytes) (commit : Bool) :
    ((∃ text, (Action.run (evaluate line commit) s).1 = .ok text)
      ∨ (∃ e, (Action.run (evaluate line commit) s).1 = .error (.reading e)
        ∧ (e.fault.kind = .lexical ∨ e.fault.kind = .grammatical ∨ e.fault.kind = .unexpectedEnd))
      ∨ ∃ e, (Action.run (evaluate line commit) s).1 = .error (.evaluating e)
        ∧ (e.fault.kind = .unknownVariable ∨ e.fault.kind = .invalidNumber))
    ∧ (∀ ts p, ts ≠ [] → Line.Reads .start ts p → p.left? ≠ none)
    ∧ ((Line.read line).error = none →
      (Line.read line).nodes.getLast? = some ⟨.endOfLine, line.length⟩)
    ∧ ∀ t ∈ Token.scan line, ∀ op, t.kind = .operator op →
      Operator.ofSymbol? t.lexeme = some op := by
  refine ⟨?_, ?_, ?_, ?_⟩
  · unfold evaluate
    cases herror : (Line.read line).error with
    | some e => exact .inr (.inl ⟨e, rfl, Line.blamesLine_of_read herror⟩)
    | none =>
      obtain ⟨hstray, ns, hsentence⟩ := Line.sentence_of_read herror
      rw [Line.read_of_sentence hstray hsentence]
      exact (exec_outcome hstorage hsentence line.length commit).imp_right .inr
  · intro ts p hts hreads hnone
    exact hreads.recent_ne_nil hts (List.head?_eq_none_iff.mp hnone)
  · intro herror
    obtain ⟨hstray, ns, hsentence⟩ := Line.sentence_of_read herror
    rw [Line.read_of_sentence hstray hsentence, List.getLast?_concat]
  · exact fun t ht op hop ↦ Token.ofSymbol?_of_mem_scan ht hop

/-- A power of an unknown variable, with profiles in memory. -/
theorem evaluate_outcome_power :
    let s := start (some (⟨.empty, false⟩ : Shelf))
    let line := utf8 "2 ** $x"
    let e := Evaluation.Error.unknownVariable (utf8 "$x") 5
    (∀ storage, s.storage = some storage → NeverBreaks storage)
      ∧ (Action.run (evaluate line true) s).1 = .error (.evaluating e)
      ∧ (e.fault.kind = .unknownVariable ∨ e.fault.kind = .invalidNumber)
      ∧ (Line.read line).error = none
      ∧ (Line.read line).nodes.getLast? = some ⟨.endOfLine, 7⟩
      ∧ ⟨.operator .pow, utf8 "**", 2⟩ ∈ Token.scan line
      ∧ Operator.ofSymbol? (utf8 "**") = some .pow := by
  intro s line e
  have hstorage : ∀ storage, s.storage = some storage → NeverBreaks storage := fun _ _ _ _ ↦ nofun
  have hrun : (Action.run (evaluate line true) s).1 = .error (.evaluating e) := by
    decide +kernel
  have hread : (Line.read line).error = none := by decide +kernel
  have hmem : ⟨.operator .pow, utf8 "**", 2⟩ ∈ Token.scan line := by decide +kernel
  obtain ⟨houtcome, -, hmark, hsymbol⟩ := evaluate_outcome s hstorage line true
  have hkind : e.fault.kind = .unknownVariable ∨ e.fault.kind = .invalidNumber := by
    rw [hrun] at houtcome
    rcases houtcome with ⟨text, h⟩ | ⟨e', h, -⟩ | ⟨e', h, hkind⟩
    · cases h
    · cases h
    · cases h
      exact hkind
  exact ⟨hstorage, hrun, hkind, hread, hmark hread, hmem, hsymbol _ hmem _ rfl⟩

/-!
## Where evaluation fails

In a session that began with nothing the variables are numbers, so an unknown variable or a
malformed literal is one of the line that is evaluated. A variable is reported where it stands. A
literal is reported where it stands, unless it stands alone in parentheses: then the offset is that
of the outermost of them, which are dropped before the literal is looked at.
-/

/-! ### Statements without an answer -/

theorem exists_statement_of_run {line : Bytes} {commit : Bool} {s s' : Session σ}
    {e : Evaluation.Error}
    (h : Action.run (evaluate line commit) s = (.error (.evaluating e), s')) :
    (Line.read line).error = none
      ∧ ∃ statement : Statement, statement.IsOf line ∧ statement.passAnswer s.store = .error e := by
  unfold evaluate at h
  split at h
  · cases h
  · next hread =>
    refine ⟨hread, ?_⟩
    obtain ⟨hstray, ns, hsentence⟩ := Line.sentence_of_read hread
    rw [Line.read_of_sentence hstray hsentence] at h
    have hnodes : (Line.read line).nodes = ns ++ [⟨.endOfLine, line.length⟩] := by
      rw [Line.read_of_sentence hstray hsentence]
    rcases hsentence.cases with rfl | ⟨p, rfl⟩ | ⟨name, p, rfl⟩ | ⟨name, p, rfl⟩
      | ⟨statement, hgraded, rfl⟩
    · cases h
    · cases h
    · cases h
    · obtain ⟨b, hb⟩ := exists_broken_of_run_load h
      cases hb
    · rw [run_exec_statement hgraded] at h
      split at h
      · cases h
      · next herror =>
        cases h
        exact ⟨statement, ⟨hgraded, hnodes⟩, herror⟩

/-! ### Operands of a line -/

theorem exists_nodes_eq (statement : Statement) :
    ∃ front, statement.nodes = front ++ statement.expr.nodes
      ∧ front.reverse.head?.any Evaluation.isAbs = false := by
  rcases statement with e | ⟨radix, p, e⟩ | ⟨target, p, e⟩
  · exact ⟨[], rfl, rfl⟩
  · exact ⟨[⟨.setOutput radix, p⟩], rfl, rfl⟩
  · exact ⟨[⟨.assign target, p⟩], rfl, rfl⟩

theorem sentence_of_isOf {line : Bytes} {statement : Statement}
    (hread : (Line.read line).error = none) (hof : statement.IsOf line) :
    Line.Sentence (Line.significant line) statement.nodes := by
  obtain ⟨hstray, ns, hsentence⟩ := Line.sentence_of_read hread
  have hnodes := hof.2
  rw [Line.read_of_sentence hstray hsentence] at hnodes
  exact List.append_cancel_right hnodes ▸ hsentence

theorem pairwise_nodes {line : Bytes} {statement : Statement}
    (h : Line.Sentence (Line.significant line) statement.nodes) :
    statement.nodes.Pairwise (·.position < ·.position) := by
  have htokens : ((Line.significant line).map Token.position).Pairwise (· < ·) :=
    List.pairwise_map.mpr ((Token.pairwise_scan line).filter _)
  exact List.pairwise_map.mp (htokens.sublist h.positions_sublist)

/-- Where a literal of a statement stands in its line, and where it is reported. -/
theorem exists_stands_of_mem_operands {line : Bytes} {statement : Statement}
    (hread : (Line.read line).error = none) (hof : statement.IsOf line) {numeral : Numeral}
    {position : Nat} (h : ⟨.number numeral, position⟩ ∈ statement.expr.operands) :
    ∃ text before after own, (Line.read line).nodes = before ++ ⟨.number numeral, own⟩ :: after
      ∧ Line.Stands (Line.significant line) text ⟨.number numeral, own⟩
      ∧ position = outermost before.reverse after own
      ∧ (position = own ↔ ¬ Parenthesized before.reverse after) := by
  have hsentence := sentence_of_isOf hread hof
  obtain ⟨front, hnodes, hfront⟩ := exists_nodes_eq statement
  obtain ⟨before, own, after, hexpr, houter⟩ :=
    Expr.reportedAt_of_mem_operands h front.reverse [⟨.endOfLine, line.length⟩] hfront
      (.inr (not_parenthesized_of_ne_rparen (n := ⟨.endOfLine, line.length⟩) (by simp) _ _))
  rw [← List.reverse_append] at houter
  have hsplit : statement.nodes = (front ++ before) ++ ⟨.number numeral, own⟩ :: after := by
    rw [hnodes, hexpr, List.append_assoc]
  have hmem : ⟨.number numeral, own⟩ ∈ statement.nodes := by
    rw [hsplit]
    exact List.mem_append_right _ List.mem_cons_self
  obtain ⟨text, htext⟩ := hsentence.exists_stands hmem rfl
  refine ⟨text, front ++ before, after ++ [(⟨.endOfLine, line.length⟩ : Node)], own, ?_, htext,
    houter, ?_⟩
  · rw [hof.2, hsplit, List.append_assoc]
    rfl
  · -- the nodes in front of the literal stand in front of it
    have hpairwise := pairwise_nodes hsentence
    rw [hsplit] at hpairwise
    obtain ⟨hbefore, -, hlt⟩ := List.pairwise_append.mp hpairwise
    rw [houter]
    refine outermost_eq_iff (List.pairwise_reverse.mpr hbefore) fun n hn ↦ ?_
    exact hlt n (List.mem_reverse.mp hn) _ List.mem_cons_self

theorem mem_scan_of_mem_operands {line : Bytes} {statement : Statement}
    (hread : (Line.read line).error = none) (hof : statement.IsOf line) {name : Bytes}
    {position : Nat} (h : ⟨.var name, position⟩ ∈ statement.expr.operands) :
    ⟨.var, name, position⟩ ∈ Token.scan line := by
  obtain ⟨front, hnodes, -⟩ := exists_nodes_eq statement
  have hmem : ⟨.var name, position⟩ ∈ statement.nodes := by
    rw [hnodes]
    exact List.mem_append_right _ (Expr.var_mem_nodes h)
  obtain ⟨own, hown⟩ := (sentence_of_isOf hread hof).exists_stands hmem rfl
  exact (List.mem_filter.mp hown.mem_of_var).1

/-! ### Sessions -/

theorem assigned_sound : Assigned Numeral.Sound :=
  fun hstore hread hof hanswer ↦ sound_assigned hstore hread hof hanswer

/-- In a session that began with nothing an error about an operand is about one of the line. -/
theorem blames_of_run {storage : Option σ}
    (hstorage : ∀ given, storage = some given → ProfileStorage.Fresh given) {steps : List Step}
    (hsteps : ∀ t ∈ steps, ∀ nodes commit, t ≠ .nodes nodes commit) {line : Bytes}
    {statement : Statement} (hread : (Line.read line).error = none) (hof : statement.IsOf line)
    {e : Evaluation.Error}
    (h : statement.passAnswer ((start storage).run steps).store = .error e) :
    Expr.Blames (· ∈ statement.expr.operands) e := by
  have hvalid : ∀ name v, ((start storage).run steps).store.find? name = some v →
      v.numeral.Valid :=
    fun name v hv ↦ (assigned_sound.every hstorage hsteps name v hv).2.valid
  have hliteral : ∀ numeral position, ⟨.number numeral, position⟩ ∈ statement.expr.operands →
      numeral.ShowsRadix := by
    intro numeral position hmem
    obtain ⟨own, hown⟩ := Expr.exists_number_mem_nodes hmem
    exact (Statement.literal_of_isOf hread hof hown).showsRadix
  have hkeeps := Expr.keeps_operands hvalid hliteral
  exact (blames_of_passAnswer hkeeps hof.1 (fun _ hn ↦ .inl hn) h).of_valid

/-- **Operands are reported where they stand, or where their parentheses open.** A session begins
without variables and with a storage that has no profiles of its own, or with none. After any lines,
committed or not, and any requests to forget, save and load the variables, let a line have no value.
If this is because of an unknown variable, its name and its own offset are reported. If it is
because of a malformed number, that is a literal of the line, and its text is reported in lower
case. The offset is that of the outermost of the parentheses that the literal stands alone in, those
of an `abs` left aside. So it is the offset of the literal, a minus sign included, exactly if there
are none. -/
theorem fault_of_evaluate {storage : Option σ}
    (hstorage : ∀ given, storage = some given → ProfileStorage.Fresh given) {steps : List Step}
    (hsteps : ∀ t ∈ steps, ∀ nodes commit, t ≠ .nodes nodes commit) {line : Bytes} {commit : Bool}
    {e : Evaluation.Error} {s : Session σ}
    (h : Action.run (evaluate line commit) ((start storage).run steps)
      = (.error (.evaluating e), s)) :
    (∀ name position, e = .unknownVariable name position →
      ⟨.var, name, position⟩ ∈ Token.scan line ∧ e.fault.text = name
        ∧ e.fault.position = position)
    ∧ ∀ v, e = .malformed v → ∃ own before after position,
      (Line.read line).nodes = before ++ ⟨.number v.numeral, position⟩ :: after
        ∧ Line.Stands (Line.significant line) own ⟨.number v.numeral, position⟩
        ∧ v.numeral.number? = none ∧ e.fault.text = Bytes.lower own
        ∧ e.fault.position = outermost before.reverse after position
        ∧ (e.fault.position = position ↔ ¬ Parenthesized before.reverse after) := by
  obtain ⟨hread, statement, hof, hanswer⟩ := exists_statement_of_run h
  have hblames := blames_of_run hstorage hsteps hread hof hanswer
  constructor
  · rintro name position rfl
    obtain ⟨hmem⟩ := hblames
    exact ⟨mem_scan_of_mem_operands hread hof hmem, rfl, rfl⟩
  · rintro v rfl
    obtain _ | ⟨hmem, hv⟩ := hblames
    obtain ⟨text, before, after, own, hnodes, htext, houter, hiff⟩ :=
      exists_stands_of_mem_operands hread hof hmem
    exact ⟨text, before, after, own, hnodes, htext, hv, htext.text_eq, houter, hiff⟩

/-- A malformed octal number in two pairs of parentheses, behind an assignment. -/
theorem fault_of_evaluate_nested :
    let storage : Option Shelf := some ⟨.empty, false⟩
    let steps : List Step := [.line (utf8 "$x = 1") true]
    let line := utf8 "$y = $x + ((- 08))"
    let v : Value := ⟨.negated (utf8 "08"), 10⟩
    let e := Evaluation.Error.malformed v
    let s := (Action.run (evaluate line true) ((start storage).run steps)).2
    (∀ given, storage = some given → ProfileStorage.Fresh given)
      ∧ (∀ t ∈ steps, ∀ nodes commit, t ≠ .nodes nodes commit)
      ∧ Action.run (evaluate line true) ((start storage).run steps) = (.error (.evaluating e), s)
      ∧ ∃ own before after position,
        (Line.read line).nodes = before ++ ⟨.number v.numeral, position⟩ :: after
          ∧ Line.Stands (Line.significant line) own ⟨.number v.numeral, position⟩
          ∧ e.fault.text = Bytes.lower own
          ∧ e.fault.position = outermost before.reverse after position := by
  intro storage steps line v e s
  have hstorage : ∀ given, storage = some given → ProfileStorage.Fresh given := by
    intro given hgiven
    obtain rfl := Option.some.inj hgiven
    exact Shelf.fresh_of_empty rfl
  have hsteps : ∀ t ∈ steps, ∀ nodes commit, t ≠ .nodes nodes commit := by
    intro t ht nodes commit
    obtain rfl := List.mem_singleton.mp ht
    nofun
  have hrun : Action.run (evaluate line true) ((start storage).run steps)
      = (.error (.evaluating e), s) := Prod.ext (by decide +kernel) rfl
  obtain ⟨own, before, after, position, hnodes, hown, -, htext, houter, -⟩ :=
    (fault_of_evaluate hstorage hsteps hrun).2 v rfl
  exact ⟨hstorage, hsteps, hrun, own, before, after, position, hnodes, hown, htext, houter⟩

/-- The only `08` of this line stands behind the parenthesis that is reported. -/
theorem fault_of_evaluate_parenthesized :
    let s := start (some (⟨.empty, false⟩ : Shelf))
    let line := utf8 "(08) + 1"
    let e := Evaluation.Error.malformed ⟨.ofText (utf8 "08"), 0⟩
    (Action.run (evaluate line true) s).1 = .error (.evaluating e)
      ∧ ⟨.number, utf8 "08", 1⟩ ∈ Token.scan line
      ∧ (∀ t ∈ Token.scan line, t.lexeme = utf8 "08" → t.position = 1)
      ∧ e.fault.text = utf8 "08" ∧ e.fault.position ≠ 1 := by
  decide +kernel

/-- An `abs` looks at a literal before its own parentheses are dropped. -/
example : (Action.run (evaluate (utf8 "abs(08) + 1") true) (start (none : Option Shelf))).1
    = .error (.evaluating (.malformed ⟨.ofText (utf8 "08"), 4⟩)) := by decide +kernel

end Session

end Abacus
