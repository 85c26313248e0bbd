import Abacus.Profile
import Abacus.Proofs.Evaluation.Alike
import Abacus.Proofs.Line.Alike
import Abacus.Proofs.Line.Canonical
import Abacus.Proofs.Session.Answers

/-!
# Lines that are evaluated alike

Blanks do not matter to a session, nor does a canonical text in place of a line.
-/

namespace Abacus

/-!
## Lines that are answered alike

Lines of one wording are evaluated alike from the same session: they have the same answer or fail
alike, and leave variables with the same numerals.
-/

/-! ### Statements -/

theorem Expr.shapes_ne_cons (e : Expr) {shape : Node.Shape}
    (h : Node.startsOperand ⟨shape, 0⟩ = false) (shapes : List Node.Shape) :
    e.nodes.map Node.shape ≠ shape :: shapes := by
  intro heq
  obtain ⟨n, rest, hnodes, rfl, -⟩ := List.map_eq_cons_iff.mp heq
  exact e.nodes_ne_cons (n := n) h rest hnodes

namespace Statement

/-- Statements of one kind with expressions that resemble each other. -/
inductive Resembles (store store' : Store) : Statement → Statement → Prop where
  | plain {e e' : Expr} (h : e.Resembles store store' e') :
    Resembles store store' (plain e) (plain e')
  | output {radix : Radix} {p p' : Nat} {e e' : Expr} (h : e.Resembles store store' e') :
    Resembles store store' (output radix p e) (output radix p' e')
  | assign {target : Bytes} {p p' : Nat} {e e' : Expr} (h : e.Resembles store store' e') :
    Resembles store store' (assign target p e) (assign target p' e')

theorem passAnswer_alike {store store' : Store} {statement statement' : Statement}
    (h : statement.Resembles store store' statement') :
    Matches Evaluation.Error.Alike Eq (statement.passAnswer store)
      (statement'.passAnswer store') := by
  cases h with
  | plain h | assign h =>
    refine (Expr.passValue_alike h).bind fun v v' hv ↦ ?_
    refine (Evaluation.readNumber_alike hv).bind fun _ _ _ ↦ ?_
    exact .ok (congrArg Numeral.text hv)
  | @output radix p p' e e' h =>
    refine (Expr.passValue_alike h).bind fun v v' hv ↦ ?_
    refine (Evaluation.readNumber_alike hv).bind ?_
    rintro x _ rfl
    unfold writeIn
    split
    · exact .ok rfl
    · exact .error ⟨rfl, congrArg Numeral.text hv⟩

theorem resembles_of_shapes (store : Store) {statement statement' : Statement}
    (h : statement.expr.Graded) (h' : statement'.expr.Graded)
    (hshapes : statement.nodes.map Node.shape = statement'.nodes.map Node.shape) :
    statement.Resembles store store statement' := by
  cases statement with
  | plain e =>
    cases statement' with
    | plain e' => exact .plain (Expr.resembles_of_shapes store h h' hshapes)
    | output | assign => exact absurd hshapes (e.shapes_ne_cons rfl _)
  | output radix p e =>
    cases statement' with
    | plain e' => exact absurd hshapes.symm (e'.shapes_ne_cons rfl _)
    | output radix' p' e' =>
      obtain ⟨hfirst, hrest⟩ := List.cons.inj hshapes
      cases hfirst
      exact .output (Expr.resembles_of_shapes store h h' hrest)
    | assign => cases hshapes
  | assign target p e =>
    cases statement' with
    | plain e' => exact absurd hshapes.symm (e'.shapes_ne_cons rfl _)
    | output => cases hshapes
    | assign target' p' e' =>
      obtain ⟨hfirst, hrest⟩ := List.cons.inj hshapes
      cases hfirst
      exact .assign (Expr.resembles_of_shapes store h h' hrest)

theorem shapes_ne_singleton (statement : Statement) {shape : Node.Shape}
    (h : Node.startsOperand ⟨shape, 0⟩ = false) : statement.nodes.map Node.shape ≠ [shape] := by
  cases statement with
  | plain e => exact e.shapes_ne_cons h []
  | output radix p e | assign target p e =>
    obtain ⟨first, rest, hnodes, -⟩ := e.exists_first
    simp [nodes, hnodes]

theorem nodes_ne_nil (statement : Statement) : statement.nodes ≠ [] := by
  cases statement with
  | plain e =>
    obtain ⟨first, rest, hnodes, -⟩ := e.exists_first
    rw [nodes, hnodes]
    exact List.cons_ne_nil _ _
  | output | assign => exact List.cons_ne_nil _ _

end Statement

/-- A sentence with nodes of the shapes of a statement is a statement. -/
theorem Line.Sentence.exists_statement {ts : List Token} {ns : List Node} (h : Sentence ts ns)
    {statement : Statement} (hshapes : ns.map Node.shape = statement.nodes.map Node.shape) :
    ∃ statement' : Statement, statement'.expr.Graded ∧ ns = statement'.nodes := by
  rcases h.cases with rfl | ⟨p, rfl⟩ | ⟨name, p, rfl⟩ | ⟨name, p, rfl⟩ | hstatement
  · exact absurd (List.map_eq_nil_iff.mp hshapes.symm) statement.nodes_ne_nil
  · exact absurd hshapes.symm (statement.shapes_ne_singleton rfl)
  · exact absurd hshapes.symm (statement.shapes_ne_singleton rfl)
  · exact absurd hshapes.symm (statement.shapes_ne_singleton rfl)
  · exact hstatement

namespace Session

/-! ### Failures and sessions -/

/-- Failures of one class with reports of the same kind about the same text. -/
inductive Failure.Alike : Failure → Failure → Prop where
  | reading {e e' : Line.Error} (h : e.Alike e') : Failure.Alike (.reading e) (.reading e')
  | evaluating {e e' : Evaluation.Error} (h : e.Alike e') :
    Failure.Alike (.evaluating e) (.evaluating e')
  | broken (b : Breakdown) : Failure.Alike (.broken b) (.broken b)

theorem Failure.Alike.refl (e : Failure) : e.Alike e := by
  cases e with
  | reading => exact .reading ⟨rfl, rfl⟩
  | evaluating => exact .evaluating ⟨rfl, rfl⟩
  | broken b => exact .broken b

/-- Answers are the same, or the failures are alike. -/
abbrev AnsweredAlike : Except Failure Bytes → Except Failure Bytes → Prop :=
  Matches Failure.Alike Eq

theorem AnsweredAlike.refl (r : Except Failure Bytes) : AnsweredAlike r r := by
  cases r with
  | error e => exact .error (.refl e)
  | ok text => exact .ok rfl

theorem AnsweredAlike.eq_ok {text : Bytes} {r : Except Failure Bytes}
    (h : AnsweredAlike (.ok text) r) : r = .ok text := by
  cases h with
  | ok h => rw [h]

variable {σ : Type}

/-- Sessions with the same numerals under the same names, and otherwise the same. -/
structure Alike (s s' : Session σ) : Prop where
  numerals : ∀ name,
    (s.store.find? name).map Value.numeral = (s'.store.find? name).map Value.numeral
  storage : s.storage = s'.storage
  saves : s.saves = s'.saves

theorem Alike.refl (s : Session σ) : s.Alike s := ⟨fun _ ↦ rfl, rfl, rfl⟩

theorem alike_assign (s : Session σ) (target text : Bytes) (position position' : Nat) :
    (s.assign target position text).Alike (s.assign target position' text) := by
  refine ⟨fun name ↦ ?_, rfl, rfl⟩
  rw [assign, assign, NameMap.find?_insert, NameMap.find?_insert]
  split
  · rfl
  · rfl

theorem effect_alike {store store' : Store} {statement statement' : Statement}
    (h : statement.Resembles store store' statement') (commit : Bool) (text : Bytes)
    (s : Session σ) : (statement.effect commit text s).Alike (statement'.effect commit text s) := by
  cases h with
  | plain | output => exact .refl s
  | assign =>
    cases commit with
    | false => exact .refl s
    | true => exact alike_assign s _ _ _ _

/-! ### Lines -/

variable [ProfileStorage σ]

/-- Statements that come to answers alike are carried out with answers alike, from whatever sessions
and whether they are committed or not. -/
theorem answeredAlike_exec {statement statement' : Statement} (hgraded : statement.expr.Graded)
    (hgraded' : statement'.expr.Graded) {s s' : Session σ}
    (h : Matches Evaluation.Error.Alike Eq (statement.passAnswer s.store)
      (statement'.passAnswer s'.store)) (p p' : Nat) (commit commit' : Bool) :
    AnsweredAlike (Action.run (exec (statement.nodes ++ [⟨.endOfLine, p⟩]) commit) s).1
      (Action.run (exec (statement'.nodes ++ [⟨.endOfLine, p'⟩]) commit') s').1 := by
  rw [run_exec_statement hgraded, run_exec_statement hgraded']
  generalize statement.passAnswer s.store = r at h
  generalize statement'.passAnswer s'.store = r' at h
  cases h with
  | error h => exact .error (.evaluating h)
  | ok h => exact .ok h

theorem alike_exec {statement statement' : Statement} (hgraded : statement.expr.Graded)
    (hgraded' : statement'.expr.Graded) {s : Session σ}
    (h : statement.Resembles s.store s.store statement') (p p' : Nat) (commit : Bool) :
    (Action.run (exec (statement.nodes ++ [⟨.endOfLine, p⟩]) commit) s).2.Alike
      (Action.run (exec (statement'.nodes ++ [⟨.endOfLine, p'⟩]) commit) s).2 := by
  have hanswer := Statement.passAnswer_alike h
  rw [run_exec_statement hgraded, run_exec_statement hgraded']
  generalize statement.passAnswer s.store = r at hanswer
  generalize statement'.passAnswer s.store = r' at hanswer
  cases hanswer with
  | error => exact .refl s
  | ok heq =>
    subst heq
    exact effect_alike h commit _ s

theorem exec_alike {ts ts' : List Token} {ns ns' : List Node} (h : Line.Sentence ts ns)
    (h' : Line.Sentence ts' ns') (hshapes : ns.map Node.shape = ns'.map Node.shape)
    (p p' : Nat) (commit : Bool) (s : Session σ) :
    AnsweredAlike (Action.run (exec (ns ++ [⟨.endOfLine, p⟩]) commit) s).1
        (Action.run (exec (ns' ++ [⟨.endOfLine, p'⟩]) commit) s).1
      ∧ (Action.run (exec (ns ++ [⟨.endOfLine, p⟩]) commit) s).2.Alike
        (Action.run (exec (ns' ++ [⟨.endOfLine, p'⟩]) commit) s).2 := by
  have single : ∀ {shape : Node.Shape}, [shape] = ns'.map Node.shape →
      ∃ q, ns' = [⟨shape, q⟩] := by
    intro shape hns'
    obtain ⟨⟨_, q⟩, rest, rfl, rfl, hrest⟩ := List.map_eq_cons_iff.mp hns'.symm
    exact ⟨q, by rw [List.map_eq_nil_iff.mp hrest]⟩
  rcases h.cases with rfl | ⟨q, rfl⟩ | ⟨name, q, rfl⟩ | ⟨name, q, rfl⟩ | ⟨statement, hgraded, rfl⟩
  · obtain rfl := List.map_eq_nil_iff.mp hshapes.symm
    exact ⟨.refl _, .refl _⟩
  · obtain ⟨q', rfl⟩ := single hshapes
    exact ⟨.refl _, .refl _⟩
  · obtain ⟨q', rfl⟩ := single hshapes
    exact ⟨.refl _, .refl _⟩
  · obtain ⟨q', rfl⟩ := single hshapes
    exact ⟨.refl _, .refl _⟩
  · obtain ⟨statement', hgraded', rfl⟩ := h'.exists_statement hshapes.symm
    have hresembles := Statement.resembles_of_shapes s.store hgraded hgraded' hshapes
    exact ⟨answeredAlike_exec hgraded hgraded' (Statement.passAnswer_alike hresembles) p p' _ _,
      alike_exec hgraded hgraded' hresembles p p' commit⟩

/-- Lines that are read into nodes of the same shapes are evaluated alike. -/
theorem evaluate_alike_of_shapes {line line' : Bytes} (h : (Line.read line).error = none)
    (h' : (Line.read line').error = none)
    (hshapes : (Line.read line').nodes.map Node.shape = (Line.read line).nodes.map Node.shape)
    (commit : Bool) (s : Session σ) :
    AnsweredAlike (Action.run (evaluate line commit) s).1 (Action.run (evaluate line' commit) s).1
      ∧ (Action.run (evaluate line commit) s).2.Alike (Action.run (evaluate line' commit) s).2 := by
  obtain ⟨hstray, ns, hns⟩ := Line.sentence_of_read h
  obtain ⟨hstray', ns', hns'⟩ := Line.sentence_of_read h'
  rw [evaluate, h, evaluate, h']
  rw [Line.read_of_sentence hstray hns, Line.read_of_sentence hstray' hns'] at hshapes ⊢
  rw [List.map_append, List.map_append] at hshapes
  exact exec_alike hns hns' (List.append_cancel_right hshapes).symm _ _ commit s

/-- Lines of one wording are evaluated alike. -/
theorem evaluate_alike {line line' : Bytes}
    (hstray : Token.Kind.stray ∉ (Token.scan line).map Token.kind)
    (hwording : Token.wording line' = Token.wording line) (commit : Bool) (s : Session σ) :
    AnsweredAlike (Action.run (evaluate line commit) s).1 (Action.run (evaluate line' commit) s).1
      ∧ (Action.run (evaluate line commit) s).2.Alike (Action.run (evaluate line' commit) s).2 := by
  rcases optionRel_cases (Line.read_alike hstray hwording) with ⟨h, h'⟩ | ⟨e, e', h, h', he⟩
  · obtain ⟨-, ns, hns⟩ := Line.sentence_of_read h
    have hts : (Line.significant line).map Token.word
        = (Line.significant line').map Token.word := by
      rw [Line.map_word_significant, Line.map_word_significant, hwording]
    have hshapes := (Line.read_of_sentence_alike (Line.sentence_of_read h').1 hts hns).2
    refine evaluate_alike_of_shapes h h' (hshapes.trans ?_) commit s
    rw [Line.read_of_sentence hstray hns, List.map_append]
    rfl
  · rw [evaluate, h, evaluate, h']
    exact ⟨.error (.reading he), .refl s⟩

/-!
## Blanks separate

What a line says and does depends on its blanks only where they keep two tokens apart. A line
without stray characters may be given other blanks between its tokens and at its ends, and be
trimmed, again and again.
-/

/-- **Blanks only separate tokens.** Let a line without stray characters be changed by putting other
blanks in place of a run of blanks, or blanks in front of a token or of the end, or by trimming it,
as often as one likes. Then its tokens other than blanks have the same kinds and texts, and from the
same session, with whatever storage, the line has the same answer, or fails in the same class with
the same kind and the same text at fault. It leaves the same names with the same numerals, the same
storage and as many saves; the offsets may differ. -/
theorem evaluate_respaced {line line' : Bytes}
    (hstray : Token.Kind.stray ∉ (Token.scan line).map Token.kind)
    (h : Relation.ReflTransGen Token.Respaced line line') :
    Token.texts line' = Token.texts line
      ∧ ∀ (s : Session σ) (commit : Bool),
        AnsweredAlike (Action.run (evaluate line commit) s).1
            (Action.run (evaluate line' commit) s).1
          ∧ (Action.run (evaluate line commit) s).2.Alike
            (Action.run (evaluate line' commit) s).2 := by
  have hwording := Token.wording_eq_of_respaced h hstray
  exact ⟨Token.texts_eq_of_wording hwording,
    fun s commit ↦ evaluate_alike hstray hwording commit s⟩

/-- A line of an assignment that is trimmed, then given other blanks, and then a blank more. -/
theorem evaluate_respaced_sum :
    let x : Value := ⟨.ofText (utf8 "0x10"), 0⟩
    let s : Session Shelf := { start none with store := NameMap.empty.insert (utf8 "$x") x }
    let line := utf8 " $y= 1+$x"
    let line' := utf8 "$y=\t\n1 +$x"
    Token.Kind.stray ∉ (Token.scan line).map Token.kind
      ∧ Relation.ReflTransGen Token.Respaced line line'
      ∧ Token.texts line' = Token.texts line
      ∧ (Action.run (evaluate line true) s).1 = .ok (utf8 "17")
      ∧ (Action.run (evaluate line' true) s).1 = .ok (utf8 "17")
      ∧ ((Action.run (evaluate line' true) s).2.store.find? (utf8 "$y")).map Value.numeral
        = some (.ofText (utf8 "17")) := by
  intro x s line line'
  have hstray : Token.Kind.stray ∉ (Token.scan line).map Token.kind := by decide +kernel
  have htrimmed : Token.Respaced line (utf8 "$y= 1+$x") := .trimmed line
  have hreplaced : Token.Respaced (utf8 "$y=" ++ (utf8 " " ++ utf8 "1+$x"))
      (utf8 "$y=" ++ (utf8 "\t\n" ++ utf8 "1+$x")) :=
    .replaced (by decide +kernel) (by decide +kernel) (by decide +kernel)
  have hplus : ⟨.operator .add, utf8 "+", 6⟩ ∈ Token.scan (utf8 "$y=\t\n1" ++ utf8 "+$x") := by
    decide +kernel
  have hinserted : Token.Respaced (utf8 "$y=\t\n1" ++ utf8 "+$x")
      (utf8 "$y=\t\n1" ++ (utf8 " " ++ utf8 "+$x")) :=
    .inserted hplus (by decide +kernel) (by decide +kernel)
  have hsteps : Relation.ReflTransGen Token.Respaced line line' :=
    .tail (.tail (.tail .refl htrimmed) hreplaced) hinserted
  obtain ⟨htexts, halike⟩ := @evaluate_respaced Shelf _ _ _ hstray hsteps
  obtain ⟨hanswer, hnumerals, -, -⟩ := halike s true
  have hrun : (Action.run (evaluate line true) s).1 = .ok (utf8 "17") := by decide +kernel
  rw [hrun] at hanswer
  refine ⟨hstray, hsteps, htexts, hrun, hanswer.eq_ok, ?_⟩
  rw [← hnumerals]
  decide +kernel

/-!
## Lines and their canonical texts

The nodes of a line say everything about it. Written in their canonical texts they make a line that
is read into nodes of the same shapes, and so it is evaluated like the one they were taken from.
-/

/-- **Canonical texts are read back.** Let a line be read, and write its nodes, without the mark of
the end, in their canonical texts and with a space between neighbours. This text is read too, into
nodes of the same shapes, which is to say that they agree one for one in what they are, in their
canonical texts, numerals, radixes, targets and profiles. It is its own canonical text. From the
same session, with whatever storage, it has the same answer as the line, or fails in the same class
with the same kind and the same text at fault, and leaves the same names with the same numerals, the
same storage and as many saves. -/
theorem evaluate_canonical {line : Bytes} (h : (Line.read line).error = none) :
    (Line.read (Line.canonical line)).error = none
      ∧ (Line.read (Line.canonical line)).nodes.map Node.shape
        = (Line.read line).nodes.map Node.shape
      ∧ Line.canonical (Line.canonical line) = Line.canonical line
      ∧ ∀ (s : Session σ) (commit : Bool),
        AnsweredAlike (Action.run (evaluate line commit) s).1
            (Action.run (evaluate (Line.canonical line) commit) s).1
          ∧ (Action.run (evaluate line commit) s).2.Alike
            (Action.run (evaluate (Line.canonical line) commit) s).2 := by
  obtain ⟨hread, hshapes⟩ := Line.read_canonical h
  refine ⟨hread, hshapes, Line.canonical_canonical h, fun s commit ↦ ?_⟩
  exact evaluate_alike_of_shapes h hread hshapes commit s

/-- Signs that are fused with their numbers, a sign that is an operator, and capital digits. -/
theorem evaluate_canonical_negative :
    let line := utf8 "$y=( - 0XfF-- b1)-$x"
    let line' := utf8 "$y = ( -0xff - -b1 ) - $x"
    let s : Session Shelf :=
      { start none with store := NameMap.empty.insert (utf8 "$x") ⟨.ofText (utf8 "0.5"), 0⟩ }
    (Line.read line).error = none
      ∧ Line.canonical line = line'
      ∧ Line.canonical line' = line'
      ∧ (Action.run (evaluate line true) s).1 = .ok (utf8 "-254.5")
      ∧ (Action.run (evaluate line' true) s).1 = .ok (utf8 "-254.5") := by
  intro line line' s
  have hread : (Line.read line).error = none := by decide +kernel
  have hline : Line.canonical line = line' := by decide +kernel
  have hrun : (Action.run (evaluate line true) s).1 = .ok (utf8 "-254.5") := by decide +kernel
  obtain ⟨-, -, hself, halike⟩ := @evaluate_canonical Shelf _ line hread
  obtain ⟨hanswer, -⟩ := halike s true
  rw [hline] at hself hanswer
  rw [hrun] at hanswer
  exact ⟨hread, hline, hself, hrun, hanswer.eq_ok⟩

end Session

end Abacus
