import Abacus.Profile
import Abacus.Proofs.Evaluation.Alike
import Abacus.Proofs.Session.Alike

/-!
# A variable stands for its expression

Behind an assignment the variable may be read, or its expression may be written in parentheses where
the variable stands: a line comes to the same either way. The text with the parentheses is scanned
and read anew, and its tree is the one with the expression in place of the variable because the
parentheses keep it together.
-/

namespace Abacus

/-! ## Texts -/

namespace Token

/-- What an assignment says: the parts of it do not run into each other. -/
theorem wording_assignment {x : Bytes} (hx : Lexeme x .var) (e : Bytes) :
    wording (x ++ (utf8 " = " ++ e)) = (.var, x) :: (.equals, utf8 "=") :: wording e := by
  have hequals : Lexeme (utf8 "=") .equals := .symbol .equals
  have hsplit : utf8 " = " ++ e = utf8 " " ++ (utf8 "=" ++ (utf8 " " ++ e)) := rfl
  rw [hsplit, hx.wording_space nofun, hequals.wording_space nofun]

/-- What a line says that has a text in parentheses at a place where it was cut up. -/
theorem Says.wording_parentheses {u v e : Bytes} {ws es : List (Kind × Bytes)} (h : Says u v ws)
    (he : Says e [] es) (rest : Bytes) :
    wording (u ++ (utf8 "(" ++ (e ++ (utf8 ")" ++ rest))))
      = ws ++ (.lparen, utf8 "(") :: (es ++ (.rparen, utf8 ")") :: wording rest) := by
  rw [(h.of_delimits (delimits_lparen _)).wording_append,
    wording_of_lexeme? (lexeme?_lparen _) nofun,
    (he.of_delimits (delimits_rparen _)).wording_append,
    wording_of_lexeme? (lexeme?_rparen _) nofun]

end Token

/-! ## The assignment -/

namespace Line

/-- A line that is read into a statement. -/
structure ReadsAs (line : Bytes) (statement : Statement) : Prop where
  read : Line.read line = ⟨statement.nodes ++ [⟨.endOfLine, line.length⟩], none⟩
  graded : statement.expr.Graded

theorem exists_readsAs_assign {x e : Bytes} (hx : Token.Lexeme x .var)
    (hread : (read (x ++ (utf8 " = " ++ e))).error = none) :
    ∃ position ts, ∃ inner : Expr, Derives .expression ts inner.nodes
      ∧ ts.map Token.word = (Token.wording e).filter (fun w ↦ w.1 != .endOfLine)
      ∧ ReadsAs (x ++ (utf8 " = " ++ e)) (.assign x position inner) := by
  obtain ⟨hstray, ns, hns⟩ := sentence_of_read hread
  have hline := read_of_sentence hstray hns
  have hwords := map_word_significant (x ++ (utf8 " = " ++ e))
  rw [Token.wording_assignment hx, List.filter_cons_of_pos rfl, List.filter_cons_of_pos rfl]
    at hwords
  generalize significant (x ++ (utf8 " = " ++ e)) = ts at hns hwords
  cases hns with
  | blank => cases hwords
  | clear ht | save ht | load ht | output ht =>
    have hkind := (Prod.mk.inj (List.cons.inj hwords).1).1
    rw [ht] at hkind
    cases hkind
  | plain h =>
    obtain ⟨t, rest, rfl, -, hrest⟩ := List.map_eq_cons_iff.mp hwords
    obtain ⟨t', rest, rfl, ht', -⟩ := List.map_eq_cons_iff.mp hrest
    exact absurd (Prod.mk.inj ht').1 (h.ne_equals t' (by simp))
  | @assign target equals ts ns ht he h =>
    obtain ⟨htarget, hrest⟩ := List.cons.inj hwords
    obtain rfl : target.lexeme = x := (Prod.mk.inj htarget).2
    obtain ⟨inner, rfl, hgraded, -⟩ := h.exists_graded
    exact ⟨target.position, ts, inner, h, (List.cons.inj hrest).2, hline, hgraded⟩

/-! ## The place of the variable -/

/-- Some tokens in parentheses. -/
def parenthesized (ts : List Token) : List Token :=
  ⟨.lparen, utf8 "(", 0⟩ :: (ts ++ [⟨.rparen, utf8 ")", 0⟩])

/-- A line that was read, made of a text, a variable and another text, where the variable is an
operand, and is no other token of the line. -/
structure ReadsOnce (u x v : Bytes) : Prop where
  read : (Line.read (u ++ (x ++ v))).error = none
  once : (Token.scan (u ++ (x ++ v))).filter (fun t ↦ t.lexeme = x) = [⟨.var, x, u.length⟩]
  operand : ⟨.var x, u.length⟩ ∈ (Line.read (u ++ (x ++ v))).nodes

namespace ReadsOnce

variable {u x v : Bytes}

theorem mem_scan (h : ReadsOnce u x v) : ⟨.var, x, u.length⟩ ∈ Token.scan (u ++ (x ++ v)) := by
  have hmem : (⟨.var, x, u.length⟩ : Token)
      ∈ (Token.scan (u ++ (x ++ v))).filter (fun t ↦ t.lexeme = x) := by
    rw [h.once]
    exact List.mem_cons_self
  exact (List.mem_filter.mp hmem).1

theorem lexeme? (h : ReadsOnce u x v) : Token.lexeme? (x ++ v) = some (x, .var) := by
  have hcut := Token.lexeme?_of_mem_scan h.mem_scan ⟨nofun, nofun⟩
  rwa [List.drop_left] at hcut

theorem wording {ws : List (Token.Kind × Bytes)} (h : ReadsOnce u x v)
    (hws : Token.Says u (x ++ v) ws) :
    Token.wording (u ++ (x ++ v)) = ws ++ (.var, x) :: Token.wording v := by
  rw [hws.wording_append, Token.wording_of_lexeme? h.lexeme? nofun]

theorem not_mem {ws : List (Token.Kind × Bytes)} (h : ReadsOnce u x v)
    (hws : Token.Says u (x ++ v) ws) : (.var, x) ∉ ws ∧ (.var, x) ∉ Token.wording v := by
  have hwords : (Token.wording (u ++ (x ++ v))).filter (fun w ↦ w.2 = x) = [(.var, x)] := by
    rw [Token.wording, Token.words, List.filter_map, List.filter_comm]
    show (((Token.scan _).filter fun t ↦ decide (t.lexeme = x)).filter _).map Token.word = _
    rw [h.once]
    rfl
  rw [h.wording hws, List.filter_append, List.filter_cons_of_pos (by simp)] at hwords
  have hlength := congrArg List.length hwords
  simp only [List.length_append, List.length_cons, List.length_nil] at hlength
  have hfront : ws.filter (fun w ↦ w.2 = x) = [] := List.length_eq_zero_iff.mp (by omega)
  have hrest : (Token.wording v).filter (fun w ↦ w.2 = x) = [] :=
    List.length_eq_zero_iff.mp (by omega)
  rw [List.filter_eq_nil_iff] at hfront hrest
  exact ⟨fun hmem ↦ hfront _ hmem (by simp), fun hmem ↦ hrest _ hmem (by simp)⟩

theorem ne_assign (h : ReadsOnce u x v) {ns : List Node}
    (hns : Sentence (significant (u ++ (x ++ v))) ns) (position : Nat) (rest : List Node) :
    ns ≠ ⟨.assign x, position⟩ :: rest := by
  rintro rfl
  have hmem := h.operand
  have honce : (significant (u ++ (x ++ v))).filter (fun t ↦ t.lexeme = x)
      = [⟨.var, x, u.length⟩] := by
    rw [significant, List.filter_comm, h.once]
    rfl
  rw [read_of_sentence (sentence_of_read h.read).1 hns] at hmem
  generalize significant (u ++ (x ++ v)) = ts at hns honce
  generalize hassign : (⟨.assign x, position⟩ : Node) :: rest = ns at hns hmem
  cases hns with
  | blank | clear | save | load | output => cases hassign
  | plain hderives =>
    obtain ⟨e, rfl, -, -⟩ := hderives.exists_graded
    exact e.nodes_ne_cons rfl _ hassign.symm
  | @assign target equals ts ns ht he hderives =>
    cases hassign
    -- the target and the operand would be two tokens
    have hoperand : ⟨.var, target.lexeme, u.length⟩ ∈ ts := hderives.mem_var (by simpa using hmem)
    rw [List.filter_cons_of_pos (by simp), List.cons.injEq, List.filter_eq_nil_iff] at honce
    exact honce.2 _ (List.mem_cons_of_mem _ hoperand) (by simp)

/-- The tokens of the line with a text in parentheses in place of the variable are those of the line
with an expression in place of the variable. -/
theorem words_parentheses (h : ReadsOnce u x v) {e : Bytes}
    (he : Token.Kind.stray ∉ (Token.scan e).map Token.kind) {ts : List Token}
    (hts : ts.map Token.word = (Token.wording e).filter (fun w ↦ w.1 != .endOfLine)) :
    Token.Kind.stray ∉
        (Token.scan (u ++ (utf8 "(" ++ (e ++ (utf8 ")" ++ v))))).map Token.kind
      ∧ (replaceTokens x (parenthesized ts) (significant (u ++ (x ++ v)))).map Token.word
        = (significant (u ++ (utf8 "(" ++ (e ++ (utf8 ")" ++ v))))).map Token.word := by
  obtain ⟨ws, hws⟩ := Token.exists_says h.mem_scan (Nat.zero_add _).symm
  obtain ⟨es, hes⟩ := Token.exists_says_of_no_stray he
  have hline := h.wording hws
  have hstray := (sentence_of_read h.read).1
  have hnew := hws.wording_parentheses hes v
  have hend := hes.wording_append
  rw [List.append_nil, Token.wording_nil] at hend
  rw [Token.stray_mem_scan_iff] at he hstray ⊢
  rw [hend] at he hts
  rw [hline] at hstray
  refine ⟨?_, ?_⟩
  · rw [hnew]
    simp only [List.map_append, List.map_cons, List.mem_append, List.mem_cons, reduceCtorEq,
      false_or, not_or] at he hstray ⊢
    exact ⟨hstray.1, he.1, hstray.2⟩
  · obtain ⟨hfront, hrest⟩ := h.not_mem hws
    have hfront' : (.var, x) ∉ ws.filter (fun w ↦ w.1 != .endOfLine) := fun hmem ↦
      hfront (List.mem_filter.mp hmem).1
    have hrest' : (.var, x) ∉ (Token.wording v).filter (fun w ↦ w.1 != .endOfLine) := fun hmem ↦
      hrest (List.mem_filter.mp hmem).1
    rw [map_word_replaceTokens, map_word_significant, map_word_significant, hline, hnew]
    simp [parenthesized, Token.word, hts, flatMap_of_not_mem hfront', flatMap_of_not_mem hrest']

end ReadsOnce

end Line

/-! ## The statement -/

namespace Statement

/-- A statement with a tree in place of each operand that is a variable of some name. -/
def replace (name : Bytes) (operand : Expr) : Statement → Statement
  | plain e => plain (.replace name operand e)
  | output radix position e => output radix position (.replace name operand e)
  | assign target position e => assign target position (.replace name operand e)

variable {name : Bytes} {operand : Expr}

theorem expr_replace (statement : Statement) :
    (statement.replace name operand).expr = .replace name operand statement.expr := by
  cases statement with
  | plain | output | assign => rfl

theorem nodes_replace (statement : Statement) :
    (statement.replace name operand).nodes
      = Line.replaceNodes name operand.nodes statement.nodes := by
  cases statement with
  | plain e => exact Expr.nodes_replace e
  | output _ _ e | assign _ _ e => simp [replace, nodes, Expr.nodes_replace]

theorem graded_replace (hrank : operand.rank = 4) (hoperand : operand.Graded)
    {statement : Statement} (h : statement.expr.Graded) :
    (statement.replace name operand).expr.Graded := by
  rw [expr_replace]
  exact Expr.Graded.replace hrank hoperand h

theorem resembles_replace {store store' : Store}
    (h : ∀ e : Expr, e.Resembles store store' (.replace name operand e)) (statement : Statement) :
    statement.Resembles store store' (statement.replace name operand) := by
  cases statement with
  | plain e => exact .plain (h e)
  | output radix position e => exact .output (h e)
  | assign target position e => exact .assign (h e)

end Statement

/-! ## The two lines -/

namespace Line.ReadsOnce

variable {u x v : Bytes}

theorem exists_readsAs (h : ReadsOnce u x v) :
    ∃ statement : Statement, Sentence (significant (u ++ (x ++ v))) statement.nodes
      ∧ ReadsAs (u ++ (x ++ v)) statement := by
  obtain ⟨hstray, ns, hns⟩ := sentence_of_read h.read
  have hline := read_of_sentence hstray hns
  have hmem := h.operand
  rw [hline] at hmem
  rcases hns.cases with rfl | ⟨p, rfl⟩ | ⟨name, p, rfl⟩ | ⟨name, p, rfl⟩
    | ⟨statement, hgraded, rfl⟩
  · simp at hmem
  · simp at hmem
  · simp at hmem
  · simp at hmem
  · exact ⟨statement, hns, hline, hgraded⟩

/-- With an expression in parentheses in place of the variable, the line is read into the statement
with the tree of the expression in place of the variable. -/
theorem exists_readsAs_parentheses (h : ReadsOnce u x v) {e : Bytes}
    (he : Token.Kind.stray ∉ (Token.scan e).map Token.kind) {ts : List Token} {inner : Expr}
    (hderives : Derives .expression ts inner.nodes)
    (hts : ts.map Token.word = (Token.wording e).filter (fun w ↦ w.1 != .endOfLine))
    {statement : Statement} (hns : Sentence (significant (u ++ (x ++ v))) statement.nodes) :
    ∃ statement' : Statement, ReadsAs (u ++ (utf8 "(" ++ (e ++ (utf8 ")" ++ v)))) statement'
      ∧ (statement.replace x (.group 0 inner 0)).nodes.map Node.shape
        = statement'.nodes.map Node.shape := by
  have hoperand : Derives .operand (parenthesized ts) (Expr.group 0 inner 0).nodes :=
    .group rfl hderives rfl
  obtain ⟨hstray, hwords⟩ := h.words_parentheses he hts
  -- tokens that the text may not have in these places, but that say the same
  have hreplaced := hns.replace hoperand (h.ne_assign hns)
  rw [← Statement.nodes_replace] at hreplaced
  obtain ⟨hread, hshapes⟩ := read_of_sentence_alike hstray hwords hreplaced
  obtain ⟨-, ns', hns'⟩ := sentence_of_read hread
  have hline := read_of_sentence hstray hns'
  rw [hline, List.map_append] at hshapes
  have hshapes := List.append_cancel_right hshapes
  obtain ⟨statement', hgraded', rfl⟩ := hns'.exists_statement hshapes
  exact ⟨statement', ⟨hline, hgraded'⟩, hshapes.symm⟩

end Line.ReadsOnce

namespace Session

variable {σ : Type}

/-- Behind the assignment a statement comes to what it came to before with the tree of the
expression in place of the variable. -/
theorem passAnswer_assign {s : Session σ} {inner : Expr} {value : Value}
    (hvalue : inner.passValue s.store = .ok value) (x : Bytes) (position : Nat)
    (statement : Statement) :
    Matches Evaluation.Error.Alike Eq
      (statement.passAnswer (s.assign x position value.numeral.text).store)
      ((statement.replace x (.group 0 inner 0)).passAnswer s.store) := by
  refine Statement.passAnswer_alike (Statement.resembles_replace (fun e ↦ ?_) statement)
  have hfind : (s.store.insert x ⟨.ofText value.numeral.text, position⟩).find? x
      = some ⟨.ofText value.numeral.text, position⟩ := by
    rw [NameMap.find?_insert, if_pos rfl]
  refine Expr.resembles_replace hfind hvalue rfl (fun other hne ↦ ?_) 0 0 e
  rw [NameMap.find?_insert, if_neg hne.symm]

variable [ProfileStorage σ] {s s' : Session σ}

theorem run_evaluate_of_readsAs {line : Bytes} {statement : Statement}
    (h : Line.ReadsAs line statement) (commit : Bool) (s : Session σ) :
    Action.run (evaluate line commit) s
      = match statement.passAnswer s.store with
        | .ok text => (.ok text, statement.effect commit text s)
        | .error e => (.error (.evaluating e), s) := by
  rw [evaluate, h.read]
  exact run_exec_statement h.graded line.length commit s

theorem assign_of_run_evaluate {x line text : Bytes} {position : Nat} {inner : Expr}
    (hread : Line.ReadsAs line (.assign x position inner))
    (h : Action.run (evaluate line true) s = (.ok text, s')) :
    ∃ v, inner.passValue s.store = .ok v ∧ s' = s.assign x position v.numeral.text := by
  rw [run_evaluate_of_readsAs hread] at h
  cases hanswer : (Statement.assign x position inner).passAnswer s.store with
  | error =>
    rw [hanswer] at h
    cases h
  | ok answer =>
    rw [hanswer] at h
    obtain ⟨v, hv, hanswer⟩ := bind_eq_ok_iff.mp hanswer
    obtain ⟨_, -, hanswer⟩ := bind_eq_ok_iff.mp hanswer
    cases hanswer
    exact ⟨v, hv, (Prod.mk.inj h).2.symm⟩

/-- **A variable stands for its expression.** Let an assignment to a variable be committed and
succeed, from whatever session, and let a line be read that has the variable as an operand at one
place and has it nowhere else. Then the line behind the assignment has the same answer as the line,
before the assignment, with the expression in parentheses in place of the variable, or both fail
with the same kind of report about the same text. -/
theorem evaluate_substituted {x e u v text : Bytes} (hx : Token.Lexeme x .var)
    (hassign : Action.run (evaluate (x ++ (utf8 " = " ++ e)) true) s = (.ok text, s'))
    (honce : Line.ReadsOnce u x v) (commit commit' : Bool) :
    AnsweredAlike (Action.run (evaluate (u ++ (x ++ v)) commit) s').1
      (Action.run (evaluate (u ++ (utf8 "(" ++ (e ++ (utf8 ")" ++ v)))) commit') s).1 := by
  have hassigned := read_of_run_evaluate hassign
  have hstray : Token.Kind.stray ∉ (Token.scan e).map Token.kind := by
    have hline := (Line.sentence_of_read hassigned).1
    rw [Token.stray_mem_scan_iff, Token.wording_assignment hx] at hline
    rw [Token.stray_mem_scan_iff]
    exact fun hmem ↦ hline (List.mem_cons_of_mem _ (List.mem_cons_of_mem _ hmem))
  obtain ⟨position, ts, inner, hderives, hwords, hreadAssign⟩ :=
    Line.exists_readsAs_assign hx hassigned
  obtain ⟨value, hvalue, rfl⟩ := assign_of_run_evaluate hreadAssign hassign
  obtain ⟨statement, hns, hread⟩ := honce.exists_readsAs
  obtain ⟨statement', hread', hshapes⟩ :=
    honce.exists_readsAs_parentheses hstray hderives hwords hns
  have hgroup : (Expr.group 0 inner 0).Graded := hreadAssign.graded
  -- the tree in place of the variable is an operand that stays together
  have hreplaced : (statement.replace x (.group 0 inner 0)).expr.Graded :=
    Statement.graded_replace rfl hgroup hread.graded
  have hinPlace := passAnswer_assign hvalue x position statement
  have hplaced := Statement.passAnswer_alike
    (Statement.resembles_of_shapes s.store hreplaced hread'.graded hshapes)
  rw [evaluate, hread.read, evaluate, hread'.read]
  refine answeredAlike_exec hread.graded hread'.graded ?_ _ _ commit commit'
  exact hinPlace.trans (fun _ _ _ h h' ↦ h.trans h') (fun _ _ _ h h' ↦ h.trans h') hplaced

/-- An assignment from a stored numeral, and a line with the variable in a product. -/
theorem evaluate_substituted_product :
    let a : Value := ⟨.ofText (utf8 "0x3"), 0⟩
    let s : Session Shelf := { start none with store := NameMap.empty.insert (utf8 "$a") a }
    let s' := (Action.run (evaluate (utf8 "$x = $a - 1") true) s).2
    Token.Lexeme (utf8 "$x") .var
      ∧ Action.run (evaluate (utf8 "$x = $a - 1") true) s = (.ok (utf8 "2"), s')
      ∧ Line.ReadsOnce (utf8 "hex(abs(") (utf8 "$x") (utf8 " * $a - 30))")
      ∧ (Action.run (evaluate (utf8 "hex(abs($x * $a - 30))") false) s').1 = .ok (utf8 "0x18")
      ∧ (Action.run (evaluate (utf8 "hex(abs(($a - 1) * $a - 30))") false) s).1
        = .ok (utf8 "0x18") := by
  intro a s s'
  have hx : Token.Lexeme (utf8 "$x") .var := .var (w := utf8 "x") (by decide +kernel)
  have hassign : Action.run (evaluate (utf8 "$x = $a - 1") true) s = (.ok (utf8 "2"), s') :=
    Prod.ext (by decide +kernel) rfl
  have honce : Line.ReadsOnce (utf8 "hex(abs(") (utf8 "$x") (utf8 " * $a - 30))") :=
    ⟨by decide +kernel, by decide +kernel, by decide +kernel⟩
  have hrun : (Action.run (evaluate (utf8 "hex(abs($x * $a - 30))") false) s').1
      = .ok (utf8 "0x18") := by decide +kernel
  have halike := evaluate_substituted (e := utf8 "$a - 1") hx hassign honce false false
  exact ⟨hx, hassign, honce, hrun, (hrun ▸ halike : AnsweredAlike _ _).eq_ok⟩

end Session

end Abacus
