import Abacus.Proofs.Except
import Abacus.Proofs.Line.Accepted
import Abacus.Proofs.Token.Wording

/-!
# Lines that are read alike

What may change in a line without a change of what it is read into.
-/

namespace Abacus

/-!
## Reading goes by the wording

Where the tokens of a line stand decides nothing when the line is read. Tokens of the same kinds and
lexemes are read into nodes of the same shapes, or refused with reports of the same kind about the
same text.
-/

theorem Token.text_eq_of_word {t t' : Token} (h : t.word = t'.word) : t.text = t'.text := by
  obtain ⟨kind, lexeme, position⟩ := t
  obtain ⟨kind', lexeme', position'⟩ := t'
  cases h
  rfl

namespace Line

/-- Errors with reports of the same kind about the same text. -/
def Error.Alike (e e' : Error) : Prop := e.fault.Alike e'.fault

theorem Error.alike_unexpected {t t' : Token} (ht : t.word = t'.word)
    (requirement requirement' : Requirement) :
    (unexpected t requirement).Alike (unexpected t' requirement') :=
  ⟨rfl, Token.text_eq_of_word ht⟩

/-! ### Progress -/

/-- Nodes of the same shapes have been read, and as many parentheses are open. -/
structure Progress.Alike (p p' : Progress) : Prop where
  shapes : p.recent.map Node.shape = p'.recent.map Node.shape
  depth : p.depth = p'.depth

namespace Progress.Alike

variable {p p' : Progress}

theorem push (h : p.Alike p') (shape : Node.Shape) (position position' : Nat) :
    (p.push shape position).Alike (p'.push shape position') :=
  ⟨congrArg (shape :: ·) h.shapes, h.depth⟩

theorem consume (h : p.Alike p') (t t' : Token) : (p.consume t).Alike (p'.consume t') :=
  ⟨h.shapes, h.depth⟩

theorem foldl_consume (h : p.Alike p') (ts ts' : List Token) :
    (ts.foldl Progress.consume p).Alike (ts'.foldl Progress.consume p') := by
  have hdepth : ∀ (q : Progress) (us : List Token),
      (us.foldl Progress.consume q).depth = q.depth := by
    intro q us
    induction us generalizing q with
    | nil => rfl
    | cons u us ih => exact ih (q.consume u)
  refine ⟨?_, ?_⟩
  · rw [recent_foldl_consume, recent_foldl_consume, h.shapes]
  · rw [hdepth, hdepth, h.depth]

theorem left?_cases (h : p.Alike p') :
    (p.left? = none ∧ p'.left? = none)
      ∨ ∃ n n', p.left? = some n ∧ p'.left? = some n' ∧ n.shape = n'.shape := by
  have hshapes := h.shapes
  unfold Progress.left?
  cases hp : p.recent with
  | nil =>
    rw [hp] at hshapes
    exact .inl ⟨rfl, by rw [List.map_eq_nil_iff.mp hshapes.symm]; rfl⟩
  | cons n recent =>
    rw [hp] at hshapes
    obtain ⟨n', recent', hp', hn, -⟩ := List.map_eq_cons_iff.mp hshapes.symm
    exact .inr ⟨n, n', rfl, by rw [hp']; rfl, hn.symm⟩

theorem any_kind (h : p.Alike p') (f : Node.Kind → Bool) :
    p.left?.any (f ·.kind) = p'.left?.any (f ·.kind) := by
  rcases h.left?_cases with ⟨hp, hp'⟩ | ⟨n, n', hp, hp', hn⟩
  · rw [hp, hp']
  · rw [hp, hp', Option.any_some, Option.any_some, Node.kind, Node.kind, hn]

theorem all_kind (h : p.Alike p') (f : Node.Kind → Bool) :
    p.left?.all (f ·.kind) = p'.left?.all (f ·.kind) := by
  rcases h.left?_cases with ⟨hp, hp'⟩ | ⟨n, n', hp, hp', hn⟩
  · rw [hp, hp']
  · rw [hp, hp', Option.all_some, Option.all_some, Node.kind, Node.kind, hn]

theorem any_endsOperand (h : p.Alike p') :
    p.left?.any Node.endsOperand = p'.left?.any Node.endsOperand :=
  h.any_kind fun kind ↦ kind.isValue || kind == .rparen

theorem operandDue (h : p.Alike p') : p.operandDue = p'.operandDue :=
  h.all_kind fun kind ↦ kind.isOperator || kind.opensOperand

theorem isEmpty (h : p.Alike p') : p.recent.isEmpty = p'.recent.isEmpty := by
  rw [← List.isEmpty_map (f := Node.shape), h.shapes, List.isEmpty_map]

end Progress.Alike

/-! ### Single tokens -/

theorem Places.exists_alike {p p' q : Progress} {t t' : Token} (h : Places p t q)
    (hp : p.Alike p') (ht : t.word = t'.word) : ∃ q', Places p' t' q' ∧ q.Alike q' := by
  obtain ⟨hkind, hlexeme⟩ := Prod.mk.inj ht
  cases h with
  | @equals name position hequals hrecent =>
    have hshapes := hp.shapes
    rw [hrecent] at hshapes
    obtain ⟨⟨shape, position'⟩, rest, hrecent', hshape, hrest⟩ :=
      List.map_eq_cons_iff.mp hshapes.symm
    obtain rfl : shape = .var name := hshape
    obtain rfl := List.map_eq_nil_iff.mp hrest
    exact ⟨_, .equals (hkind ▸ hequals) hrecent', rfl, hp.depth⟩
  | var hvar hdue =>
    refine ⟨_, .var (hkind ▸ hvar) (hp.operandDue ▸ hdue), ?_⟩
    rw [hlexeme]
    exact hp.push _ _ _
  | number hnumber hdue =>
    refine ⟨_, .number (hkind ▸ hnumber) (hp.operandDue ▸ hdue), ?_⟩
    rw [hlexeme]
    exact hp.push _ _ _
  | abs habs hdue => exact ⟨_, .abs (hkind ▸ habs) (hp.operandDue ▸ hdue), hp.push _ _ _⟩
  | output houtput hrecent =>
    have hempty := hp.isEmpty
    rw [hrecent] at hempty
    exact ⟨_, .output (hkind ▸ houtput) (List.isEmpty_iff.mp hempty.symm), hp.push _ _ _⟩
  | lparen hlparen hleft =>
    have hall := hp.all_kind fun kind ↦ (kind.isOperator || kind.opensOperand) || kind.isFunction
    exact ⟨_, .lparen (hkind ▸ hlparen) (hall ▸ hleft), (hp.push _ _ _).shapes,
      congrArg (· + 1) hp.depth⟩
  | rparen hrparen hdepth hleft =>
    exact ⟨_, .rparen (hkind ▸ hrparen) (hp.depth ▸ hdepth) (hp.any_endsOperand ▸ hleft),
      (hp.push _ _ _).shapes, congrArg (· - 1) hp.depth⟩
  | operator hoperator hleft =>
    exact ⟨_, .operator (hkind ▸ hoperator) (hp.any_endsOperand ▸ hleft), hp.push _ _ _⟩

theorem Progress.Alike.symm {p p' : Progress} (h : p.Alike p') : p'.Alike p :=
  ⟨h.shapes.symm, h.depth.symm⟩

theorem readToken_error_alike {p p' : Progress} {t t' : Token} {e : Error}
    (h : readToken p t = .error e) (hp : p.Alike p') (ht : t.word = t'.word) :
    ∃ e', readToken p' t' = .error e' ∧ e.Alike e' := by
  obtain ⟨requirement, rfl⟩ := exists_unexpected_of_readToken h
  cases h' : readToken p' t' with
  | ok q' =>
    obtain ⟨q, hq, -⟩ := (readToken_eq_ok_iff.mp h').exists_alike hp.symm ht.symm
    rw [readToken_of_places hq] at h
    cases h
  | error e' =>
    obtain ⟨requirement', rfl⟩ := exists_unexpected_of_readToken h'
    exact ⟨_, rfl, Error.alike_unexpected ht _ _⟩

theorem looksAhead_alike {p p' : Progress} {t t' : Token} (hp : p.Alike p')
    (ht : t.word = t'.word) : looksAhead p t = looksAhead p' t' := by
  rw [looksAhead, looksAhead, hp.any_endsOperand, (Prod.mk.inj ht).1]

/-! ### Lists of tokens -/

/-- Nodes of the same shapes have been read, and the errors are alike, if there are any. -/
structure Outcome.Alike (o o' : Outcome) : Prop where
  progress : o.progress.Alike o'.progress
  error : Option.Rel Error.Alike o.error o'.error

theorem Outcome.Alike.refuse {p p' : Progress} (hp : p.Alike p') {e e' : Error} (he : e.Alike e') :
    Outcome.Alike ⟨p, some e⟩ ⟨p', some e'⟩ := ⟨hp, .some he⟩

theorem aheadError?_alike {p p' : Progress} (hp : p.Alike p') (position position' : Nat) :
    Option.Rel Error.Alike (aheadError? p (.endOfLine position))
      (aheadError? p' (.endOfLine position')) := by
  rw [aheadError?, aheadError?, hp.depth]
  split
  · exact .some ⟨rfl, rfl⟩
  · exact .none

theorem endError?_alike {p p' : Progress} (hp : p.Alike p') (position position' : Nat) :
    Option.Rel Error.Alike (endError? p (.endOfLine position))
      (endError? p' (.endOfLine position')) := by
  unfold endError?
  rcases optionRel_cases (aheadError?_alike hp position position') with
    ⟨ha, ha'⟩ | ⟨e, e', ha, ha', he⟩
  · rw [ha, ha']
    rcases hp.left?_cases with ⟨hl, hl'⟩ | ⟨n, n', hl, hl', hn⟩
    · rw [hl, hl']
      exact .none
    · have hends : n.endsOperand = n'.endsOperand := by
        rw [Node.endsOperand, Node.endsOperand, Node.kind, Node.kind, hn]
      rw [hl, hl']
      dsimp only
      rw [hends]
      split
      · exact .none
      · exact .some ⟨rfl, congrArg Node.Shape.describe hn⟩
  · rw [ha, ha']
    exact .some he

theorem readEnd_alike {p p' : Progress} (hp : p.Alike p') (position position' : Nat) :
    (readEnd p (.endOfLine position)).Alike (readEnd p' (.endOfLine position')) := by
  unfold readEnd
  rcases optionRel_cases (endError?_alike hp position position') with
    ⟨ha, ha'⟩ | ⟨e, e', ha, ha', he⟩
  · rw [ha, ha']
    exact ⟨hp.push _ _ _, .none⟩
  · rw [ha, ha']
    exact .refuse hp he

/-- The form of a command is looked for among kinds and lexemes. -/
theorem Verb.shape?_words (verb : Verb) (ts : List Token) :
    verb.shape? ts = verb.shape? ((ts.map Token.word).map fun w ↦ ⟨w.1, w.2, 0⟩) := by
  rcases ts with _ | ⟨a, _ | ⟨b, _ | ⟨c, _ | ⟨d, ts⟩⟩⟩⟩
  · rfl
  · rfl
  · rfl
  · rfl
  · rfl

theorem readVerb_alike {p p' : Progress} (hp : p.Alike p') {t t' : Token} (ht : t.word = t'.word)
    {ts ts' : List Token} (hts : ts.map Token.word = ts'.map Token.word) (verb : Verb)
    (position position' : Nat) :
    (readVerb verb p t ts (.endOfLine position)).Alike
      (readVerb verb p' t' ts' (.endOfLine position')) := by
  have hdrained := hp.foldl_consume ts ts'
  have hshape : verb.shape? ts = verb.shape? ts' := by
    rw [Verb.shape?_words, hts, ← Verb.shape?_words]
  rw [readVerb, readVerb, hshape]
  split
  · exact ⟨(hdrained.push _ _ _).push _ _ _, .none⟩
  · exact .refuse hdrained (Error.alike_unexpected ht _ _)

/-- Tokens of the same kinds and lexemes are read alike, whatever has been read before them. -/
theorem readTokens_alike (ts : List Token) (p : Progress) (position position' : Nat) :
    ∀ ts' p', ts'.map Token.word = ts.map Token.word → p.Alike p' →
      (readTokens (.endOfLine position) ts p).Alike (readTokens (.endOfLine position') ts' p') := by
  fun_induction readTokens (.endOfLine position) ts p with
  | case1 p =>
    intro ts' p' hts hp
    obtain rfl := List.map_eq_nil_iff.mp hts
    exact readEnd_alike hp position position'
  | case2 t rest before p verb hverb hempty =>
    intro ts' p' hts hp
    obtain ⟨t', rest', rfl, ht, hrest⟩ := List.map_eq_cons_iff.mp hts
    have hp := hp.consume t t'
    rw [readTokens.eq_def]
    simp only [(Prod.mk.inj ht).1, hverb, ← hp.isEmpty]
    rw [if_pos hempty]
    exact readVerb_alike hp ht.symm hrest.symm verb position position'
  | case3 t rest before p verb hverb hempty =>
    intro ts' p' hts hp
    obtain ⟨t', rest', rfl, ht, hrest⟩ := List.map_eq_cons_iff.mp hts
    have hp := hp.consume t t'
    rw [readTokens.eq_def]
    simp only [(Prod.mk.inj ht).1, hverb, ← hp.isEmpty]
    rw [if_neg hempty]
    exact .refuse hp (Error.alike_unexpected ht.symm _ _)
  | case4 t before p hverb hlook next rest hnext ih =>
    intro ts' p' hts hp
    obtain ⟨t', rest', rfl, ht, hrest⟩ := List.map_eq_cons_iff.mp hts
    obtain ⟨next', rest', rfl, hnext', hrest⟩ := List.map_eq_cons_iff.mp hrest
    obtain ⟨hkind, hlexeme⟩ := Prod.mk.inj hnext'
    have hminus : t'.kind = .operator .sub := (Prod.mk.inj ht).1.trans (kind_of_looksAhead hlook)
    have hdue : p'.operandDue = true := (hp.consume t t').operandDue ▸ hnext.2
    rw [readTokens_cons_negative hminus (hkind.trans hnext.1) hdue]
    refine ih _ _ hrest ?_
    rw [pushNegative, pushNegative, hlexeme]
    exact ((hp.consume t t').consume next next').push _ _ _
  | case5 t before p hverb hlook next rest hnext =>
    intro ts' p' hts hp
    obtain ⟨t', rest', rfl, ht, hrest⟩ := List.map_eq_cons_iff.mp hts
    obtain ⟨next', rest', rfl, hnext', hrest⟩ := List.map_eq_cons_iff.mp hrest
    have hp := hp.consume t t'
    rw [readTokens.eq_def]
    simp only [(Prod.mk.inj ht).1, hverb, ← looksAhead_alike hp ht.symm, (Prod.mk.inj hnext').1,
      ← hp.operandDue]
    rw [if_pos hlook, if_neg hnext]
    exact .refuse hp (Error.alike_unexpected ht.symm _ _)
  | case6 t before p hverb hlook =>
    intro ts' p' hts hp
    obtain ⟨t', rest', rfl, ht, hrest⟩ := List.map_eq_cons_iff.mp hts
    obtain rfl := List.map_eq_nil_iff.mp hrest
    have hp := hp.consume t t'
    rw [readTokens.eq_def]
    simp only [(Prod.mk.inj ht).1, hverb, ← looksAhead_alike hp ht.symm]
    rw [if_pos hlook]
    refine .refuse hp ?_
    -- what is ahead is to blame before the sign is
    rcases optionRel_cases (aheadError?_alike hp position position') with
      ⟨ha, ha'⟩ | ⟨e, e', ha, ha', he⟩
    · rw [ha, ha']
      exact Error.alike_unexpected ht.symm _ _
    · rw [ha, ha']
      exact he
  | case7 t rest before p hverb hlook q hread ih =>
    intro ts' p' hts hp
    obtain ⟨t', rest', rfl, ht, hrest⟩ := List.map_eq_cons_iff.mp hts
    obtain ⟨q', hq', halike⟩ :=
      (places_of_readToken hread).exists_alike (hp.consume t t') ht.symm
    rw [readTokens_cons_of_places hq']
    exact ih _ _ hrest halike
  | case8 t rest before p hverb hlook e hread =>
    intro ts' p' hts hp
    obtain ⟨t', rest', rfl, ht, hrest⟩ := List.map_eq_cons_iff.mp hts
    have hp := hp.consume t t'
    obtain ⟨e', hread', he⟩ := readToken_error_alike hread hp ht.symm
    rw [readTokens.eq_def]
    simp only [(Prod.mk.inj ht).1, hverb, ← looksAhead_alike hp ht.symm, hread']
    rw [if_neg hlook]
    exact .refuse hp he

/-! ### Lines -/

theorem map_word_significant (line : Bytes) :
    (significant line).map Token.word
      = (Token.wording line).filter fun w ↦ w.1 != .endOfLine := by
  rw [significant, Token.wording, Token.words, List.filter_map, List.filter_filter]
  exact congrArg (List.map Token.word) (List.filter_congr fun t _ ↦ Bool.and_comm _ _)

/-- Whatever tokens have the kinds and lexemes of those of a line, they are read like the line. -/
theorem alike_outcome {line : Bytes} (hstray : Token.Kind.stray ∉ (Token.scan line).map Token.kind)
    {ts : List Token} (hts : ts.map Token.word = (significant line).map Token.word)
    (position : Nat) : (readTokens (.endOfLine position) ts .start).Alike (outcome line) := by
  rw [outcome, lexemes_of_no_stray hstray]
  exact readTokens_alike ts .start position line.length _ _ hts.symm ⟨rfl, rfl⟩

/-- Where reading has not failed, the check of the mark at the end does not fail either. -/
theorem error?_outcome (line : Bytes) : (outcome line).error? = (outcome line).error := by
  unfold Outcome.error?
  split
  · next h => exact h.symm
  · next h =>
    have hmark : (outcome line).progress.left?.any (·.shape == .endOfLine) = true :=
      left?_of_readTokens h
    rw [hmark, if_pos rfl, h]

/-- The line of some tokens has the nodes of the sentence that these are, wherever they stand. -/
theorem read_of_sentence_alike {line : Bytes}
    (hstray : Token.Kind.stray ∉ (Token.scan line).map Token.kind) {ts : List Token}
    (hts : ts.map Token.word = (significant line).map Token.word) {ns : List Node}
    (h : Sentence ts ns) :
    (read line).error = none
      ∧ (read line).nodes.map Node.shape = ns.map Node.shape ++ [.endOfLine] := by
  obtain ⟨p, hp, hread⟩ := h.readTokens line.length
  have halike := alike_outcome hstray hts line.length
  rw [hread] at halike
  have herror : (outcome line).error? = none := by
    rw [error?_outcome]
    rcases optionRel_cases halike.error with ⟨-, h⟩ | ⟨e, e', h, -⟩
    · exact h
    · cases h
  refine ⟨herror, ?_⟩
  have hshapes := halike.progress.shapes
  rw [Progress.recent_push, List.map_cons, hp] at hshapes
  rw [read, Outcome.nodes, herror]
  dsimp only
  rw [Progress.nodes, List.map_reverse, ← hshapes]
  simp

/-- Lines of one wording are read into nodes of the same shapes, or are refused alike. -/
theorem read_alike {line line' : Bytes}
    (hstray : Token.Kind.stray ∉ (Token.scan line).map Token.kind)
    (hwording : Token.wording line' = Token.wording line) :
    Option.Rel Error.Alike (read line).error (read line').error := by
  have hstray' : Token.Kind.stray ∉ (Token.scan line').map Token.kind := by
    rwa [Token.stray_mem_scan_iff, hwording, ← Token.stray_mem_scan_iff]
  have hts : (significant line).map Token.word = (significant line').map Token.word := by
    rw [map_word_significant, map_word_significant, hwording]
  have halike := alike_outcome hstray' hts line.length
  rw [read, read, error?_outcome, error?_outcome, outcome, lexemes_of_no_stray hstray]
  exact halike.error

/-!
## A phrase in place of a variable

In a sentence every variable that is an operand may be replaced by a phrase that is an operand
itself, and the nodes of the sentence change in the same way.
-/

/-- Tokens in place of each variable of some name. -/
def replaceTokens (name : Bytes) (phrase ts : List Token) : List Token :=
  ts.flatMap fun t ↦ if t.word = (.var, name) then phrase else [t]

/-- Nodes in place of each variable of some name. -/
def replaceNodes (name : Bytes) (phrase ns : List Node) : List Node :=
  ns.flatMap fun n ↦ if n.shape = .var name then phrase else [n]

section

variable {name : Bytes}

@[simp]
theorem replaceTokens_nil (phrase : List Token) : replaceTokens name phrase [] = [] := rfl

theorem replaceTokens_cons_of_ne (phrase : List Token) {t : Token} (ht : t.word ≠ (.var, name))
    (ts : List Token) :
    replaceTokens name phrase (t :: ts) = t :: replaceTokens name phrase ts := by
  rw [replaceTokens, List.flatMap_cons, if_neg ht]
  rfl

@[simp]
theorem replaceTokens_cons_of_kind (phrase : List Token) {t : Token} (ht : t.kind ≠ .var)
    (ts : List Token) : replaceTokens name phrase (t :: ts) = t :: replaceTokens name phrase ts :=
  replaceTokens_cons_of_ne phrase (fun h ↦ ht (Prod.mk.inj h).1) ts

@[simp]
theorem replaceTokens_append (phrase ts ts' : List Token) :
    replaceTokens name phrase (ts ++ ts')
      = replaceTokens name phrase ts ++ replaceTokens name phrase ts' := List.flatMap_append

@[simp]
theorem replaceNodes_nil (phrase : List Node) : replaceNodes name phrase [] = [] := rfl

@[simp]
theorem replaceNodes_cons_of_ne (phrase : List Node) {shape : Node.Shape} (h : shape ≠ .var name)
    (position : Nat) (ns : List Node) :
    replaceNodes name phrase (⟨shape, position⟩ :: ns)
      = ⟨shape, position⟩ :: replaceNodes name phrase ns := by
  rw [replaceNodes, List.flatMap_cons, if_neg h]
  rfl

@[simp]
theorem replaceNodes_append (phrase ns ns' : List Node) :
    replaceNodes name phrase (ns ++ ns')
      = replaceNodes name phrase ns ++ replaceNodes name phrase ns' := List.flatMap_append

theorem flatMap_of_not_mem {α : Type} [DecidableEq α] {a : α} {l : List α} (h : a ∉ l)
    (as : List α) : (l.flatMap fun b ↦ if b = a then as else [b]) = l := by
  refine (List.flatMap_congr fun b hb ↦ if_neg ?_).trans (List.flatMap_singleton' l)
  rintro rfl
  exact h hb

theorem map_word_replaceTokens (phrase ts : List Token) :
    (replaceTokens name phrase ts).map Token.word
      = (ts.map Token.word).flatMap fun w ↦
        if w = (.var, name) then phrase.map Token.word else [w] := by
  rw [replaceTokens, List.map_flatMap, List.flatMap_map]
  refine List.flatMap_congr fun t _ ↦ ?_
  split
  · rfl
  · rfl

/-! ### Phrases -/

theorem Derives.replace {gs : List Token} {gns : List Node} (hg : Derives .operand gs gns)
    {phrase : Phrase} {ts : List Token} {ns : List Node} (h : Derives phrase ts ns) :
    Derives phrase (replaceTokens name gs ts) (replaceNodes name gns ns) := by
  induction h with
  | number ht => simpa [ht] using Derives.number ht
  | negative hminus ht => simpa [hminus, ht] using Derives.negative hminus ht
  | @var t ht =>
    by_cases hname : t.lexeme = name
    · have hword : t.word = (.var, name) := Prod.ext ht hname
      simpa [replaceTokens, replaceNodes, hword, hname] using hg
    · have hword : t.word ≠ (.var, name) := fun heq ↦ hname (Prod.mk.inj heq).2
      rw [replaceTokens_cons_of_ne gs hword]
      simpa [hname] using Derives.var ht
  | group hl _ hr ih => simpa [hl, hr] using Derives.group hl ih hr
  | abs ha hl _ hr ih => simpa [ha, hl, hr] using Derives.abs ha hl ih hr
  | single _ ih => exact .single ih
  | chain _ ht _ ih ih' => simpa [ht] using Derives.chain ih ht ih'

theorem Derives.mem_var {phrase : Phrase} {ts : List Token} {ns : List Node}
    (h : Derives phrase ts ns) {position : Nat} (hmem : ⟨.var name, position⟩ ∈ ns) :
    ⟨.var, name, position⟩ ∈ ts := by
  induction h with
  | number | negative => cases List.mem_singleton.mp hmem
  | @var t ht =>
    obtain ⟨kind, lexeme, q⟩ := t
    obtain rfl : kind = .var := ht
    cases List.mem_singleton.mp hmem
    exact List.mem_cons_self
  | group _ _ _ ih => simp [ih (by simpa using hmem)]
  | abs _ _ _ _ ih => simp [ih (by simpa using hmem)]
  | single _ ih => exact ih hmem
  | chain _ _ _ ih ih' =>
    rcases List.mem_append.mp hmem with hmem | hmem
    · exact List.mem_append_left _ (ih hmem)
    · exact List.mem_append_right _ (List.mem_cons_of_mem _ (ih' (by simpa using hmem)))

/-! ### Sentences -/

/-- A sentence with an operand in place of a variable other than its target is a sentence. -/
theorem Sentence.replace {gs : List Token} {gns : List Node} (hg : Derives .operand gs gns)
    {ts : List Token} {ns : List Node} (h : Sentence ts ns)
    (htarget : ∀ position rest, ns ≠ ⟨.assign name, position⟩ :: rest) :
    Sentence (replaceTokens name gs ts) (replaceNodes name gns ns) := by
  cases h with
  | blank => exact .blank
  | clear ht hl hr => simpa [ht, hl, hr] using Sentence.clear ht hl hr
  | save ht hl hname hr => simpa [ht, hl, hname, hr] using Sentence.save ht hl hname hr
  | load ht hl hname hr => simpa [ht, hl, hname, hr] using Sentence.load ht hl hname hr
  | plain h => exact .plain (hg.replace h)
  | output ht h => simpa [ht] using Sentence.output ht (hg.replace h)
  | @assign target equals ts ns ht he h =>
    -- the target is not the variable, so it stays
    have hword : target.word ≠ (.var, name) := fun heq ↦
      htarget target.position ns (by rw [(Prod.mk.inj heq).2])
    rw [replaceTokens_cons_of_ne gs hword]
    simpa [he] using Sentence.assign ht he (hg.replace h)

end

end Line

end Abacus
