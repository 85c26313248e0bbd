import Abacus.Line
import Abacus.Proofs.Except
import Abacus.Proofs.Line.Grammar

/-!
# Reading without its state

Where a token may stand, and that reading accepts the sentences of the grammar.
-/

namespace Abacus

/-!
## Where tokens may stand

`Places p t p'` says all that a single token can do to what has been read, and `Reads p ts p'` what
a list of tokens can do. Reading a line without a verb is a run of `Reads` from the start, and then
the end of the line or the first token that cannot be placed.
-/

namespace Line

/-! ### Progress -/

namespace Progress

@[simp] theorem recent_consume (p : Progress) (t : Token) : (p.consume t).recent = p.recent := rfl

@[simp] theorem left?_consume (p : Progress) (t : Token) : (p.consume t).left? = p.left? := rfl

@[simp] theorem operandDue_consume (p : Progress) (t : Token) :
    (p.consume t).operandDue = p.operandDue := rfl

@[simp] theorem recent_push (p : Progress) (shape : Node.Shape) (position : Nat) :
    (p.push shape position).recent = ⟨shape, position⟩ :: p.recent := rfl

@[simp] theorem recent_foldl_consume (p : Progress) (ts : List Token) :
    (ts.foldl consume p).recent = p.recent := by
  induction ts generalizing p with
  | nil => rfl
  | cons t ts ih => exact ih (p.consume t)

end Progress

/-! ### Neighbours -/

theorem endsOperand_of_awaitsOperand {n : Node} (h : n.awaitsOperand = true) :
    n.endsOperand = false := by
  obtain ⟨shape, position⟩ := n
  cases shape with
  | number | var | rparen => cases h
  | _ => rfl

theorem any_endsOperand_of_operandDue {p : Progress} (h : p.operandDue = true) :
    p.left?.any Node.endsOperand = false := by
  unfold Progress.operandDue at h
  cases hl : p.left? with
  | none => rfl
  | some left =>
    rw [hl] at h
    exact endsOperand_of_awaitsOperand h

/-! ### Single tokens -/

/-- What a token that may stand behind what has been read does to it. -/
inductive Places (p : Progress) (t : Token) : Progress → Prop where
  | equals {name : Bytes} {position : Nat} (ht : t.kind = .equals)
      (hp : p.recent = [⟨.var name, position⟩]) :
    Places p t { p with recent := [⟨.assign name, position⟩] }
  | var (ht : t.kind = .var) (hp : p.operandDue = true) :
    Places p t (p.push (.var t.lexeme) t.position)
  | number (ht : t.kind = .number) (hp : p.operandDue = true) :
    Places p t (p.push (.number (.ofText t.lexeme)) t.position)
  | abs (ht : t.kind = .abs) (hp : p.operandDue = true) : Places p t (p.push .abs t.position)
  | output {radix : Radix} (ht : t.kind = .output radix) (hp : p.recent = []) :
    Places p t (p.push (.setOutput radix) t.position)
  | lparen (ht : t.kind = .lparen)
      (hp : p.left?.all (fun left ↦ left.awaitsOperand || left.kind.isFunction) = true) :
    Places p t { p.push .lparen t.position with depth := p.depth + 1 }
  | rparen (ht : t.kind = .rparen) (hdepth : p.depth ≠ 0)
      (hp : p.left?.any Node.endsOperand = true) :
    Places p t { p.push .rparen t.position with depth := p.depth - 1 }
  | operator {op : Operator} (ht : t.kind = .operator op)
      (hp : p.left?.any Node.endsOperand = true) :
    Places p t (p.push (.operator op) t.position)

theorem readToken_of_places {p p' : Progress} {t : Token} (h : Places p t p') :
    readToken p t = .ok p' := by
  cases h with
  | equals ht hp => simp [readToken, ht, readEquals, hp]
  | var ht hp =>
    -- a variable is checked against the node to the left itself, and not by `operandDue`
    simp only [readToken, ht, readVariable]
    unfold Progress.operandDue at hp
    cases hl : p.left? with
    | none => rfl
    | some left =>
      rw [hl] at hp
      exact if_pos hp
  | number ht hp => simp [readToken, ht, readNumber, hp]
  | abs ht hp => simp [readToken, ht, readAbs, hp]
  | output ht hp => simp [readToken, ht, readOutput, hp]
  | lparen ht hp => simp only [readToken, ht, readLparen, hp, if_true]
  | rparen ht hdepth hp => simp only [readToken, ht, readRparen, hdepth, hp, if_true, if_false]
  | operator ht hp =>
    simp only [readToken, ht, readOperator]
    cases hl : p.left? with
    | none => simp [hl] at hp
    | some left =>
      rw [hl] at hp
      exact if_pos hp

theorem places_of_readToken {p p' : Progress} {t : Token} (h : readToken p t = .ok p') :
    Places p t p' := by
  unfold readToken at h
  split at h
  · next ht =>
    unfold readEquals at h
    split at h
    · next hp =>
      cases h
      exact .equals ht hp
    · cases h
  · next ht =>
    unfold readVariable at h
    split at h
    · next left hl =>
      obtain ⟨hleft, rfl⟩ := ite_eq_ok_iff.mp h
      exact .var ht (by rwa [Progress.operandDue, hl])
    · next hl =>
      cases h
      exact .var ht (by rw [Progress.operandDue, hl]; rfl)
  · next ht =>
    obtain ⟨hp, rfl⟩ := ite_eq_ok_iff.mp h
    exact .number ht hp
  · next ht =>
    obtain ⟨hp, rfl⟩ := ite_eq_ok_iff.mp h
    exact .abs ht hp
  · next ht =>
    obtain ⟨hp, rfl⟩ := ite_eq_ok_iff.mp h
    exact .output ht (List.isEmpty_iff.mp hp)
  · next ht =>
    obtain ⟨hp, rfl⟩ := ite_eq_ok_iff.mp h
    exact .lparen ht hp
  · next ht =>
    unfold readRparen at h
    split at h
    · cases h
    · next hdepth =>
      obtain ⟨hp, rfl⟩ := ite_eq_ok_iff.mp h
      exact .rparen ht hdepth hp
  · next ht =>
    unfold readOperator at h
    split at h
    · next left hl =>
      obtain ⟨hleft, rfl⟩ := ite_eq_ok_iff.mp h
      exact .operator ht (by rwa [hl])
    · cases h
  · cases h

/-- A token is read exactly where it may stand. -/
theorem readToken_eq_ok_iff {p p' : Progress} {t : Token} :
    readToken p t = .ok p' ↔ Places p t p' := ⟨places_of_readToken, readToken_of_places⟩

theorem Places.ofKind? {p p' : Progress} {t : Token} (h : Places p t p') :
    Verb.ofKind? t.kind = none := by
  cases h with
  | _ ht => simp [ht, Verb.ofKind?]

/-- Only a minus sign where an operand is due is looked at together with the next token. -/
theorem Places.looksAhead {p p' : Progress} {t : Token} (h : Places p t p') :
    looksAhead p t = false := by
  cases h with
  | operator ht hp => simp [Line.looksAhead, hp]
  | _ ht => simp [Line.looksAhead, ht]

theorem Places.recent_ne_nil {p p' : Progress} {t : Token} (h : Places p t p') :
    p'.recent ≠ [] := by
  cases h with
  | _ => exact List.cons_ne_nil _ _

/-! ### Lists of tokens -/

/-- What tokens that may stand behind what has been read do to it, one after the other. -/
inductive Reads : Progress → List Token → Progress → Prop where
  | refl (p : Progress) : Reads p [] p
  | token {p p' p'' : Progress} {t : Token} {ts : List Token} (h : Places (p.consume t) t p')
      (hrest : Reads p' ts p'') :
    Reads p (t :: ts) p''
  | negative {p p' : Progress} {minus t : Token} {ts : List Token}
      (hminus : minus.kind = .operator .sub) (ht : t.kind = .number) (hp : p.operandDue = true)
      (hrest : Reads (pushNegative (p.consume minus) minus t) ts p') :
    Reads p (minus :: t :: ts) p'

theorem Reads.trans {p p' p'' : Progress} {ts ts' : List Token} (h : Reads p ts p')
    (h' : Reads p' ts' p'') : Reads p (ts ++ ts') p'' := by
  induction h with
  | refl => exact h'
  | token ht _ ih => exact .token ht (ih h')
  | negative hminus ht hp _ ih => exact .negative hminus ht hp (ih h')

theorem Reads.recent_ne_nil {p p' : Progress} {ts : List Token} (h : Reads p ts p')
    (hts : ts ≠ []) : p'.recent ≠ [] := by
  -- the induction also has to cover that something had been read before
  have key : p.recent ≠ [] ∨ ts ≠ [] := .inr hts
  clear hts
  induction h with
  | refl p => simpa using key
  | token ht _ ih => exact ih (.inl ht.recent_ne_nil)
  | negative _ _ _ _ ih => exact ih (.inl (by simp [pushNegative]))

theorem readTokens_cons_of_places {ending : Ending} {p p' : Progress} {t : Token}
    (h : Places (p.consume t) t p') (rest : List Token) :
    readTokens ending (t :: rest) p = readTokens ending rest p' := by
  rw [readTokens.eq_def]
  simp [h.ofKind?, h.looksAhead, readToken_of_places h]

theorem readTokens_cons_negative {ending : Ending} {p : Progress} {minus t : Token}
    (hminus : minus.kind = .operator .sub) (ht : t.kind = .number) (hp : p.operandDue = true)
    (rest : List Token) :
    readTokens ending (minus :: t :: rest) p
      = readTokens ending rest (pushNegative (p.consume minus) minus t) := by
  rw [readTokens.eq_def]
  simp [hminus, ht, hp, Verb.ofKind?, looksAhead, any_endsOperand_of_operandDue hp]

/-- Tokens that may stand where they do are read, whatever stands behind them. -/
theorem readTokens_append_of_reads (ending : Ending) {p p' : Progress} {ts : List Token}
    (h : Reads p ts p') (rest : List Token) :
    readTokens ending (ts ++ rest) p = readTokens ending rest p' := by
  induction h with
  | refl => rfl
  | token ht _ ih => rw [List.cons_append, readTokens_cons_of_places ht, ih]
  | negative hminus ht hp _ ih =>
    rw [List.cons_append, List.cons_append, readTokens_cons_negative hminus ht hp, ih]

theorem kind_of_looksAhead {p : Progress} {t : Token} (h : looksAhead p t = true) :
    t.kind = .operator .sub := by
  simp only [looksAhead, Bool.and_eq_true, beq_iff_eq] at h
  exact h.1

/-- A line is read without an error only as a verb with its whole line, or token by token. -/
theorem reads_of_readTokens {ending : Ending} {p : Progress} {ts : List Token}
    (h : (readTokens ending ts p).error = none) :
    (∃ p', Reads p ts p' ∧ endError? p' ending = none)
      ∨ (∃ t rest verb, ts = t :: rest ∧ p.recent = [] ∧ Verb.ofKind? t.kind = some verb
        ∧ (readVerb verb (p.consume t) t rest ending).error = none) := by
  fun_induction readTokens ending ts p with
  | case1 p =>
    refine .inl ⟨p, .refl p, ?_⟩
    cases he : endError? p ending with
    | none => rfl
    | some e => simp [readEnd, he] at h
  | case2 t rest before p verb hverb hp =>
    exact .inr ⟨t, rest, verb, rfl, by simpa [p] using hp, hverb, h⟩
  | case3 => cases h
  | case4 t before p hverb hlook next rest' hnext ih =>
    rcases ih h with ⟨p', hreads, hend⟩ | ⟨_, _, _, _, hnil, _⟩
    · exact .inl ⟨p', .negative (kind_of_looksAhead hlook) hnext.1 hnext.2 hreads, hend⟩
    · cases hnil
  | case5 => cases h
  | case6 => cases h
  | case7 t rest before p hverb hlook p' hread ih =>
    have hplaces := places_of_readToken hread
    rcases ih h with ⟨p'', hreads, hend⟩ | ⟨_, _, _, _, hnil, _⟩
    · exact .inl ⟨p'', .token hplaces hreads, hend⟩
    · exact absurd hnil hplaces.recent_ne_nil
  | case8 => cases h

/-!
## Sentences are read

The tokens of a phrase may stand wherever an operand is due, and reading them leaves the nodes of
the phrase behind. Conversely tokens that were read up to the end of a line, or up to a parenthesis
that is closed, begin with a phrase; this is an induction on the number of tokens that takes off one
operand after the other.
-/

/-! ### Progress behind a phrase -/

/-- What has been read once tokens that stand for some nodes have been read too. -/
def Progress.after (p : Progress) (ts : List Token) (ns : List Node) : Progress :=
  ⟨ns.reverse ++ p.recent, p.depth, ts.foldl (fun _ t ↦ t.finish) p.consumed⟩

theorem Derives.any_endsOperand {phrase : Phrase} {ts : List Token} {ns : List Node}
    (h : Derives phrase ts ns) (p : Progress) :
    (p.after ts ns).left?.any Node.endsOperand = true := by
  obtain ⟨front, last, rfl, hlast⟩ := h.exists_last
  simp [Progress.after, Progress.left?, hlast]

theorem operandDue_push_operator (p : Progress) (op : Operator) (position : Nat) :
    (p.push (.operator op) position).operandDue = true := rfl

/-! ### Phrases are read -/

theorem all_of_operandDue {p : Progress} (h : p.operandDue = true) :
    p.left?.all (fun left ↦ left.awaitsOperand || left.kind.isFunction) = true := by
  unfold Progress.operandDue at h
  cases hl : p.left? with
  | none => rfl
  | some left =>
    rw [hl] at h
    simp only [Option.all_some] at h ⊢
    rw [h, Bool.true_or]

/-- An expression in parentheses is read when the expression is, at any depth. -/
theorem reads_enclosed {l r : Token} {ts : List Token} {ns : List Node} {p : Progress}
    (hl : l.kind = .lparen) (h : Derives .expression ts ns) (hr : r.kind = .rparen)
    (hreads : ∀ q : Progress, q.operandDue = true → Reads q ts (q.after ts ns))
    (hp : p.left?.all (fun left ↦ left.awaitsOperand || left.kind.isFunction) = true) :
    Reads p (l :: (ts ++ [r]))
      (p.after (l :: (ts ++ [r])) (⟨.lparen, l.position⟩ :: (ns ++ [⟨.rparen, r.position⟩]))) := by
  -- at depth `p.depth + 1` the closing parenthesis is not the one too many
  let q : Progress := { (p.consume l).push .lparen l.position with depth := p.depth + 1 }
  have hopen : Places (p.consume l) l q := .lparen hl hp
  have hclose : Places ((q.after ts ns).consume r) r
      { ((q.after ts ns).consume r).push .rparen r.position with depth := p.depth + 1 - 1 } :=
    .rparen hr (Nat.succ_ne_zero p.depth) (h.any_endsOperand q)
  have hall := Reads.token hopen ((hreads q rfl).trans (.token hclose (.refl _)))
  simpa [Progress.after, Progress.consume, Progress.push, q] using hall

/-- The tokens of a phrase are read wherever an operand is due. -/
theorem Derives.reads {phrase : Phrase} {ts : List Token} {ns : List Node}
    (h : Derives phrase ts ns) {p : Progress} (hp : p.operandDue = true) :
    Reads p ts (p.after ts ns) := by
  induction h generalizing p with
  | number ht => exact .token (.number ht hp) (.refl _)
  | negative hminus ht => exact .negative hminus ht hp (.refl _)
  | var ht => exact .token (.var ht hp) (.refl _)
  | group hl h hr ih => exact reads_enclosed hl h hr (fun q ↦ ih (p := q)) (all_of_operandDue hp)
  | @abs a l r ts ns ha hl h hr ih =>
    have habs : Places (p.consume a) a ((p.consume a).push .abs a.position) := .abs ha hp
    have hall := Reads.token habs (reads_enclosed hl h hr (fun q ↦ ih (p := q)) rfl)
    simpa [Progress.after, Progress.consume, Progress.push] using hall
  | single _ ih => exact ih hp
  | @chain t op ts ts' ns ns' h ht _ ih ih' =>
    have hop := Places.operator (p := (p.after ts ns).consume t) ht (h.any_endsOperand p)
    have hrest := ih' (operandDue_push_operator ((p.after ts ns).consume t) op t.position)
    have hall := (ih hp).trans (.token hop hrest)
    simpa [Progress.after, Progress.consume, Progress.push] using hall

/-! ### What was read is a phrase -/

/-- Tokens that do not make the beginning of a line the radix or the target of an expression. -/
def StartsPlain (p : Progress) (ts : List Token) : Prop :=
  p.recent = [] → (∀ t ∈ ts.head?, ∀ radix, t.kind ≠ .output radix)
    ∧ ∀ t ∈ ts.tail.head?, t.kind ≠ .equals

theorem startsPlain_of_ne_nil {p : Progress} (h : p.recent ≠ []) (ts : List Token) :
    StartsPlain p ts := fun hnil ↦ absurd hnil h

theorem not_all_of_any_endsOperand {p : Progress} (h : p.left?.any Node.endsOperand = true) :
    p.left?.all (fun left ↦ left.awaitsOperand || left.kind.isFunction) = false := by
  cases hl : p.left? with
  | none => simp [hl] at h
  | some left =>
    rw [hl] at h
    obtain ⟨shape, position⟩ := left
    cases shape with
    | number | var | rparen => rfl
    | _ => cases h

theorem not_operandDue_of_any_endsOperand {p : Progress}
    (h : p.left?.any Node.endsOperand = true) : p.operandDue ≠ true := fun hp ↦ by
  rw [any_endsOperand_of_operandDue hp] at h
  cases h

/-- The phrase at the front of tokens that are read up to `q`, with the rest of them. -/
def Begins (phrase : Phrase) (p : Progress) (ts : List Token) (q : Progress) : Prop :=
  ∃ front ns rest, ts = front ++ rest ∧ Derives phrase front ns ∧ Reads (p.after front ns) rest q

/-- The expression at the front of tokens that are read up to `q`, which reaches as far as the end
or the parenthesis that closes it. -/
def BeginsFully (p : Progress) (ts : List Token) (q : Progress) : Prop :=
  ∃ front ns rest, ts = front ++ rest ∧ Derives .expression front ns
    ∧ Reads (p.after front ns) rest q ∧ ∀ r ∈ rest.head?, r.kind = .rparen

/-- What was read is a complete expression. -/
structure Complete (q : Progress) : Prop where
  depth_eq_zero : q.depth = 0
  any_endsOperand : q.left?.any Node.endsOperand = true

theorem BeginsFully.exists_close {p q : Progress} {ts : List Token} (h : BeginsFully p ts q)
    (hp : p.depth ≠ 0) (hq : Complete q) :
    ∃ front ns r rest, ts = front ++ r :: rest ∧ Derives .expression front ns ∧ r.kind = .rparen
      ∧ Reads { ((p.after front ns).consume r).push .rparen r.position with depth := p.depth - 1 }
        rest q := by
  obtain ⟨front, ns, rest, rfl, hfront, hrest, hend⟩ := h
  cases hrest with
  | refl => exact absurd hq.depth_eq_zero hp
  | @token _ p' _ r rest hplace hrest =>
    have hr : r.kind = .rparen := hend r rfl
    cases hplace with
    | rparen _ _ _ => exact ⟨front, ns, r, rest, rfl, hfront, hr, hrest⟩
    | _ ht => rw [hr] at ht; cases ht
  | negative hminus _ _ _ =>
    have hr := hend _ rfl
    rw [hminus] at hr
    cases hr

theorem Reads.exists_lparen {p q : Progress} {position : Nat} {ts : List Token}
    (h : Reads (p.push .abs position) ts q) (hq : Complete q) :
    ∃ l rest, ts = l :: rest ∧ l.kind = .lparen
      ∧ Reads { ((p.push .abs position).consume l).push .lparen l.position
          with depth := p.depth + 1 } rest q := by
  cases h with
  | refl => exact absurd hq.any_endsOperand Bool.false_ne_true
  | @token _ p' _ l rest hplace hrest =>
    cases hplace with
    | lparen ht _ => exact ⟨l, rest, rfl, ht, hrest⟩
    | equals _ hp => cases hp
    | output _ hp => cases hp
    | var _ hp => cases hp
    | number _ hp => cases hp
    | abs _ hp => cases hp
    | rparen _ _ hp => cases hp
    | operator _ hp => cases hp
  | negative _ _ hp _ => cases hp

/-- The first operand of an expression is taken off, where shorter expressions are known. -/
theorem Reads.begins_operand {p q : Progress} {ts : List Token} (h : Reads p ts q)
    (hp : p.operandDue = true) (hplain : StartsPlain p ts) (hq : Complete q)
    (ih : ∀ p' ts', ts'.length < ts.length → Reads p' ts' q → p'.operandDue = true →
      p'.recent ≠ [] → BeginsFully p' ts' q) :
    Begins .operand p ts q := by
  cases h with
  | refl => exact absurd hp (not_operandDue_of_any_endsOperand hq.any_endsOperand)
  | @token _ p' _ t ts hplace hrest =>
    -- one case for each token that may stand first; a parenthesis brings its whole group with it
    cases hplace with
    | equals ht hrecent =>
      simp only [Progress.recent_consume] at hrecent
      simp [Progress.operandDue, Progress.left?, hrecent, Node.awaitsOperand, Node.kind,
        Node.Shape.kind, Node.Kind.isOperator, Node.Kind.opensOperand] at hp
    | var ht _ => exact ⟨[t], _, ts, rfl, .var ht, hrest⟩
    | number ht _ => exact ⟨[t], _, ts, rfl, .number ht, hrest⟩
    | abs ht _ =>
      obtain ⟨l, rest, rfl, hl, hrest⟩ := hrest.exists_lparen hq
      have hlt : rest.length < (t :: l :: rest).length :=
        Nat.lt_succ_of_lt (Nat.lt_succ_self rest.length)
      obtain ⟨front, ns, r, rest, rfl, hfront, hr, hrest⟩ :=
        (ih _ rest hlt hrest rfl (by simp)).exists_close (Nat.succ_ne_zero _) hq
      refine ⟨t :: l :: (front ++ [r]), _, rest, by simp, .abs ht hl hfront hr, ?_⟩
      simpa [Progress.after, Progress.consume, Progress.push] using hrest
    | output ht hrecent => exact absurd ht ((hplain hrecent).1 t rfl _)
    | lparen ht _ =>
      obtain ⟨front, ns, r, rest, rfl, hfront, hr, hrest⟩ :=
        (ih _ ts (by simp) hrest rfl (by simp)).exists_close (Nat.succ_ne_zero _) hq
      refine ⟨t :: (front ++ [r]), _, rest, by simp, .group ht hfront hr, ?_⟩
      simpa [Progress.after, Progress.consume, Progress.push] using hrest
    | rparen _ _ hleft => exact absurd hp (not_operandDue_of_any_endsOperand hleft)
    | operator _ hleft => exact absurd hp (not_operandDue_of_any_endsOperand hleft)
  | negative hminus ht _ hrest => exact ⟨[_, _], _, _, rfl, .negative hminus ht, hrest⟩

/-- Only a variable that begins the line can turn into the target of an assignment. -/
theorem Derives.start_of_var {p : Progress} {ts : List Token} {ns : List Node} {name : Bytes}
    {position : Nat} (h : Derives .operand ts ns)
    (hrecent : (p.after ts ns).recent = [⟨.var name, position⟩]) :
    p.recent = [] ∧ ∃ t, ts = [t] := by
  cases h with
  | number | var =>
    simp only [Progress.after, List.reverse_singleton, List.singleton_append,
      List.cons.injEq] at hrecent
    exact ⟨hrecent.2, _, rfl⟩
  | negative => simp [Progress.after] at hrecent
  | group | abs => simp [Progress.after] at hrecent

/-- What was read up to a complete expression begins with an expression that goes as far as the
end or the parenthesis that closes it. -/
theorem Reads.beginsFully {p q : Progress} {ts : List Token} (h : Reads p ts q)
    (hp : p.operandDue = true) (hplain : StartsPlain p ts) (hq : Complete q) :
    BeginsFully p ts q := by
  -- by induction on the number of tokens: an operand or an inner expression leaves fewer of them
  induction hn : ts.length using Nat.strongRecOn generalizing p ts with
  | ind n ih =>
    have hshort : ∀ p' ts', ts'.length < ts.length → Reads p' ts' q → p'.operandDue = true →
        p'.recent ≠ [] → BeginsFully p' ts' q := fun p' ts' hlt h' hp' hne ↦
      ih _ (hn ▸ hlt) h' hp' (startsPlain_of_ne_nil hne ts') rfl
    obtain ⟨front, ns, rest, rfl, hfront, hrest⟩ := h.begins_operand hp hplain hq hshort
    have hleft := hfront.any_endsOperand p
    -- an operand has just ended, so only an operator or a closing parenthesis can be next
    cases hrest with
    | refl => exact ⟨front, ns, [], rfl, .single hfront, .refl _, by simp⟩
    | @token _ p' _ t rest hplace hrest =>
      cases hplace with
      | equals ht hrecent =>
        obtain ⟨hnil, t', rfl⟩ := hfront.start_of_var hrecent
        exact absurd ht ((hplain hnil).2 t rfl)
      | var _ hdue => exact absurd hdue (not_operandDue_of_any_endsOperand hleft)
      | number _ hdue => exact absurd hdue (not_operandDue_of_any_endsOperand hleft)
      | abs _ hdue => exact absurd hdue (not_operandDue_of_any_endsOperand hleft)
      | output _ hrecent =>
        rw [Progress.left?, show (p.after front ns).recent = [] from hrecent] at hleft
        cases hleft
      | lparen _ hall =>
        rw [Progress.left?_consume, not_all_of_any_endsOperand hleft] at hall
        cases hall
      | rparen ht hdepth hleft' =>
        refine ⟨front, ns, t :: rest, rfl, .single hfront, ?_, by simp [ht]⟩
        exact .token (.rparen ht hdepth hleft') hrest
      | @operator op ht hleft' =>
        obtain ⟨front', ns', rest', rfl, hfront', hrest', hend⟩ :=
          hshort _ rest (Nat.lt_of_lt_of_le (Nat.lt_succ_self rest.length) (by simp)) hrest rfl
            (by simp)
        refine ⟨front ++ t :: front', _, rest', by simp, hfront.cons_chain ht hfront', ?_, hend⟩
        simpa [Progress.after, Progress.consume, Progress.push] using hrest'
    | negative _ _ hdue _ => exact absurd hdue (not_operandDue_of_any_endsOperand hleft)

end Line

end Abacus
