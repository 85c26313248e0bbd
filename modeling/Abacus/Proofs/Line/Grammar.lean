import Abacus.Line

/-!
# The grammar of lines

Which token lists are lines, and the nodes of each of them, said without the state that reading
keeps:

```text
line       ::=  (nothing)  |  clear ( )  |  save ( word )  |  load ( word )
             |  expression  |  output expression  |  var = expression
expression ::=  operand  |  expression operator operand
operand    ::=  number  |  - number  |  var  |  ( expression )  |  abs ( expression )
```

The two relations below hold between the tokens of a phrase and the nodes it stands for. Every token
stands for one node at its own place, except that a minus sign where an operand is due and the
number behind it are one node, that a variable and `=` are one, and that a verb stands for its whole
line.
-/

namespace Abacus.Line

/-! ## Phrases -/

/-- The phrases that values are written with. -/
inductive Phrase where
  | operand
  | expression
  deriving DecidableEq

/-- What a number stands for: its text in lower case, in the radix that it shows. -/
def numeralOf (t : Token) : Numeral where
  text := Bytes.lower t.lexeme
  radix := Radix.detect t.lexeme
  lower_text := Bytes.lower_lower t.lexeme

/-- What a number behind its minus sign stands for. The sign says nothing of the radix. -/
def negativeOf (t : Token) : Numeral where
  text := '-'.toUInt8 :: Bytes.lower t.lexeme
  radix := Radix.detect t.lexeme
  lower_text := congrArg ('-'.toUInt8 :: ·) (Bytes.lower_lower t.lexeme)

/-- The tokens of a phrase and the nodes they stand for. -/
inductive Derives : Phrase → List Token → List Node → Prop where
  | number {t : Token} (ht : t.kind = .number) :
    Derives .operand [t] [⟨.number (numeralOf t), t.position⟩]
  | negative {minus t : Token} (hminus : minus.kind = .operator .sub) (ht : t.kind = .number) :
    Derives .operand [minus, t] [⟨.number (negativeOf t), minus.position⟩]
  | var {t : Token} (ht : t.kind = .var) : Derives .operand [t] [⟨.var t.lexeme, t.position⟩]
  | group {l r : Token} {ts : List Token} {ns : List Node} (hl : l.kind = .lparen)
      (h : Derives .expression ts ns) (hr : r.kind = .rparen) :
    Derives .operand (l :: (ts ++ [r])) (⟨.lparen, l.position⟩ :: (ns ++ [⟨.rparen, r.position⟩]))
  | abs {a l r : Token} {ts : List Token} {ns : List Node} (ha : a.kind = .abs)
      (hl : l.kind = .lparen) (h : Derives .expression ts ns) (hr : r.kind = .rparen) :
    Derives .operand (a :: l :: (ts ++ [r]))
      (⟨.abs, a.position⟩ :: ⟨.lparen, l.position⟩ :: (ns ++ [⟨.rparen, r.position⟩]))
  | single {ts : List Token} {ns : List Node} (h : Derives .operand ts ns) :
    Derives .expression ts ns
  | chain {t : Token} {op : Operator} {ts ts' : List Token} {ns ns' : List Node}
      (h : Derives .expression ts ns) (ht : t.kind = .operator op) (h' : Derives .operand ts' ns') :
    Derives .expression (ts ++ t :: ts') (ns ++ ⟨.operator op, t.position⟩ :: ns')

/-- The tokens of a line and the nodes they stand for. -/
inductive Sentence : List Token → List Node → Prop where
  | blank : Sentence [] []
  | clear {t l r : Token} (ht : t.kind = .clear) (hl : l.kind = .lparen) (hr : r.kind = .rparen) :
    Sentence [t, l, r] [⟨.clear, t.position⟩]
  | save {t l name r : Token} (ht : t.kind = .save) (hl : l.kind = .lparen)
      (hname : name.kind = .word) (hr : r.kind = .rparen) :
    Sentence [t, l, name, r] [⟨.save name.lexeme, t.position⟩]
  | load {t l name r : Token} (ht : t.kind = .load) (hl : l.kind = .lparen)
      (hname : name.kind = .word) (hr : r.kind = .rparen) :
    Sentence [t, l, name, r] [⟨.load name.lexeme, t.position⟩]
  | plain {ts : List Token} {ns : List Node} (h : Derives .expression ts ns) : Sentence ts ns
  | output {t : Token} {radix : Radix} {ts : List Token} {ns : List Node}
      (ht : t.kind = .output radix) (h : Derives .expression ts ns) :
    Sentence (t :: ts) (⟨.setOutput radix, t.position⟩ :: ns)
  | assign {target equals : Token} {ts : List Token} {ns : List Node} (ht : target.kind = .var)
      (he : equals.kind = .equals) (h : Derives .expression ts ns) :
    Sentence (target :: equals :: ts) (⟨.assign target.lexeme, target.position⟩ :: ns)

/-! ## Shapes of phrases -/

/-- Chains associate to the left, but one may also be taken apart at its first operator. -/
theorem Derives.cons_chain {t : Token} {op : Operator} {ts ts' : List Token} {ns ns' : List Node}
    (h : Derives .operand ts ns) (ht : t.kind = .operator op)
    (h' : Derives .expression ts' ns') :
    Derives .expression (ts ++ t :: ts') (ns ++ ⟨.operator op, t.position⟩ :: ns') := by
  generalize hphrase : Phrase.expression = phrase at h'
  induction h' with
  | single hoperand => exact .chain (.single h) ht hoperand
  | chain _ ht' hoperand ih =>
    have hchain := Derives.chain (ih rfl) ht' hoperand
    simpa only [List.append_assoc, List.cons_append] using hchain
  | _ => cases hphrase

theorem Derives.exists_last {phrase : Phrase} {ts : List Token} {ns : List Node}
    (h : Derives phrase ts ns) :
    ∃ front last, ns = front ++ [last] ∧ last.endsOperand = true := by
  induction h with
  | number | negative | var => exact ⟨[], _, rfl, rfl⟩
  | group => exact ⟨_ :: _, _, rfl, rfl⟩
  | abs => exact ⟨_ :: _ :: _, _, rfl, rfl⟩
  | single _ ih => exact ih
  | @chain t op ts ts' ns ns' _ _ _ _ ih =>
    obtain ⟨front, last, rfl, hlast⟩ := ih
    exact ⟨ns ++ ⟨.operator op, t.position⟩ :: front, last, by simp, hlast⟩

theorem Derives.ne_equals {phrase : Phrase} {ts : List Token} {ns : List Node}
    (h : Derives phrase ts ns) : ∀ t ∈ ts, t.kind ≠ .equals := by
  induction h with
  | number ht | var ht => simp [ht]
  | negative hminus ht => simp [hminus, ht]
  | group hl _ hr ih =>
    exact List.forall_mem_cons.mpr ⟨by simp [hl], List.forall_mem_append.mpr ⟨ih, by simp [hr]⟩⟩
  | abs ha hl _ hr ih =>
    exact List.forall_mem_cons.mpr ⟨by simp [ha], List.forall_mem_cons.mpr ⟨by simp [hl],
      List.forall_mem_append.mpr ⟨ih, by simp [hr]⟩⟩⟩
  | single _ ih => exact ih
  | chain _ ht _ ih ih' =>
    exact List.forall_mem_append.mpr ⟨ih, List.forall_mem_cons.mpr ⟨by simp [ht], ih'⟩⟩

/-- The kinds of nodes that phrases are made of: operands, and what joins and encloses them. -/
def isPhrasal : Node.Kind → Bool
  | .number | .var | .operator _ | .lparen | .rparen | .abs => true
  | _ => false

theorem Derives.isPhrasal {phrase : Phrase} {ts : List Token} {ns : List Node}
    (h : Derives phrase ts ns) : ∀ n ∈ ns, Line.isPhrasal n.kind = true := by
  induction h with
  | number | negative | var => simp [Line.isPhrasal, Node.kind, Node.Shape.kind]
  | group _ _ _ ih | abs _ _ _ _ ih =>
    simpa [Line.isPhrasal, Node.kind, Node.Shape.kind, or_imp, forall_and] using ih
  | single _ ih => exact ih
  | chain _ _ _ ih ih' =>
    intro n hn
    rcases List.mem_append.mp hn with hn | hn
    · exact ih n hn
    rcases List.mem_cons.mp hn with rfl | hn
    · rfl
    · exact ih' n hn

theorem Derives.ne_nil {phrase : Phrase} {ts : List Token} {ns : List Node}
    (h : Derives phrase ts ns) : ts ≠ [] := by
  induction h with
  | single _ ih => exact ih
  | _ => simp

/-- The nodes of a phrase stand where some of its tokens do, in their order. -/
theorem Derives.positions_sublist {phrase : Phrase} {ts : List Token} {ns : List Node}
    (h : Derives phrase ts ns) : (ns.map Node.position).Sublist (ts.map Token.position) := by
  induction h with
  | number | var => exact .refl _
  | @negative minus t =>
    exact .cons_cons minus.position (.cons t.position .slnil)
  | @group l r _ _ _ _ _ ih =>
    simpa using (ih.append_right [r.position]).cons_cons l.position
  | @abs a l r _ _ _ _ _ _ ih =>
    simpa using ((ih.append_right [r.position]).cons_cons l.position).cons_cons a.position
  | single _ ih => exact ih
  | @chain t _ _ _ _ _ _ _ _ ih ih' =>
    simpa using ih.append (ih'.cons_cons t.position)

theorem Sentence.positions_sublist {ts : List Token} {ns : List Node} (h : Sentence ts ns) :
    (ns.map Node.position).Sublist (ts.map Token.position) := by
  rcases h with _ | _ | _ | _ | h | ⟨_, h⟩ | @⟨target, equals, _, _, _, _, h⟩
  · exact .slnil
  · simp
  · simp
  · simp
  · exact h.positions_sublist
  · exact h.positions_sublist.cons_cons _
  · exact (h.positions_sublist.cons equals.position).cons_cons target.position

theorem Sentence.eq_nil {ns : List Node} (h : Sentence [] ns) : ns = [] := by
  cases h with
  | blank => rfl
  | plain h => exact absurd rfl h.ne_nil

end Abacus.Line
