import Abacus.Evaluation
import Abacus.Proofs.Evaluation.Redex
import Abacus.Proofs.Except
import Abacus.Proofs.Line.Accepted

/-!
# What evaluation reads and reports

The variables that a reduction looks up, those among the tokens of a line, and the offsets that
errors have.
-/

namespace Abacus

/-!
## What a reduction reads

A reduction looks up the variables among its nodes and no others, whatever the list of nodes. A pass
takes nodes of the list away and puts numbers in their place, so the lists that are reduced later
read no more than the first one did. The induction is on the length of the list, as the reduction
is.
-/

/-- The variable that a node reads. The target of an assignment is not read. -/
def Node.reads? (n : Node) : Option Bytes :=
  match n.shape with
  | .var name => some name
  | _ => none

namespace Evaluation

/-- The variables that some nodes read. -/
def reads (nodes : List Node) : List Bytes := nodes.filterMap Node.reads?

@[simp] theorem reads_nil : reads [] = [] := rfl

@[simp] theorem reads_append (nodes nodes' : List Node) :
    reads (nodes ++ nodes') = reads nodes ++ reads nodes' := List.filterMap_append

@[simp] theorem reads_cons (n : Node) (nodes : List Node) :
    reads (n :: nodes) = n.reads?.toList ++ reads nodes := by
  rw [reads, List.filterMap_cons]
  cases n.reads? with
  | none | some => rfl

/-- Two stores give the same value to each of some variables, or none. -/
def AgreeOn (names : List Bytes) (store store' : Store) : Prop :=
  ∀ name ∈ names, store.find? name = store'.find? name

instance (names : List Bytes) (store store' : Store) : Decidable (AgreeOn names store store') :=
  inferInstanceAs (Decidable (∀ name ∈ names, store.find? name = store'.find? name))

variable {store store' : Store}

theorem AgreeOn.mono {names names' : List Bytes} (h : AgreeOn names store store')
    (hsub : names' ⊆ names) : AgreeOn names' store store' := fun name hname ↦ h name (hsub hname)

/-! ### What a pass takes away -/

theorem reads_subset {nodes nodes' : List Node} (h : ∀ n ∈ nodes', n ∈ nodes ∨ n.reads? = none) :
    reads nodes' ⊆ reads nodes := by
  intro name hname
  obtain ⟨n, hn, hreads⟩ := List.mem_filterMap.mp hname
  rcases h n hn with hn | hnone
  · exact List.mem_filterMap.mpr ⟨n, hn, hreads⟩
  · rw [hreads] at hnone
    cases hnone

section

variable {nodes before after rest inner : List Node} {node : Node}

theorem reads_inner {opener : Node} (hr : findRedex nodes = some (.group before opener rest))
    (hc : closing (depthAfter 0 opener) rest = some (inner, after)) :
    reads inner ⊆ reads nodes :=
  reads_subset fun _ hn ↦ .inl (mem_of_mem_inner hr hc hn)

theorem reads_of_group {opener : Node} (hr : findRedex nodes = some (.group before opener rest))
    (hc : closing (depthAfter 0 opener) rest = some (inner, after)) (hnode : node.reads? = none) :
    reads (withoutAbs before ++ node :: after) ⊆ reads nodes := by
  refine reads_subset fun n hn ↦ (mem_or_eq_of_group hr hc hn).imp_right ?_
  rintro rfl
  exact hnode

section

variable {op : Operator} {position : Nat}

theorem reads_operands {left right : Node}
    (hr : findRedex nodes = some (.operator before op position after))
    (ho : operands? before after = some (left, right)) : reads [left, right] ⊆ reads nodes := by
  obtain ⟨hleft, hright⟩ := mem_of_operands? hr ho
  exact reads_subset (by simp [hleft, hright])

theorem reads_of_operator (hr : findRedex nodes = some (.operator before op position after))
    (hnode : node.reads? = none) :
    reads (before.dropLast ++ node :: after.tail) ⊆ reads nodes := by
  refine reads_subset fun n hn ↦ (mem_or_eq_of_operator hr hn).imp_right ?_
  rintro rfl
  exact hnode

end

theorem reads_of_dropEnd? {shorter : List Node} (h : dropEnd? nodes = some shorter) :
    reads shorter ⊆ reads nodes :=
  reads_subset fun _ hn ↦ .inl (mem_of_mem_dropEnd? h hn)

theorem reads?_of_groupNode {opener : Node} {value : Value}
    (h : groupNode before opener value = .ok node) : node.reads? = none := by
  unfold groupNode at h
  split at h
  · obtain ⟨x, -, heq⟩ := bind_eq_ok_iff.mp h
    cases heq
    rfl
  · cases h
    rfl

theorem reads?_of_operatorNode {op : Operator} {position : Nat} {left right : Node}
    (h : operatorNode store op position left right = .ok node) : node.reads? = none := by
  obtain ⟨x, -, h⟩ := bind_eq_ok_iff.mp h
  obtain ⟨y, -, h⟩ := bind_eq_ok_iff.mp h
  split at h
  · cases h
    rfl
  · cases h

end

/-! ### What is read -/

theorem readValue_congr {n : Node} (h : AgreeOn (reads [n]) store store') :
    readValue store n = readValue store' n := by
  obtain ⟨shape, position⟩ := n
  cases shape with
  | var name =>
    have hname : store.find? name = store'.find? name := h name (by simp [Node.reads?])
    simp only [readValue, hname]
  | _ => rfl

theorem operatorNode_congr {left right : Node} (h : AgreeOn (reads [left, right]) store store')
    (op : Operator) (position : Nat) :
    operatorNode store op position left right = operatorNode store' op position left right := by
  have hleft : readValue store left = readValue store' left :=
    readValue_congr (h.mono (reads_subset fun n hn ↦
      .inl (List.mem_cons.mpr (.inl (List.mem_singleton.mp hn)))))
  have hright : readValue store right = readValue store' right :=
    readValue_congr (h.mono (reads_subset fun n hn ↦ .inl (List.mem_cons_of_mem _ hn)))
  rw [operatorNode, operatorNode, readOperand, readOperand, readOperand, readOperand, hleft, hright]

/-- What is left of a list reads no more than the list. -/
theorem reads_of_reduce {nodes : List Node} {n : Node} (h : reduce store nodes = .ok n) :
    reads [n] ⊆ reads nodes := by
  fun_induction reduce store nodes generalizing n with
  | case1 nodes hlength =>
    unfold alone at h
    split at h
    · next m hhead =>
      cases h
      refine reads_subset fun m hm ↦ .inl ?_
      rw [List.mem_singleton.mp hm]
      exact List.mem_of_mem_head? hhead
    · cases h
  | case3 nodes hlength before opener rest hr inner after hc ihinner ih =>
    obtain ⟨m, -, h⟩ := bind_eq_ok_iff.mp h
    obtain ⟨value, -, h⟩ := bind_eq_ok_iff.mp h
    obtain ⟨node, hnode, h⟩ := bind_eq_ok_iff.mp h
    exact List.Subset.trans (ih node h) (reads_of_group hr hc (reads?_of_groupNode hnode))
  | case5 nodes hlength before op position after hr left right ho ih =>
    obtain ⟨node, hnode, h⟩ := bind_eq_ok_iff.mp h
    exact List.Subset.trans (ih node h) (reads_of_operator hr (reads?_of_operatorNode hnode))
  | case6 nodes hlength hr shorter hd ih => exact List.Subset.trans (ih h) (reads_of_dropEnd? hd)
  | case2 | case4 | case7 => cases h

/-- A list is reduced to the same node, or for the same error to none, in all stores that agree on
the variables it reads. -/
theorem reduce_congr {nodes : List Node} (h : AgreeOn (reads nodes) store store') :
    reduce store nodes = reduce store' nodes := by
  fun_induction reduce store nodes with
  | case1 nodes hlength => rw [reduce_eq, if_pos hlength]
  | case2 nodes hlength before opener rest hr hc =>
    rw [reduce_eq, if_neg hlength, hr]
    dsimp only
    rw [hc]
  | case3 nodes hlength before opener rest hr inner after hc ihinner ih =>
    have hinner := h.mono (reads_inner hr hc)
    rw [reduce_of_group store' hr hc, ← ihinner hinner]
    cases hreduce : reduce store inner with
    | error e => rfl
    | ok n =>
      -- what is left of the group may be one of its variables, which is looked up only now
      rw [ok_bind, ok_bind, readValue_congr (hinner.mono (reads_of_reduce hreduce))]
      refine bind_congr fun value ↦ ?_
      cases hnode : groupNode before opener value with
      | error e => rfl
      | ok node =>
        exact ih node (h.mono (reads_of_group hr hc (reads?_of_groupNode hnode)))
  | case4 nodes hlength before op position after hr ho =>
    rw [reduce_eq, if_neg hlength, hr]
    dsimp only
    rw [ho]
  | case5 nodes hlength before op position after hr left right ho ih =>
    have hoperands := h.mono (reads_operands hr ho)
    rw [reduce_of_operator store' hr ho, ← operatorNode_congr hoperands]
    cases hnode : operatorNode store op position left right with
    | error e => rfl
    | ok node =>
      exact ih node (h.mono (reads_of_operator hr (reads?_of_operatorNode hnode)))
  | case6 nodes hlength hr shorter hd ih =>
    rw [reduce_of_dropEnd? store' hr hd]
    exact ih (h.mono (reads_of_dropEnd? hd))
  | case7 nodes hlength hr hd =>
    rw [reduce_eq, if_neg hlength, hr]
    dsimp only
    rw [hd]

/-! ### Answers -/

section

variable {nodes : List Node}

theorem evaluate_congr (h : AgreeOn (reads nodes) store store') :
    evaluate store nodes = evaluate store' nodes := by
  rw [evaluate, evaluate, ← reduce_congr h]
  cases hreduce : reduce store nodes with
  | error e => rfl
  | ok n => rw [ok_bind, ok_bind, readValue_congr (h.mono (reads_of_reduce hreduce))]

theorem answer_congr (h : AgreeOn (reads nodes) store store') :
    answer store nodes = answer store' nodes := by
  rw [answer, answer, evaluate_congr h]

theorem answerIn_congr (h : AgreeOn (reads nodes) store store') (radix : Radix) (position : Nat) :
    answerIn radix position store nodes = answerIn radix position store' nodes := by
  rw [answerIn, answerIn, evaluate_congr h]

end

end Evaluation

/-!
## The operands of a line

A variable in front of an equals sign is the target of its line. The other variables of a line are
its operands, and they are the ones that its nodes read. An equals sign has no other place in a
line, so the second token of a line tells whether there is a target.
-/

namespace Line

/-- The target of a line: a token in front of an equals sign. -/
def target? : List Token → Option Token
  | target :: equals :: _ => if equals.kind = .equals then some target else none
  | _ => none

/-- The tokens of a line without its target and the equals sign behind that. -/
def behindTarget : List Token → List Token
  | target :: equals :: ts => if equals.kind = .equals then ts else target :: equals :: ts
  | ts => ts

/-- The variables among some tokens. -/
def varNames (ts : List Token) : List Bytes := (ts.filter (·.kind = .var)).map Token.lexeme

/-- The variables that a line reads: all variables in it but the target. -/
def operands (line : Bytes) : List Bytes := varNames (behindTarget (significant line))

/-! ### Phrases -/

@[simp] theorem varNames_nil : varNames [] = [] := rfl

@[simp] theorem varNames_append (ts ts' : List Token) :
    varNames (ts ++ ts') = varNames ts ++ varNames ts' := by
  simp [varNames]

theorem varNames_cons_of_ne {t : Token} (h : t.kind ≠ .var) (ts : List Token) :
    varNames (t :: ts) = varNames ts := by
  simp [varNames, h]

theorem Derives.reads_eq {phrase : Phrase} {ts : List Token} {ns : List Node}
    (h : Derives phrase ts ns) : Evaluation.reads ns = varNames ts := by
  induction h with
  | number ht => simp [varNames, Node.reads?, Evaluation.reads, ht]
  | negative hminus ht => simp [varNames, Node.reads?, Evaluation.reads, hminus, ht]
  | var ht => simp [varNames, Node.reads?, Evaluation.reads, ht]
  | group hl _ hr ih =>
    rw [varNames_cons_of_ne (by simp [hl]), varNames_append, varNames_cons_of_ne (by simp [hr])]
    simpa [Node.reads?] using ih
  | abs ha hl _ hr ih =>
    rw [varNames_cons_of_ne (by simp [ha]), varNames_cons_of_ne (by simp [hl]), varNames_append,
      varNames_cons_of_ne (by simp [hr])]
    simpa [Node.reads?] using ih
  | single _ ih => exact ih
  | chain _ ht _ ih ih' =>
    rw [varNames_append, varNames_cons_of_ne (by simp [ht])]
    simpa [Node.reads?] using congrArg₂ (· ++ ·) ih ih'

/-! ### Lines -/

theorem target?_eq_none (ts : List Token) (h : ∀ t ∈ ts.tail, t.kind ≠ .equals) :
    target? ts = none ∧ behindTarget ts = ts := by
  obtain _ | ⟨t, _ | ⟨equals, ts⟩⟩ := ts
  · exact ⟨rfl, rfl⟩
  · exact ⟨rfl, rfl⟩
  · have hne := h equals List.mem_cons_self
    exact ⟨if_neg hne, if_neg hne⟩

theorem Sentence.reads_eq {ts : List Token} {ns : List Node} (h : Sentence ts ns) :
    Evaluation.reads ns = varNames (behindTarget ts) := by
  cases h with
  | blank => rfl
  | clear ht hl hr =>
    rw [(target?_eq_none _ (by simp [hl, hr])).2]
    simp [varNames, Evaluation.reads, Node.reads?, ht, hl, hr]
  | save ht hl hw hr | load ht hl hw hr =>
    rw [(target?_eq_none _ (by simp [hl, hw, hr])).2]
    simp [varNames, Evaluation.reads, Node.reads?, ht, hl, hw, hr]
  | plain h =>
    rw [(target?_eq_none ts fun t ht ↦ h.ne_equals t (List.mem_of_mem_tail ht)).2]
    exact h.reads_eq
  | @output t _ ts _ ht h =>
    rw [(target?_eq_none (t :: ts) h.ne_equals).2, varNames_cons_of_ne (by simp [ht])]
    exact h.reads_eq
  | assign ht he h =>
    rw [behindTarget, if_pos he]
    exact h.reads_eq

/-- A line that was read has nodes that read its operands. -/
theorem reads_read {line : Bytes} (h : (read line).error = none) :
    Evaluation.reads (read line).nodes = operands line := by
  obtain ⟨hstray, ns, hsentence⟩ := sentence_of_read h
  rw [read_of_sentence hstray hsentence, operands, ← hsentence.reads_eq, Evaluation.reads_append]
  exact List.append_nil _

end Line

/-!
## Offsets of errors

Whatever evaluation fails with is reported at the offset of a node that it was given, or at zero
where there is none, so that any property of these is one of the offset. A variable is no way around
that: its value has the offset of the line that set it, but only a malformed number is reported at
the offset of its value, and the values of variables are numbers.
-/

namespace Evaluation

variable {α β : Type} {P : Nat → Prop} {store : Store}

/-! ### Steps that may fail -/

/-- A result has one property, and an error is reported at an offset with another one. -/
def Reports (P : Nat → Prop) (Q : α → Prop) : Except Error α → Prop
  | .ok a => Q a
  | .error e => P e.fault.position

theorem Reports.bind {Q : α → Prop} {R : β → Prop} {x : Except Error α} {f : α → Except Error β}
    (hx : Reports P Q x) (hf : ∀ a, Q a → Reports P R (f a)) : Reports P R (x >>= f) := by
  rcases x with e | a
  · exact hx
  · exact hf a hx

theorem Reports.of_eq_error {Q : α → Prop} {x : Except Error α} {e : Error} (hx : Reports P Q x)
    (h : x = .error e) : P e.fault.position := by
  rw [h] at hx
  exact hx

/-! ### Values -/

/-- Every variable is a number of its radix. -/
def AllNumbers (store : Store) : Prop :=
  ∀ name v, store.find? name = some v → v.numeral.number? ≠ none

/-- The node has an offset with a property. -/
def At (P : Nat → Prop) (n : Node) : Prop := P n.position

/-- A value that is either a number or has an offset with a property. -/
def Traced (P : Nat → Prop) (v : Value) : Prop := v.numeral.number? = none → P v.position

theorem reports_readNumber {v : Value} (h : Traced P v) :
    Reports P (fun _ ↦ True) (readNumber v) := by
  unfold readNumber
  split
  · trivial
  · next hnone => exact h hnone

/-- A group is reported, and turns into a number, where it opens or where its `abs` stands. -/
theorem reports_groupNode {before : List Node} {opener : Node} {v : Value}
    (hbefore : ∀ n ∈ before, At P n) (hopener : At P opener) (hv : Traced P v) :
    Reports P (At P) (groupNode before opener v) := by
  unfold groupNode
  split
  · next function hfunction =>
    have hmem : function ∈ before := List.mem_of_getLast? (Option.filter_eq_some_iff.mp hfunction).1
    exact (reports_readNumber hv).bind fun _ _ ↦ hbefore function hmem
  · exact hopener

theorem position_head? {nodes : List Node} (hzero : P 0) (h : ∀ n ∈ nodes, At P n) :
    P ((nodes.head?.map Node.position).getD 0) := by
  rcases nodes with _ | ⟨n, nodes⟩
  · exact hzero
  · exact h n List.mem_cons_self

section Store

variable (hstore : AllNumbers store)
include hstore

theorem reports_readValue {n : Node} (h : At P n) : Reports P (Traced P) (readValue store n) := by
  unfold readValue
  split
  · exact fun _ ↦ h
  · split
    · next hfind => exact fun hnone ↦ absurd hnone (hstore _ _ hfind)
    · exact h
  · exact h

theorem reports_readOperand {n : Node} (h : At P n) :
    Reports P (fun _ ↦ True) (readOperand store n) :=
  (reports_readValue hstore h).bind fun _ ↦ reports_readNumber

/-! ### Passes -/

/-- An operator is reported where it stands, and turns into a number where its left operand does. -/
theorem reports_operatorNode {op : Operator} {position : Nat} {left right : Node}
    (hposition : P position) (hleft : At P left) (hright : At P right) :
    Reports P (At P) (operatorNode store op position left right) := by
  refine (reports_readOperand hstore hleft).bind fun x _ ↦ ?_
  refine (reports_readOperand hstore hright).bind fun y _ ↦ ?_
  split
  · exact hleft
  · exact hposition

variable {nodes : List Node} (hzero : P 0)
include hzero

/-- Reducing nodes is reported at the offset of one of them, and so is what is left of them. -/
theorem reports_reduce (h : ∀ n ∈ nodes, At P n) : Reports P (At P) (reduce store nodes) := by
  fun_induction reduce store nodes with
  | case1 nodes hlength =>
    rcases nodes with _ | ⟨n, nodes⟩
    · exact hzero
    · exact h n List.mem_cons_self
  | case2 | case4 | case7 => exact position_head? hzero h
  | case3 nodes hlength before opener rest hr inner after hc ihinner ih =>
    refine (ihinner fun n hn ↦ h n (mem_of_mem_inner hr hc hn)).bind fun left hleft ↦ ?_
    refine (reports_readValue hstore hleft).bind fun value hvalue ↦ ?_
    have hnodes := findRedex_nodes hr
    have hnode : Reports P (At P) (groupNode before opener value) :=
      reports_groupNode (fun n hn ↦ h n (by simp [← hnodes, Redex.nodes, hn]))
        (h opener (by simp [← hnodes, Redex.nodes])) hvalue
    refine hnode.bind fun node hnode ↦ ih node fun n hn ↦ ?_
    rcases mem_or_eq_of_group hr hc hn with hn | rfl
    · exact h n hn
    · exact hnode
  | case5 nodes hlength before op position after hr left right ho ih =>
    obtain ⟨hleft, hright⟩ := mem_of_operands? hr ho
    have hposition : P position :=
      h ⟨.operator op, position⟩ (by simp [← findRedex_nodes hr, Redex.nodes])
    have hnode : Reports P (At P) (operatorNode store op position left right) :=
      reports_operatorNode hstore hposition (h left hleft) (h right hright)
    refine hnode.bind fun node hnode ↦ ih node fun n hn ↦ ?_
    rcases mem_or_eq_of_operator hr hn with hn | rfl
    · exact h n hn
    · exact hnode
  | case6 nodes hlength hr shorter hd ih => exact ih fun n hn ↦ h n (mem_of_mem_dropEnd? hd hn)

/-! ### Offsets of answers -/

theorem reports_evaluate (h : ∀ n ∈ nodes, At P n) :
    Reports P (fun _ ↦ True) (evaluate store nodes) := by
  refine (reports_reduce hstore hzero h).bind fun n hn ↦ ?_
  refine (reports_readValue hstore hn).bind fun v hv ↦ ?_
  exact (reports_readNumber hv).bind fun _ _ ↦ trivial

theorem reports_answer (h : ∀ n ∈ nodes, At P n) :
    Reports P (fun _ ↦ True) (answer store nodes) :=
  (reports_evaluate hstore hzero h).bind fun _ _ ↦ trivial

theorem reports_answerIn {position : Nat} (hposition : P position) (h : ∀ n ∈ nodes, At P n)
    (radix : Radix) : Reports P (fun _ ↦ True) (answerIn radix position store nodes) := by
  refine (reports_evaluate hstore hzero h).bind ?_
  rintro ⟨numeral, x⟩ -
  dsimp only
  split
  · trivial
  · exact hposition

end Store

end Evaluation

end Abacus
