import Abacus.Proofs.Line.Sentences
import Abacus.Proofs.Token.Scan

/-!
# Lines that are read and lines that are not

Reading accepts no other lines than the sentences, and each error says where reading ended.
-/

namespace Abacus

/-!
## The lines that are read

A line is read without an error exactly when no character of it is stray and its tokens other than
blanks are a sentence of the grammar; its nodes are then those of the sentence and the mark of the
end.
-/

namespace Line

/-! ### Tokens that matter -/

/-- A token that is neither a blank nor the one that says where the line ends. -/
def isSignificant (t : Token) : Bool := t.kind != .space && t.kind != .endOfLine

/-- The tokens of a line that reading goes by. -/
def significant (line : Bytes) : List Token := (Token.scan line).filter isSignificant

theorem ofTokens_append {length : Nat} {front : List Token} (h : ∀ t ∈ front, t.IsCut)
    (rest : List Token) :
    Lexemes.ofTokens length (front ++ rest)
      = ⟨front.filter isSignificant ++ (Lexemes.ofTokens length rest).tokens,
          (Lexemes.ofTokens length rest).ending⟩ := by
  induction front with
  | nil => rfl
  | cons t front ih =>
    obtain ⟨s, hs⟩ := h t List.mem_cons_self
    have hkind := Token.kind_of_lexeme? hs
    have hrest := ih fun u hu ↦ h u (List.mem_cons_of_mem t hu)
    rw [List.cons_append, Lexemes.ofTokens]
    split
    · next hk => exact absurd hk hkind.2
    · next hk => exact absurd hk hkind.1
    · next hk => rw [hrest, List.filter_cons_of_neg (by simp [isSignificant, hk])]
    · next hspace =>
      have hkeep : isSignificant t = true := by simpa [isSignificant, hkind.2] using hspace
      rw [List.filter_cons_of_pos hkeep, hrest, List.cons_append]

theorem lexemes_of_no_stray {line : Bytes}
    (h : Token.Kind.stray ∉ (Token.scan line).map Token.kind) :
    lexemes line = ⟨significant line, .endOfLine line.length⟩ := by
  obtain ⟨front, rest, hscan, -, hcut⟩ := Token.scan_eq_append line
  cases rest with
  | cons b rest => simp [hscan, Token.lastToken] at h
  | nil =>
    rw [lexemes, significant, hscan, ofTokens_append hcut, List.filter_append]
    rfl

theorem ending_cases (line : Bytes) :
    (lexemes line).ending = .endOfLine line.length
      ∨ ∃ character position, (lexemes line).ending = .stray character position := by
  obtain ⟨front, rest, hscan, -, hcut⟩ := Token.scan_eq_append line
  rw [lexemes, hscan, ofTokens_append hcut]
  cases rest with
  | nil => exact .inl rfl
  | cons b rest => exact .inr ⟨_, _, rfl⟩

theorem ending_of_stray {line : Bytes}
    (h : Token.Kind.stray ∈ (Token.scan line).map Token.kind) :
    ∃ character position, (lexemes line).ending = .stray character position := by
  obtain ⟨front, rest, hscan, -, hcut⟩ := Token.scan_eq_append line
  rw [lexemes, hscan, ofTokens_append hcut]
  cases rest with
  | cons b rest => exact ⟨_, _, rfl⟩
  | nil =>
    rw [hscan] at h
    obtain ⟨t, ht, hkind⟩ := List.mem_map.mp h
    rcases List.mem_append.mp ht with ht | ht
    · obtain ⟨s, hs⟩ := hcut t ht
      exact absurd hkind (Token.kind_of_lexeme? hs).1
    · rw [List.mem_singleton.mp ht] at hkind
      cases hkind

/-! ### Sentences -/

theorem Complete.readEnd {q : Progress} (h : Complete q) (position : Nat) :
    readEnd q (.endOfLine position) = ⟨q.push .endOfLine position, none⟩ := by
  have hend : endError? q (.endOfLine position) = none := by
    have hleft := h.any_endsOperand
    cases hl : q.left? with
    | none => simp [hl] at hleft
    | some left =>
      rw [hl, Option.any_some] at hleft
      simp [endError?, aheadError?, h.depth_eq_zero, hl, hleft]
  rw [Line.readEnd, hend]
  rfl

theorem Derives.complete {phrase : Phrase} {ts : List Token} {ns : List Node} {p : Progress}
    (h : Derives phrase ts ns) (hp : p.depth = 0) : Complete (p.after ts ns) :=
  ⟨hp, h.any_endsOperand p⟩

theorem Derives.readTokens {ts : List Token} {ns : List Node} {p : Progress}
    (h : Derives .expression ts ns) (hp : p.operandDue = true) (hdepth : p.depth = 0)
    (position : Nat) :
    readTokens (.endOfLine position) ts p
      = ⟨(p.after ts ns).push .endOfLine position, none⟩ := by
  have hreads := readTokens_append_of_reads (.endOfLine position) (h.reads hp) []
  rw [List.append_nil] at hreads
  rw [hreads, Line.readTokens, (h.complete hdepth).readEnd]

/-- A verb with the rest of its line is one node. -/
theorem readTokens_verb (verb : Verb) {t : Token} {rest : List Token} {shape : Node.Shape}
    (hverb : Verb.ofKind? t.kind = some verb) (hshape : verb.shape? rest = some shape)
    (position : Nat) : ∃ p : Progress, p.recent = [⟨shape, t.position⟩]
      ∧ readTokens (.endOfLine position) (t :: rest) .start
        = ⟨p.push .endOfLine position, none⟩ := by
  refine ⟨(rest.foldl Progress.consume (Progress.start.consume t)).push shape t.position, ?_, ?_⟩
  · simp [Progress.start]
  · rw [readTokens.eq_def]
    simp [hverb, hshape, readVerb, Progress.start]

/-- The kind of the token that a verb is written as. -/
def Verb.kind : Verb → Token.Kind
  | .clear => .clear
  | .save => .save
  | .load => .load

theorem kind_of_ofKind? {kind : Token.Kind} {verb : Verb} (h : Verb.ofKind? kind = some verb) :
    kind = verb.kind := by
  cases kind with
  | clear | save | load =>
    cases h
    rfl
  | _ => cases h

theorem sentence_of_verb {t : Token} {rest : List Token} {verb : Verb} {shape : Node.Shape}
    (hverb : Verb.ofKind? t.kind = some verb) (hshape : verb.shape? rest = some shape) :
    Sentence (t :: rest) [⟨shape, t.position⟩] := by
  have ht := kind_of_ofKind? hverb
  unfold Verb.shape? at hshape
  split at hshape
  · split at hshape
    · next h =>
      obtain ⟨rfl, hl, hr⟩ := h
      cases hshape
      exact .clear ht hl hr
    · cases hshape
  · split at hshape
    · next h =>
      obtain ⟨hl, hname, hr⟩ := h
      cases verb with
      | clear => cases hshape
      | save =>
        cases hshape
        exact .save ht hl hname hr
      | load =>
        cases hshape
        exact .load ht hl hname hr
    · cases hshape
  · cases hshape

/-- The tokens of a sentence are read, and its nodes are what has been read behind them. -/
theorem Sentence.readTokens {ts : List Token} {ns : List Node} (h : Sentence ts ns)
    (position : Nat) : ∃ p : Progress, p.recent = ns.reverse
      ∧ readTokens (.endOfLine position) ts .start = ⟨p.push .endOfLine position, none⟩ := by
  cases h with
  | blank => exact ⟨.start, rfl, rfl⟩
  | clear ht hl hr =>
    exact readTokens_verb .clear (by rw [ht]; rfl) (by simp [Verb.shape?, hl, hr]) position
  | save ht hl hname hr =>
    exact readTokens_verb .save (by rw [ht]; rfl)
      (by simp [Verb.shape?, hl, hname, hr, Verb.ofProfile?]) position
  | load ht hl hname hr =>
    exact readTokens_verb .load (by rw [ht]; rfl)
      (by simp [Verb.shape?, hl, hname, hr, Verb.ofProfile?]) position
  | plain h => exact ⟨_, by simp [Progress.after, Progress.start], h.readTokens rfl rfl position⟩
  | @output t radix ts ns ht h =>
    have hplace : Places (Progress.start.consume t) t
        ((Progress.start.consume t).push (.setOutput radix) t.position) := .output ht rfl
    refine ⟨_, ?_, (readTokens_cons_of_places hplace ts).trans (h.readTokens rfl rfl position)⟩
    simp [Progress.after, Progress.start]
  | @assign target equals ts ns ht he h =>
    have htarget : Places (Progress.start.consume target) target
        ((Progress.start.consume target).push (.var target.lexeme) target.position) := .var ht rfl
    have hequals := Places.equals (p := ((Progress.start.consume target).push
      (.var target.lexeme) target.position).consume equals) he rfl
    refine ⟨_, ?_, (readTokens_cons_of_places htarget _).trans
      ((readTokens_cons_of_places hequals ts).trans (h.readTokens rfl rfl position))⟩
    simp [Progress.after]

/-- An expression at depth zero that goes as far as a parenthesis goes as far as the end. -/
theorem BeginsFully.exists_derives {p q : Progress} {ts : List Token} (h : BeginsFully p ts q)
    (hp : p.depth = 0) : ∃ ns, Derives .expression ts ns := by
  obtain ⟨front, ns, rest, rfl, hfront, hrest, hend⟩ := h
  cases hrest with
  | refl => exact ⟨ns, by rwa [List.append_nil]⟩
  | @token _ p' _ r rest hplace _ =>
    have hr : r.kind = .rparen := hend r rfl
    cases hplace with
    | rparen _ hdepth _ => exact absurd hp hdepth
    | _ ht => rw [hr] at ht; cases ht
  | negative hminus _ _ _ =>
    have hr := hend _ rfl
    rw [hminus] at hr
    cases hr

/-- `=` is read behind a variable that begins the line only. -/
theorem Reads.head_ne_equals {p q : Progress} {ts : List Token} (h : Reads p ts q)
    (hp : ∀ name position, p.recent ≠ [⟨.var name, position⟩]) :
    ∀ t ∈ ts.head?, t.kind ≠ .equals := by
  intro t ht hkind
  cases h with
  | refl => cases ht
  | token hplace _ =>
    cases ht
    cases hplace with
    | equals _ hrecent => exact hp _ _ hrecent
    | _ ht => rw [hkind] at ht; cases ht
  | negative hminus _ _ _ =>
    cases ht
    rw [hkind] at hminus
    cases hminus

/-- A complete line asks for the radix of its value, or for a target, or is an expression. -/
theorem Reads.exists_sentence {q : Progress} {ts : List Token} (h : Reads .start ts q)
    (hq : Complete q) : ∃ ns, Sentence ts ns := by
  by_cases hplain : StartsPlain .start ts
  · obtain ⟨ns, hns⟩ := (h.beginsFully rfl hplain hq).exists_derives rfl
    exact ⟨ns, .plain hns⟩
  -- every line that does not begin with a radix or with a target starts plainly
  cases h with
  | refl => exact absurd (fun _ ↦ ⟨by simp, by simp⟩) hplain
  | negative hminus ht _ _ => exact absurd (fun _ ↦ ⟨by simp [hminus], by simp [ht]⟩) hplain
  | @token _ p' _ t ts hplace hrest =>
    cases hplace with
    | output ht _ =>
      obtain ⟨ns, hns⟩ :=
        (hrest.beginsFully rfl (startsPlain_of_ne_nil (by simp) _) hq).exists_derives rfl
      exact ⟨_, .output ht hns⟩
    | var ht _ =>
      cases hrest with
      | @token _ p'' _ e rest hplace hrest =>
        cases hplace with
        | equals he _ =>
          obtain ⟨ns, hns⟩ :=
            (hrest.beginsFully rfl (startsPlain_of_ne_nil (by simp) _) hq).exists_derives rfl
          exact ⟨_, .assign ht he hns⟩
        | _ he => exact absurd (fun _ ↦ ⟨by simp [ht], by simp [he]⟩) hplain
      | refl => exact absurd (fun _ ↦ ⟨by simp [ht], by simp⟩) hplain
      | negative hminus _ _ _ => exact absurd (fun _ ↦ ⟨by simp [ht], by simp [hminus]⟩) hplain
    | equals _ hrecent => cases hrecent
    | rparen _ hdepth _ => exact absurd rfl hdepth
    | operator _ hleft => cases hleft
    | _ ht => exact absurd (fun _ ↦ ⟨by simp [ht], hrest.head_ne_equals (by simp)⟩) hplain

theorem complete_of_endError? {p : Progress} {ending : Ending} (hp : p.recent ≠ [])
    (h : endError? p ending = none) : Complete p := by
  obtain ⟨left, recent, hrecent⟩ := List.exists_cons_of_ne_nil hp
  have hleft : p.left? = some left := by rw [Progress.left?, hrecent]; rfl
  unfold endError? at h
  rw [hleft] at h
  split at h
  · cases h
  · next hnone => cases hnone
  · next left' hahead hsome =>
    cases hsome
    split at h
    · next hends =>
      refine ⟨?_, by rw [hleft]; exact hends⟩
      cases ending with
      | endOfLine position => simpa [aheadError?] using hahead
      | stray | cutShort => cases hahead
    · cases h

/-- Tokens that are read without an error are those of a sentence. -/
theorem exists_sentence_of_readTokens {ending : Ending} {ts : List Token}
    (h : (readTokens ending ts .start).error = none) : ∃ ns, Sentence ts ns := by
  rcases reads_of_readTokens h with ⟨q, hreads, hend⟩ | ⟨t, rest, verb, rfl, -, hverb, hread⟩
  · by_cases hts : ts = []
    · exact ⟨[], hts ▸ .blank⟩
    · exact hreads.exists_sentence (complete_of_endError? (hreads.recent_ne_nil hts) hend)
  · unfold readVerb at hread
    split at hread
    · cases hread
    · cases hread
    · split at hread
      · next hshape => exact ⟨_, sentence_of_verb hverb hshape⟩
      · cases hread

theorem readTokens_stray_ne_none {character : Bytes} {position : Nat} {ts : List Token}
    {p : Progress} : (readTokens (.stray character position) ts p).error ≠ none := by
  intro h
  rcases reads_of_readTokens h with ⟨q, -, hend⟩ | ⟨t, rest, verb, -, -, -, hread⟩
  · cases hend
  · cases hread

/-! ### Lines -/

theorem read_of_outcome {line : Bytes} {p : Progress} {position : Nat}
    (h : outcome line = ⟨p.push .endOfLine position, none⟩) :
    read line = ⟨p.nodes ++ [⟨.endOfLine, position⟩], none⟩ := by
  have herror : (outcome line).error? = none := by rw [h]; rfl
  rw [read, Outcome.nodes, herror, h]
  simp [Progress.nodes]

theorem read_of_sentence {line : Bytes} {ns : List Node}
    (hstray : Token.Kind.stray ∉ (Token.scan line).map Token.kind)
    (h : Sentence (significant line) ns) :
    read line = ⟨ns ++ [⟨.endOfLine, line.length⟩], none⟩ := by
  obtain ⟨p, hp, hread⟩ := h.readTokens line.length
  have houtcome : outcome line = ⟨p.push .endOfLine line.length, none⟩ := by
    rw [outcome, lexemes_of_no_stray hstray]
    exact hread
  rw [read_of_outcome houtcome, Progress.nodes, hp, List.reverse_reverse]

theorem sentence_of_read {line : Bytes} (h : (read line).error = none) :
    Token.Kind.stray ∉ (Token.scan line).map Token.kind ∧ ∃ ns, Sentence (significant line) ns := by
  have herror : (outcome line).error = none := by
    cases he : (outcome line).error with
    | none => rfl
    | some e => simp [read, Outcome.error?, he] at h
  have hstray : Token.Kind.stray ∉ (Token.scan line).map Token.kind := by
    intro hmem
    obtain ⟨character, position, hending⟩ := ending_of_stray hmem
    rw [outcome, hending] at herror
    exact readTokens_stray_ne_none herror
  refine ⟨hstray, ?_⟩
  rw [outcome, lexemes_of_no_stray hstray] at herror
  exact exists_sentence_of_readTokens herror

/-- **The language of lines.** A line is read without an error exactly when it has no stray
character and its significant tokens are a sentence, and it is read into the nodes of that sentence
and the mark of the end. -/
theorem read_iff_sentence (line : Bytes) :
    ((read line).error = none ↔
      Token.Kind.stray ∉ (Token.scan line).map Token.kind
        ∧ ∃ ns, Sentence (significant line) ns)
    ∧ ∀ ns, read line = ⟨ns ++ [⟨.endOfLine, line.length⟩], none⟩ ↔
      Token.Kind.stray ∉ (Token.scan line).map Token.kind ∧ Sentence (significant line) ns := by
  refine ⟨⟨sentence_of_read, fun ⟨hstray, ns, h⟩ ↦ by rw [read_of_sentence hstray h]⟩,
    fun ns ↦ ⟨fun hread ↦ ?_, fun ⟨hstray, h⟩ ↦ read_of_sentence hstray h⟩⟩
  have hnone : (read line).error = none := by rw [hread]
  obtain ⟨hstray, ns', h⟩ := sentence_of_read hnone
  have hnodes := (read_of_sentence hstray h).symm.trans hread
  obtain rfl : ns' = ns := List.append_cancel_right (congrArg ReadLine.nodes hnodes)
  exact ⟨hstray, h⟩

/-!
## What reading fails with

Reading a line fails with a report about the line: a stray character, a token out of place, or an
end that comes too early (`Error.Arises`). The two reports of the reader about its own work are
never made, because a scan always says how its line ended and the end of a line that was read is
always marked.
-/

/-- An error that the line is to blame for. -/
def Error.BlamesLine (e : Error) : Prop :=
  e.fault.kind = .lexical ∨ e.fault.kind = .grammatical ∨ e.fault.kind = .unexpectedEnd

/-- The tokens end at the end of the line or at a stray character. -/
def Ending.IsSaid : Ending → Prop
  | .cutShort _ => False
  | _ => True

theorem isSaid_ending (line : Bytes) : (lexemes line).ending.IsSaid := by
  rcases ending_cases line with h | ⟨character, position, h⟩
  · rw [h]
    trivial
  · rw [h]
    trivial

/-- How an error comes about from the tokens of a line and from how they end. -/
inductive Error.Arises (ending : Ending) (ts : List Token) : Error → Prop where
  | stray {character : Bytes} {position : Nat} (h : ending = .stray character position) :
    Arises ending ts (.stray character position)
  | unexpected {t : Token} (h : t ∈ ts) (requirement : Requirement) :
    Arises ending ts (.unexpected t requirement)
  | unclosed {position : Nat} (h : ending = .endOfLine position) :
    Arises ending ts (.unclosed position)
  | incomplete {position : Nat} (h : ending = .endOfLine position) (last : Node) :
    Arises ending ts (.incomplete last position)

theorem Error.Arises.blamesLine {ending : Ending} {ts : List Token} {e : Error}
    (h : e.Arises ending ts) : e.BlamesLine := by
  cases h with
  | stray => exact .inl rfl
  | unexpected => exact .inr (.inl rfl)
  | unclosed | incomplete => exact .inr (.inr rfl)

theorem Error.Arises.mono {ending : Ending} {ts ts' : List Token} {e : Error}
    (h : e.Arises ending ts) (hts : ts ⊆ ts') : e.Arises ending ts' := by
  cases h with
  | stray h => exact .stray h
  | unexpected h requirement => exact .unexpected (hts h) requirement
  | unclosed h => exact .unclosed h
  | incomplete h last => exact .incomplete h last

/-! ### The end of a line -/

section Arises

variable {ending : Ending} (hsaid : ending.IsSaid) {p : Progress} {ts : List Token} {e : Error}
include hsaid

theorem arises_of_aheadError? (h : aheadError? p ending = some e) : e.Arises ending ts := by
  cases ending with
  | endOfLine position =>
    simp only [aheadError?] at h
    split at h
    · cases h
      exact .unclosed rfl
    · cases h
  | stray character position =>
    cases h
    exact .stray rfl
  | cutShort => exact absurd hsaid id

theorem arises_of_endError? (h : endError? p ending = some e) : e.Arises ending ts := by
  unfold endError? at h
  split at h
  · next e' hahead =>
    cases h
    exact arises_of_aheadError? hsaid hahead
  · cases h
  · next left hahead _ =>
    split at h
    · cases h
    · cases h
      cases ending with
      | endOfLine position => exact .incomplete rfl left
      | stray character position => cases hahead
      | cutShort => exact absurd hsaid id

theorem arises_of_readEnd (h : (readEnd p ending).error = some e) : e.Arises ending ts := by
  unfold readEnd at h
  split at h
  · next e' hend =>
    cases h
    exact arises_of_endError? hsaid hend
  · cases h

theorem arises_of_readVerb {verb : Verb} {t : Token} {rest : List Token}
    (h : (readVerb verb p t rest ending).error = some e) (ht : t ∈ ts) : e.Arises ending ts := by
  unfold readVerb at h
  split at h
  · cases h
    exact .stray rfl
  · exact absurd hsaid id
  · split at h
    · cases h
    · cases h
      exact .unexpected ht _

/-! ### Tokens -/

omit hsaid in
/-- A token out of place is all that a single token can be. -/
theorem exists_unexpected_of_readToken {t : Token} (h : readToken p t = .error e) :
    ∃ requirement, e = .unexpected t requirement := by
  have hite : ∀ {b : Bool} {q : Progress} {requirement : Requirement},
      (if b then .ok q else .error (.unexpected t requirement) : Except Error Progress) = .error e →
      ∃ requirement, e = .unexpected t requirement := fun h ↦
    ⟨_, (ite_eq_error_iff.mp h).2.symm⟩
  unfold readToken at h
  split at h
  · unfold readEquals at h
    split at h
    · cases h
    · cases h
      exact ⟨_, rfl⟩
  · unfold readVariable at h
    split at h
    · exact hite h
    · cases h
  · exact hite h
  · exact hite h
  · exact hite h
  · exact hite h
  · unfold readRparen at h
    split at h
    · cases h
      exact ⟨_, rfl⟩
    · exact hite h
  · unfold readOperator at h
    split at h
    · exact hite h
    · cases h
      exact ⟨_, rfl⟩
  · cases h
    exact ⟨_, rfl⟩

/-- Reading fails at one of its tokens, or at how they end. -/
theorem arises_of_readTokens (h : (readTokens ending ts p).error = some e) :
    e.Arises ending ts := by
  fun_induction readTokens ending ts p with
  | case1 p => exact arises_of_readEnd hsaid h
  | case2 t rest before p verb hverb hp => exact arises_of_readVerb hsaid h List.mem_cons_self
  | case3 =>
    cases h
    exact .unexpected List.mem_cons_self _
  | case4 t before p hverb hlook next rest' hnext ih =>
    exact (ih h).mono fun u hu ↦ List.mem_cons_of_mem t (List.mem_cons_of_mem next hu)
  | case5 =>
    cases h
    exact .unexpected List.mem_cons_self _
  | case6 t before p hverb hlook =>
    -- a minus sign at the end: what is ahead is to blame before the sign is
    cases h
    cases hahead : aheadError? p ending with
    | none => exact .unexpected List.mem_cons_self _
    | some e => exact arises_of_aheadError? hsaid hahead
  | case7 t rest before p hverb hlook p' hread ih =>
    exact (ih h).mono (List.subset_cons_self t rest)
  | case8 t rest before p hverb hlook e' hread =>
    cases h
    obtain ⟨requirement, rfl⟩ := exists_unexpected_of_readToken hread
    exact .unexpected List.mem_cons_self requirement

end Arises

/-- Where reading has not failed, the end is marked. -/
theorem left?_of_readTokens {ending : Ending} {ts : List Token} {p : Progress}
    (h : (readTokens ending ts p).error = none) :
    (readTokens ending ts p).progress.left?.any (·.shape == .endOfLine) = true := by
  fun_induction readTokens ending ts p with
  | case1 p =>
    unfold readEnd at h ⊢
    split
    · next hend => simp [hend] at h
    · rfl
  | case2 t rest before p verb hverb hp =>
    unfold readVerb at h ⊢
    split at h
    · cases h
    · cases h
    · split at h
      · rfl
      · cases h
  | case4 t before p hverb hlook next rest' hnext ih => exact ih h
  | case7 t rest before p hverb hlook p' hread ih => exact ih h
  | case3 | case5 | case6 | case8 => cases h

theorem error_outcome_of_read {line : Bytes} {e : Error} (h : (read line).error = some e) :
    (outcome line).error = some e := by
  simp only [read, Outcome.error?] at h
  split at h
  · next e' herror =>
    cases h
    exact herror
  · next hnone =>
    have hmark : (outcome line).progress.left?.any (·.shape == .endOfLine) = true :=
      left?_of_readTokens hnone
    rw [hmark] at h
    cases h

theorem arises_of_read {line : Bytes} {e : Error} (h : (read line).error = some e) :
    e.Arises (lexemes line).ending (lexemes line).tokens :=
  arises_of_readTokens (isSaid_ending line) (error_outcome_of_read h)

/-- A line is read, or it is to blame. -/
theorem blamesLine_of_read {line : Bytes} {e : Error} (h : (read line).error = some e) :
    e.BlamesLine := (arises_of_read h).blamesLine

end Line

end Abacus
