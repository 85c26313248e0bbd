import Abacus.Proofs.Line.Accepted
import Abacus.Proofs.Token.Segmentation
import Abacus.Proofs.Token.Wording

/-!
# Errors and what stands before them

What an error of reading reports, and how far a line was right.
-/

namespace Abacus

/-!
## Where reading fails

A line that cannot be read is reported with an offset and the text that stands there: that of a
token out of place, or the one character that is stray. Only where the line ends too early is there
no such text, and the offset is its length. What stands behind a stray character is never reported.
-/

namespace Token

theorem character_ne_nil {s : Bytes} (h : s ≠ []) : character s ≠ [] := by
  obtain ⟨b, rest, rfl⟩ := List.exists_cons_of_ne_nil h
  have hpos : 0 < Bytes.leadLength b := by
    unfold Bytes.leadLength
    split_ifs
    · decide
    · decide
    · decide
    · decide
    · decide
  intro hnil
  rcases List.take_eq_nil_iff.mp hnil with hzero | hcons
  · omega
  · cases hcons

theorem character_prefix (s : Bytes) : character s <+: s := by
  rcases s with _ | ⟨b, rest⟩
  · exact List.nil_prefix
  · exact List.take_prefix _ _

end Token

namespace Line

open Token (Cuts)

/-- The tokens of a line and what it is read by: lexemes up to the last token, which is the end of
the line or a stray character. -/
structure Scanned (line : Bytes) (front : List Token) (last : Token) : Prop where
  scan_eq : Token.scan line = front ++ [last]
  cuts : ∀ t ∈ front, Cuts line t ∧ t.position < last.position
  tokens : ∀ t ∈ (lexemes line).tokens, t ∈ front ∧ t.kind ≠ .space
  ending : (last = ⟨.endOfLine, [], line.length⟩ ∧ (lexemes line).ending = .endOfLine line.length)
    ∨ last.position < line.length
      ∧ last = ⟨.stray, Token.character (line.drop last.position), last.position⟩
      ∧ (lexemes line).ending = .stray last.lexeme last.position

theorem exists_scanned (line : Bytes) : ∃ front last, Scanned line front last := by
  obtain ⟨front, last, hscan, htiles, hcuts, hends⟩ :=
    (Token.segments_scanFrom 0 line).exists_tiles List.drop_zero (Nat.zero_le _)
  have hcut : ∀ t ∈ front, t.IsCut :=
    fun t ht ↦ ⟨_, Token.lexeme?_eq_some_iff.mpr (hcuts t ht).longest⟩
  have hlexemes : lexemes line = ⟨front.filter isSignificant
      ++ (Lexemes.ofTokens line.length [last]).tokens,
      (Lexemes.ofTokens line.length [last]).ending⟩ := by
    rw [lexemes, Token.scan, hscan, ofTokens_append hcut]
  refine ⟨front, last, hscan, ?_, ?_, ?_⟩
  · intro t ht
    obtain ⟨-, hlt, hle⟩ := htiles.finish_le.2 t ht
    exact ⟨hcuts t ht, Nat.lt_of_lt_of_le hlt hle⟩
  · rw [hlexemes]
    intro t ht
    rcases List.mem_append.mp ht with ht | ht
    · obtain ⟨hfront, hkeep⟩ := List.mem_filter.mp ht
      refine ⟨hfront, fun hkind ↦ ?_⟩
      rw [isSignificant, hkind] at hkeep
      cases hkeep
    · -- the last token is none that a line is read by
      rcases hends.eq_or with hlast | ⟨-, hlast⟩
      · rw [hlast] at ht
        cases ht
      · rw [hlast] at ht
        cases ht
  · rw [hlexemes]
    rcases hends.eq_or with hlast | ⟨hlt, hlast⟩
    · left
      refine ⟨hlast, ?_⟩
      rw [hlast]
      rfl
    · right
      refine ⟨hlt, hlast, ?_⟩
      rw [hlast]
      rfl

namespace Scanned

variable {line : Bytes} {front : List Token} {last : Token}

theorem last_mem (h : Scanned line front last) : last ∈ Token.scan line := by
  rw [h.scan_eq]
  exact List.mem_append_right _ List.mem_cons_self

theorem position_le (h : Scanned line front last) : last.position ≤ line.length := by
  rcases h.ending with ⟨hlast, -⟩ | ⟨hlt, -⟩
  · rw [hlast]
  · exact hlt.le

/-- The last token stands where the tokens that a line is read by end. -/
theorem position_eq (h : Scanned line front last) :
    last.position = (lexemes line).ending.position := by
  rcases h.ending with ⟨hlast, hending⟩ | ⟨-, -, hending⟩
  · rw [hlast, hending]
    rfl
  · rw [hending]
    rfl

theorem eq_last_of_stray (h : Scanned line front last) {t : Token} (ht : t ∈ Token.scan line)
    (hkind : t.kind = .stray) : t = last := by
  rw [h.scan_eq] at ht
  rcases List.mem_append.mp ht with ht | ht
  · exact absurd hkind (h.cuts t ht).1.kind_ne.1
  · exact List.mem_singleton.mp ht

theorem of_endOfLine (h : Scanned line front last) {position : Nat}
    (hending : (lexemes line).ending = .endOfLine position) :
    position = line.length ∧ ∀ t ∈ Token.scan line, t.kind ≠ .stray := by
  rcases h.ending with ⟨hlast, heq⟩ | ⟨-, -, heq⟩
  · rw [heq] at hending
    cases hending
    refine ⟨rfl, fun t ht hkind ↦ ?_⟩
    rw [h.eq_last_of_stray ht hkind, hlast] at hkind
    cases hkind
  · rw [heq] at hending
    cases hending

theorem of_stray (h : Scanned line front last) {character : Bytes} {position : Nat}
    (hending : (lexemes line).ending = .stray character position) :
    last = ⟨.stray, character, position⟩ ∧ position < line.length
      ∧ character = Token.character (line.drop position) := by
  rcases h.ending with ⟨-, heq⟩ | ⟨hlt, hlast, heq⟩
  · rw [heq] at hending
    cases hending
  · rw [heq] at hending
    cases hending
    exact ⟨by rw [hlast], hlt, by rw [hlast]⟩

/-- A token out of place stands in the line, in front of the last token. -/
theorem text_of_mem (h : Scanned line front last) {t : Token} (ht : t ∈ (lexemes line).tokens) :
    t.position < last.position ∧ t.text ≠ [] ∧ t.text <+: line.drop t.position := by
  obtain ⟨hfront, hspace⟩ := h.tokens t ht
  obtain ⟨hcut, hlt⟩ := h.cuts t hfront
  have htext := hcut.text
  rw [if_neg hspace] at htext
  rw [htext]
  exact ⟨hlt, hcut.longest.lexeme.ne_nil, hcut.longest.isPrefix⟩

end Scanned

/-- **Reading fails at what it names.** A line that is not read is reported as having a stray
character, a token out of place or an end that comes too early. In the first two cases the offset is
in the line and the text stands there; a stray character is the one that ends the scan, and one
character of the line if that is a text. In the third case the line has no stray character, and the
offset is its length. Nothing behind a stray character is reported. -/
theorem fault_of_read {line : Bytes} {e : Error} (h : (read line).error = some e) :
    (e.fault.kind = .lexical ∨ e.fault.kind = .grammatical ∨ e.fault.kind = .unexpectedEnd)
    ∧ (e.fault.kind = .lexical ∨ e.fault.kind = .grammatical → e.fault.position < line.length
      ∧ e.fault.text ≠ [] ∧ e.fault.text <+: line.drop e.fault.position)
    ∧ (e.fault.kind = .lexical →
      (∃ t ∈ Token.scan line, t.kind = .stray ∧ t.position = e.fault.position)
      ∧ ∀ s : String, line = utf8 s → ∃ before c after, s = before ++ String.singleton c ++ after
        ∧ e.fault.position = (utf8 before).length ∧ e.fault.text = utf8 (String.singleton c))
    ∧ (e.fault.kind = .unexpectedEnd →
      e.fault.position = line.length ∧ ∀ t ∈ Token.scan line, t.kind ≠ .stray)
    ∧ ∀ t ∈ Token.scan line, t.kind = .stray → e.fault.position ≤ t.position := by
  obtain ⟨front, last, hscanned⟩ := exists_scanned line
  have hbehind : ∀ {position : Nat}, position ≤ last.position →
      ∀ t ∈ Token.scan line, t.kind = .stray → position ≤ t.position := by
    intro position hle t ht hkind
    rwa [hscanned.eq_last_of_stray ht hkind]
  refine ⟨blamesLine_of_read h, ?_⟩
  rcases arises_of_read h with hending | @⟨t, ht, requirement⟩ | hending | ⟨hending, left⟩
  · obtain ⟨rfl, hlt, htext⟩ := hscanned.of_stray hending
    refine ⟨fun _ ↦ ⟨hlt, ?_, ?_⟩, fun _ ↦ ⟨⟨_, hscanned.last_mem, rfl, rfl⟩, ?_⟩, nofun,
      hbehind le_rfl⟩
    · refine htext ▸ Token.character_ne_nil ?_
      rw [ne_eq, List.drop_eq_nil_iff]
      exact Nat.not_le_of_lt hlt
    · exact htext ▸ Token.character_prefix _
    · exact fun s hs ↦ Token.exists_character_of_stray hscanned.last_mem rfl hs
  · obtain ⟨hlt, hne, hprefix⟩ := hscanned.text_of_mem ht
    exact ⟨fun _ ↦ ⟨hlt.trans_le hscanned.position_le, hne, hprefix⟩, nofun, nofun, hbehind hlt.le⟩
  · obtain ⟨rfl, hnone⟩ := hscanned.of_endOfLine hending
    exact ⟨nofun, nofun, fun _ ↦ ⟨rfl, hnone⟩, fun t ht hk ↦ absurd hk (hnone t ht)⟩
  · obtain ⟨rfl, hnone⟩ := hscanned.of_endOfLine hending
    exact ⟨nofun, nofun, fun _ ↦ ⟨rfl, hnone⟩, fun t ht hk ↦ absurd hk (hnone t ht)⟩

/-- A stray character of two bytes, behind a sum. -/
theorem fault_of_read_stray :
    let e := Error.stray (utf8 "§") 5
    (read (utf8 "1 + 2§")).error = some e ∧ e.fault.kind = .lexical
      ∧ ∃ before c after, "1 + 2§" = before ++ String.singleton c ++ after
        ∧ e.fault.position = (utf8 before).length ∧ e.fault.text = utf8 (String.singleton c) := by
  intro e
  have hread : (read (utf8 "1 + 2§")).error = some e := by decide +kernel
  exact ⟨hread, rfl, ((fault_of_read hread).2.2.1 rfl).2 _ rfl⟩

end Line

/-!
## Lines that are read in part

Reading stops at a token out of place, behind a verb that has taken the whole line, or where the
tokens end (`Stops`). The tokens before that were placed one after the other, and from what has been
read of them a line can always be completed: with the parentheses that are still missing where an
operand has ended, and with an operand in parentheses in front of these where none has. So the nodes
of a line that is not read are the first nodes of one that is.
-/

/-- A node that says how a line ends. -/
def Node.IsMark (n : Node) : Prop := n.shape = .endOfLine ∨ n.shape = .stopped

namespace Line

/-! ### What has been consumed -/

/-- The offset behind the last of some tokens that follow an offset. -/
def behind (position : Nat) (ts : List Token) : Nat :=
  (ts.getLast?.map Token.finish).getD position

theorem behind_cons (position : Nat) (t : Token) (ts : List Token) :
    behind position (t :: ts) = behind t.finish ts := by
  rw [behind, behind, List.getLast?_cons]
  cases ts.getLast? with
  | none | some => rfl

theorem behind_append (position : Nat) (ts ts' : List Token) :
    behind position (ts ++ ts') = behind (behind position ts) ts' := by
  induction ts generalizing position with
  | nil => rfl
  | cons t ts ih => rw [List.cons_append, behind_cons, behind_cons, ih]

theorem consumed_foldl (p : Progress) (ts : List Token) :
    (ts.foldl Progress.consume p).consumed = behind p.consumed ts := by
  induction ts generalizing p with
  | nil => rfl
  | cons t ts ih => rw [List.foldl_cons, ih, behind_cons, Progress.consume]

theorem Places.consumed_eq {p p' : Progress} {t : Token} (h : Places p t p') :
    p'.consumed = p.consumed := by
  cases h with
  | _ => rfl

theorem Reads.consumed_eq {p q : Progress} {ts : List Token} (h : Reads p ts q) :
    q.consumed = behind p.consumed ts := by
  induction h with
  | refl => rfl
  | token hplace _ ih => rw [ih, hplace.consumed_eq, behind_cons, Progress.consume]
  | negative _ _ _ _ ih =>
    rw [ih, behind_cons, behind_cons]
    rfl

theorem Reads.recent_eq_nil_iff {q : Progress} {ts : List Token} (h : Reads .start ts q) :
    q.recent = [] ↔ ts = [] := by
  constructor
  · intro hnil
    by_contra hts
    exact h.recent_ne_nil hts hnil
  · rintro rfl
    cases h
    rfl

/-! ### Marks -/

theorem Derives.not_isMark {phrase : Phrase} {ts : List Token} {ns : List Node}
    (h : Derives phrase ts ns) : ∀ n ∈ ns, ¬n.IsMark := by
  rintro ⟨shape, position⟩ hn (rfl | rfl)
  · cases h.isPhrasal _ hn
  · cases h.isPhrasal _ hn

theorem Sentence.not_isMark {ts : List Token} {ns : List Node} (h : Sentence ts ns) :
    ∀ n ∈ ns, ¬n.IsMark := by
  rcases h with _ | _ | _ | _ | h | ⟨_, h⟩ | ⟨_, _, h⟩
  · exact nofun
  · simp [Node.IsMark]
  · simp [Node.IsMark]
  · simp [Node.IsMark]
  · exact h.not_isMark
  · exact List.forall_mem_cons.mpr ⟨by simp [Node.IsMark], h.not_isMark⟩
  · exact List.forall_mem_cons.mpr ⟨by simp [Node.IsMark], h.not_isMark⟩

theorem exists_nodes_of_read {line : Bytes} (h : (read line).error = none) :
    ∃ ns, (read line).nodes = ns ++ [⟨.endOfLine, line.length⟩] ∧ ∀ n ∈ ns, ¬n.IsMark := by
  obtain ⟨hstray, ns, hns⟩ := sentence_of_read h
  exact ⟨ns, by rw [read_of_sentence hstray hns], hns.not_isMark⟩

/-! ### Where reading stops -/

/-- How reading stops in front of some tokens: with what has been consumed, and why. -/
inductive Stops (ending : Ending) (p : Progress) : List Token → Progress → Error → Prop where
  /-- A token is out of place. -/
  | token {t : Token} {rest : List Token} (ht : p.recent = [] → Verb.ofKind? t.kind = none)
      (requirement : Requirement) :
    Stops ending p (t :: rest) (p.consume t) (.unexpected t requirement)
  /-- A verb has taken the whole line, which has another form. -/
  | verb {t : Token} {rest : List Token} {position : Nat} (hp : p.recent = [])
      (ht : (Verb.ofKind? t.kind).isSome = true) (h : ending = .endOfLine position)
      (requirement : Requirement) :
    Stops ending p (t :: rest) ((t :: rest).foldl Progress.consume p) (.unexpected t requirement)
  /-- The tokens have come to an end that is to blame. -/
  | ending {ts : List Token} {e : Error} (h : e.Arises ending []) :
    Stops ending p ts (ts.foldl Progress.consume p) e

theorem Stops.recent_eq {ending : Ending} {p p' : Progress} {ts : List Token} {e : Error}
    (h : Stops ending p ts p' e) : p'.recent = p.recent := by
  cases h with
  | token => rfl
  | verb | ending => exact Progress.recent_foldl_consume _ _

theorem exists_stops {ending : Ending} (hsaid : ending.IsSaid) {ts : List Token} {p : Progress}
    {e : Error} (h : (readTokens ending ts p).error = some e) : ∃ front rest q,
      ts = front ++ rest ∧ Reads p front q
        ∧ Stops ending q rest (readTokens ending ts p).progress e := by
  fun_induction readTokens ending ts p with
  | case1 p =>
    have hprogress : (readEnd p ending).progress = p := by
      unfold readEnd at h ⊢
      split
      · rfl
      · next hnone => simp [hnone] at h
    refine ⟨[], [], p, rfl, .refl p, ?_⟩
    rw [hprogress]
    exact .ending (arises_of_readEnd hsaid h)
  | case2 t rest before p verb hverb hp =>
    refine ⟨[], t :: rest, before, rfl, .refl before, ?_⟩
    have hnil : before.recent = [] := List.isEmpty_iff.mp hp
    unfold readVerb at h ⊢
    split at h
    · cases h
      exact .ending (.stray rfl)
    · exact absurd hsaid id
    · split at h
      · cases h
      · next hshape =>
        cases h
        exact .verb hnil (by rw [hverb]; rfl) rfl _
  | case3 t rest before p verb hverb hp =>
    cases h
    refine ⟨[], t :: rest, before, rfl, .refl before, .token (fun hnil ↦ ?_) _⟩
    exact absurd (List.isEmpty_iff.mpr hnil) hp
  | case4 t before p hverb hlook next rest hnext ih =>
    obtain ⟨front, rest', q, rfl, hreads, hstops⟩ := ih h
    exact ⟨t :: next :: front, rest', q, rfl,
      .negative (kind_of_looksAhead hlook) hnext.1 hnext.2 hreads, hstops⟩
  | case5 t before p hverb hlook next rest hnext =>
    cases h
    exact ⟨[], t :: next :: rest, before, rfl, .refl before, .token (fun _ ↦ hverb) _⟩
  | case6 t before p hverb hlook =>
    refine ⟨[], [t], before, rfl, .refl before, ?_⟩
    cases h
    cases hahead : aheadError? p ending with
    | none => exact .token (fun _ ↦ hverb) _
    | some e => exact .ending (arises_of_aheadError? hsaid hahead)
  | case7 t rest before p hverb hlook p' hread ih =>
    obtain ⟨front, rest', q, rfl, hreads, hstops⟩ := ih h
    exact ⟨t :: front, rest', q, rfl, .token (places_of_readToken hread) hreads, hstops⟩
  | case8 t rest before p hverb hlook e' hread =>
    cases h
    obtain ⟨requirement, rfl⟩ := exists_unexpected_of_readToken hread
    exact ⟨[], t :: rest, before, rfl, .refl before, .token (fun _ ↦ hverb) requirement⟩

/-- Reading stops behind some of the tokens of a line that is not read, and a mark says so. -/
theorem exists_stops_of_read {line : Bytes} {e : Error} (h : (read line).error = some e) :
    ∃ front rest q p, (lexemes line).tokens = front ++ rest ∧ Reads .start front q
      ∧ Stops (lexemes line).ending q rest p e
      ∧ (read line).nodes = q.nodes ++ [⟨.stopped, p.consumed⟩] := by
  obtain ⟨front, rest, q, htokens, hreads, hstops⟩ :=
    exists_stops (isSaid_ending line) (error_outcome_of_read h)
  refine ⟨front, rest, q, (outcome line).progress, htokens, hreads, hstops, ?_⟩
  have herror : (outcome line).error? = some e := h
  have hnodes : (outcome line).progress.nodes = q.nodes := congrArg List.reverse hstops.recent_eq
  rw [read, Outcome.nodes, herror, ← hnodes]

/-! ### Lines completed -/

/-- Either an operand has ended, or an opening parenthesis may stand next. -/
def Progress.Continues (p : Progress) : Prop :=
  p.left?.any Node.endsOperand = true
    ∨ p.left?.all (fun left ↦ left.awaitsOperand || left.kind.isFunction) = true

theorem Places.continues {p p' : Progress} {t : Token} (h : Places p t p') : p'.Continues := by
  cases h with
  | var | number | rparen => exact .inl rfl
  | equals | abs | output | lparen | operator => exact .inr rfl

theorem Reads.continues {p q : Progress} {ts : List Token} (h : Reads p ts q)
    (hp : p.Continues) : q.Continues := by
  induction h with
  | refl => exact hp
  | token hplace _ ih => exact ih hplace.continues
  | negative _ _ _ _ ih => exact ih (.inl rfl)

/-- A text that may stand behind what has been read, at some offset, and completes it: its tokens
are placed one after the other up to the end of the line, and only add nodes. -/
structure Completes (p : Progress) (position : Nat) (v : Bytes) (ts : List Token) (q : Progress) :
    Prop where
  scan_eq : Token.scanFrom position v = ts ++ [⟨.endOfLine, [], position + v.length⟩]
  cut : ∀ t ∈ ts, t.IsCut ∧ isSignificant t = true
  reads : Reads p ts q
  complete : Complete q
  recent : p.recent <:+ q.recent

theorem Complete.completes {p : Progress} (h : Complete p) (position : Nat) :
    Completes p position [] [] p :=
  ⟨Token.scanFrom_of_none rfl, nofun, .refl p, h, List.suffix_refl _⟩

theorem Completes.cons {p p' q : Progress} {position : Nat} {l v : Bytes} {kind : Token.Kind}
    {ts : List Token} (h : Completes p' (position + l.length) v ts q)
    (hl : Token.lexeme? (l ++ v) = some (l, kind)) (hkind : kind ≠ .space)
    (hplace : Places (p.consume ⟨kind, l, position⟩) ⟨kind, l, position⟩ p')
    (hrecent : p.recent <:+ p'.recent) :
    Completes p position (l ++ v) (⟨kind, l, position⟩ :: ts) q := by
  refine ⟨?_, ?_, .token hplace h.reads, h.complete, hrecent.trans h.recent⟩
  · rw [Token.scanFrom_of_lexeme? hl, h.scan_eq, List.length_append, Nat.add_assoc]
    rfl
  · intro t ht
    rcases List.mem_cons.mp ht with rfl | ht
    · exact ⟨⟨_, hl⟩, by simp [isSignificant, hkind, (Token.kind_of_lexeme? hl).2]⟩
    · exact h.cut t ht

/-- Behind an operand, the open parentheses are closed. -/
theorem exists_completes_of_endsOperand {p : Progress} (h : p.left?.any Node.endsOperand = true)
    (position : Nat) : ∃ v ts q, Token.Severs v ∧ Completes p position v ts q := by
  induction hdepth : p.depth generalizing p position with
  | zero => exact ⟨[], [], p, Token.severs_nil, Complete.completes ⟨hdepth, h⟩ position⟩
  | succ depth ih =>
    let r : Token := ⟨.rparen, utf8 ")", position⟩
    let p' : Progress := { (p.consume r).push .rparen position with depth := p.depth - 1 }
    have hplace : Places (p.consume r) r p' := .rparen rfl (by simp [hdepth, Progress.consume]) h
    obtain ⟨v, ts, q, -, hv⟩ :=
      ih (p := p') rfl (position + (utf8 ")").length) (by simp [p', hdepth])
    exact ⟨_, _, q, Token.severs_rparen v,
      hv.cons (Token.lexeme?_rparen v) (by simp) hplace (List.suffix_cons _ _)⟩

/-- Where an operand is missing, one in parentheses comes in front of that. -/
theorem exists_completes_of_all {p : Progress}
    (h : p.left?.all (fun left ↦ left.awaitsOperand || left.kind.isFunction) = true)
    (position : Nat) : ∃ v ts q, Token.Severs v ∧ Completes p position v ts q := by
  let l : Token := ⟨.lparen, utf8 "(", position⟩
  let p' : Progress := { (p.consume l).push .lparen position with depth := p.depth + 1 }
  have hl : Places (p.consume l) l p' := .lparen rfl h
  let zero : Token := ⟨.number, utf8 "0", position + (utf8 "(").length⟩
  let p'' : Progress := (p'.consume zero).push (.number (.ofText zero.lexeme)) zero.position
  have hzero : Places (p'.consume zero) zero p'' := .number rfl rfl
  obtain ⟨v, ts, q, hsevers, hv⟩ := exists_completes_of_endsOperand (p := p'') rfl
    (position + (utf8 "(").length + (utf8 "0").length)
  have hlexeme : Token.Lexeme (utf8 "0") .number := .whole (by decide +kernel) (by decide +kernel)
  exact ⟨_, _, q, Token.severs_lparen _,
    (hv.cons (hlexeme.lexeme?_append nofun hsevers.delimits) nofun hzero
      (List.suffix_cons _ _)).cons (Token.lexeme?_lparen _) nofun hl (List.suffix_cons _ _)⟩

theorem Progress.Continues.exists_completes {p : Progress} (h : p.Continues) (position : Nat) :
    ∃ v ts q, Token.Severs v ∧ Completes p position v ts q := by
  rcases h with h | h
  · exact exists_completes_of_endsOperand h position
  · exact exists_completes_of_all h position

theorem read_of_reads {line : Bytes} {ts : List Token} {position : Nat} {q : Progress}
    (hlexemes : lexemes line = ⟨ts, .endOfLine position⟩) (hreads : Reads .start ts q)
    (hq : Complete q) : read line = ⟨q.nodes ++ [⟨.endOfLine, position⟩], none⟩ := by
  refine read_of_outcome ?_
  have hall := readTokens_append_of_reads (.endOfLine position) hreads []
  rw [List.append_nil] at hall
  rw [outcome, hlexemes, hall, readTokens, hq.readEnd]

theorem tokens_lastToken (length position : Nat) (s : Bytes) :
    (Lexemes.ofTokens length [Token.lastToken position s]).tokens = [] := by
  unfold Token.lastToken
  split
  · rfl
  · rfl

/-- What has been read of a line are the first nodes of a line that is read, and no mark is among
them. -/
theorem exists_read_append {line : Bytes} {front rest : List Token} {q : Progress}
    (htokens : (lexemes line).tokens = front ++ rest) (hreads : Reads .start front q) :
    (∃ line' more, read line' = ⟨q.nodes ++ more, none⟩) ∧ ∀ n ∈ q.nodes, ¬n.IsMark := by
  obtain ⟨all, last, hscan, -, hcut⟩ := Token.scan_eq_append line
  rw [lexemes, hscan, ofTokens_append hcut, tokens_lastToken, List.append_nil] at htokens
  obtain ⟨before, after, rfl, rfl, -⟩ := List.filter_eq_append_iff.mp htokens
  obtain ⟨t, after', hafter⟩ : ∃ t after', after
      ++ [Token.lastToken (line.length - last.length) last] = t :: after' :=
    List.exists_cons_of_ne_nil (by simp)
  rw [List.append_assoc, hafter] at hscan
  -- the line is cut short in front of the first token that was not placed
  obtain ⟨v, ts, q', hsevers, hv⟩ :=
    (hreads.continues (.inr rfl)).exists_completes t.position
  obtain ⟨u, -, hu⟩ := Token.exists_scanFrom_append hscan hsevers
  have hlexemes : lexemes (u ++ v)
      = ⟨before.filter isSignificant ++ ts, .endOfLine (t.position + v.length)⟩ := by
    rw [lexemes, Token.scan, hu, hv.scan_eq,
      ofTokens_append fun s hs ↦ hcut s (List.mem_append_left _ hs),
      ofTokens_append fun s hs ↦ (hv.cut s hs).1,
      List.filter_eq_self.mpr fun s hs ↦ (hv.cut s hs).2]
    simp [Lexemes.ofTokens]
  obtain ⟨recent, hrecent⟩ := hv.recent
  have hnodes : q'.nodes = q.nodes ++ recent.reverse := by
    rw [Progress.nodes, ← hrecent, List.reverse_append, Progress.nodes]
  have hread := read_of_reads hlexemes (hreads.trans hv.reads) hv.complete
  constructor
  · exact ⟨u ++ v, _, by rw [hread, hnodes, List.append_assoc]⟩
  · intro n hn
    have hnone : (read (u ++ v)).error = none := by rw [hread]
    obtain ⟨ns, hns, hmarks⟩ := exists_nodes_of_read hnone
    rw [hread] at hns
    obtain ⟨rfl, -⟩ := List.append_inj' hns rfl
    exact hmarks n (hnodes ▸ List.mem_append_left _ hn)

/-! ### Positions -/

/-- Behind the tokens that a line is read by there can only be a stray character. -/
theorem significant_eq (line : Bytes) : significant line = (lexemes line).tokens
    ∨ ∃ t, significant line = (lexemes line).tokens ++ [t]
      ∧ (lexemes line).ending = .stray t.lexeme t.position := by
  obtain ⟨front, rest, hscan, -, hcut⟩ := Token.scan_eq_append line
  rw [significant, lexemes, hscan, ofTokens_append hcut, tokens_lastToken, List.append_nil,
    List.filter_append]
  rcases rest with _ | ⟨b, rest⟩
  · exact .inl (List.append_nil _)
  · exact .inr ⟨_, rfl, rfl⟩

theorem tokens_prefix_significant (line : Bytes) : (lexemes line).tokens <+: significant line := by
  rcases significant_eq line with h | ⟨t, h, -⟩
  · rw [h]
  · rw [h]
    exact List.prefix_append _ _

theorem significant_eq_tokens {line : Bytes} {position : Nat}
    (h : (lexemes line).ending = .endOfLine position) :
    significant line = (lexemes line).tokens := by
  rcases significant_eq line with heq | ⟨t, -, hending⟩
  · exact heq
  · rw [h] at hending
    cases hending

theorem filter_significant (line : Bytes) :
    (significant line).filter (·.position < (lexemes line).ending.position)
      = (lexemes line).tokens := by
  obtain ⟨front, last, hscanned⟩ := exists_scanned line
  have hall : (lexemes line).tokens.filter (·.position < (lexemes line).ending.position)
      = (lexemes line).tokens := by
    refine List.filter_eq_self.mpr fun t ht ↦ ?_
    rw [← hscanned.position_eq]
    exact decide_eq_true (hscanned.cuts t (hscanned.tokens t ht).1).2
  rcases significant_eq line with hsignificant | ⟨t, hsignificant, hending⟩
  · rw [hsignificant, hall]
  · rw [hsignificant, List.filter_append, hall, hending,
      List.filter_cons_of_neg (by simp [Ending.position])]
    exact List.append_nil _

theorem Error.Arises.of_nil {ending : Ending} {e : Error} (h : e.Arises ending []) :
    e.fault.kind ≠ .grammatical ∧ e.fault.position = ending.position := by
  cases h with
  | stray h | unclosed h | incomplete h => exact ⟨nofun, by rw [h]; rfl⟩
  | unexpected h => cases h

/-- A token out of place is the last one consumed, save that a verb that begins the line has
consumed all of it. -/
theorem Stops.of_grammatical {ending : Ending} {p p' : Progress} {ts : List Token} {e : Error}
    (h : Stops ending p ts p' e) (he : e.fault.kind = .grammatical) :
    ∃ t rest, ts = t :: rest ∧ e.fault.position = t.position ∧ e.fault.text = t.text
      ∧ (p.recent = [] ∧ (Verb.ofKind? t.kind).isSome = true →
        (∃ position, ending = .endOfLine position) ∧ p'.consumed = behind p.consumed ts)
      ∧ (¬(p.recent = [] ∧ (Verb.ofKind? t.kind).isSome = true) → p'.consumed = t.finish) := by
  cases h with
  | @token t rest ht =>
    refine ⟨t, rest, rfl, rfl, rfl, ?_, fun _ ↦ rfl⟩
    rintro ⟨hp, hverb⟩
    rw [ht hp] at hverb
    cases hverb
  | @verb t rest position hp ht hending =>
    exact ⟨t, rest, rfl, rfl, rfl, fun _ ↦ ⟨⟨position, hending⟩, consumed_foldl p _⟩,
      fun hnot ↦ absurd ⟨hp, ht⟩ hnot⟩
  | ending h => exact absurd he h.of_nil.1

/-- Any error but that of a token out of place stands where the tokens end, and they have been
consumed. -/
theorem Stops.of_ne_grammatical {ending : Ending} {p p' : Progress} {ts : List Token} {e : Error}
    (h : Stops ending p ts p' e) (he : e.fault.kind ≠ .grammatical) :
    e.fault.position = ending.position ∧ p'.consumed = behind p.consumed ts := by
  cases h with
  | token | verb => exact absurd rfl he
  | ending h => exact ⟨h.of_nil.2, consumed_foldl p ts⟩

/-- **Every line has one mark.** A line is read into nodes with one mark behind them. If the line is
read without an error, this is the end of the line, at its length. Otherwise the nodes in front of
the mark are the first nodes of some line that is read without an error, and the mark says how far
tokens have been consumed: up to a token that is out of place, save that a verb that begins the line
has consumed all of it, and with any other error up to the place of that error. -/
theorem exists_mark_of_read (line : Bytes) : ∃ ns mark, (read line).nodes = ns ++ [mark]
    ∧ (∀ n ∈ ns, ¬n.IsMark)
    ∧ ((read line).error = none → mark = ⟨.endOfLine, line.length⟩)
    ∧ ∀ e, (read line).error = some e → mark.shape = .stopped
      ∧ (∃ line' more, read line' = ⟨ns ++ more, none⟩)
      ∧ (e.fault.kind = .grammatical → ∃ front t rest, significant line = front ++ t :: rest
        ∧ e.fault.position = t.position ∧ e.fault.text = t.text
        ∧ mark.position = if front = [] ∧ (Verb.ofKind? t.kind).isSome
          then behind 0 (significant line) else t.finish)
      ∧ (e.fault.kind ≠ .grammatical → mark.position
        = behind 0 ((significant line).filter (·.position < e.fault.position))) := by
  cases herror : (read line).error with
  | none =>
    obtain ⟨ns, hns, hmarks⟩ := exists_nodes_of_read herror
    exact ⟨ns, _, hns, hmarks, fun _ ↦ rfl, nofun⟩
  | some e =>
    obtain ⟨front, rest, q, p, htokens, hreads, hstops, hnodes⟩ := exists_stops_of_read herror
    obtain ⟨hviable, hmarks⟩ := exists_read_append htokens hreads
    have hconsumed : q.consumed = behind 0 front := hreads.consumed_eq
    refine ⟨q.nodes, _, hnodes, hmarks, nofun, ?_⟩
    rintro _ ⟨⟩
    refine ⟨rfl, hviable, fun hkind ↦ ?_, fun hkind ↦ ?_⟩
    · obtain ⟨t, rest, rfl, hposition, htext, hverb, hother⟩ := hstops.of_grammatical hkind
      obtain ⟨rest', hsignificant⟩ := tokens_prefix_significant line
      refine ⟨front, t, rest ++ rest', ?_, hposition, htext, ?_⟩
      · rw [← hsignificant, htokens, List.append_assoc, List.cons_append]
      split
      · next hfirst =>
        obtain ⟨⟨position, hending⟩, hp⟩ := hverb (hfirst.imp_left hreads.recent_eq_nil_iff.mpr)
        rw [significant_eq_tokens hending, htokens, behind_append, ← hconsumed]
        exact hp
      · next hnot => exact hother fun hfirst ↦ hnot (hfirst.imp_left hreads.recent_eq_nil_iff.mp)
    · obtain ⟨hposition, hp⟩ := hstops.of_ne_grammatical hkind
      rw [hposition, filter_significant, htokens, behind_append, ← hconsumed]
      exact hp

/-- The parenthesis that closes too early is the last token consumed. -/
example : (read (utf8 "abs(1 + ) * 2")).nodes = [⟨.abs, 0⟩, ⟨.lparen, 3⟩,
    ⟨.number (.ofText (utf8 "1")), 4⟩, ⟨.operator .add, 6⟩, ⟨.stopped, 9⟩] := by decide +kernel

end Line

end Abacus
