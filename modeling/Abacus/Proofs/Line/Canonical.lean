import Abacus.Proofs.Line.Alike
import Abacus.Proofs.Line.Literals

/-!
# The canonical text of a line

A line that was read can be written again from its nodes alone, each in its canonical text and with
a space between neighbours. What comes out is read into nodes of the same shapes (`read_canonical`).

The new text need not have the tokens of the old one: literals come in lower case, and no blank is
left between a minus sign and the number that it is the sign of, nor inside a command. It has the
tokens of the same sentence, though, with their numbers in lower case (`Token.lowered`), and these
stand for the same nodes.
-/

namespace Abacus

/-! ## Tokens in lower case -/

namespace Token

/-- A number in lower case; every other token as it is. -/
def lowered (t : Token) : Token :=
  if t.kind = .number then { t with lexeme := Bytes.lower t.lexeme } else t

theorem lowered_of_number {t : Token} (h : t.kind = .number) :
    t.lowered = { t with lexeme := Bytes.lower t.lexeme } := if_pos h

theorem lowered_of_ne {t : Token} (h : t.kind ≠ .number) : t.lowered = t := if_neg h

@[simp] theorem kind_lowered (t : Token) : t.lowered.kind = t.kind := by
  unfold lowered
  split
  · rfl
  · rfl

@[simp] theorem position_lowered (t : Token) : t.lowered.position = t.position := by
  unfold lowered
  split
  · rfl
  · rfl

theorem Lexeme.lowered {t : Token} (h : Lexeme t.lexeme t.kind) :
    Lexeme t.lowered.lexeme t.lowered.kind := by
  by_cases hkind : t.kind = .number
  · rw [hkind] at h
    rw [kind_lowered, lowered_of_number hkind, hkind]
    exact h.lower
  · rwa [lowered_of_ne hkind]

/-- The lexeme of a kind that has only one. -/
def Kind.spelling? : Kind → Option Bytes
  | lparen => some (utf8 "(")
  | rparen => some (utf8 ")")
  | equals => some (utf8 "=")
  | operator op => some op.symbol
  | abs => some (utf8 "abs")
  | save => some (utf8 "save")
  | load => some (utf8 "load")
  | clear => some (utf8 "clear")
  | output radix => some radix.name
  | _ => none

theorem Lexeme.eq_spelling {l s : Bytes} {kind : Kind} (h : Lexeme l kind)
    (hs : kind.spelling? = some s) : l = s := by
  cases h with
  | symbol h =>
    cases h with
    | lparen | rparen | equals | operator =>
      cases hs
      rfl
  | keyword h =>
    cases h with
    | abs | save | load | clear | output =>
      cases hs
      rfl
  | _ => cases hs

theorem word_lowered {t : Token} {kind : Kind} {s : Bytes} (h : Lexeme t.lexeme t.kind)
    (ht : t.kind = kind) (hs : kind.spelling? = some s) : t.lowered.word = (kind, s) := by
  have hlexeme := h.lowered
  rw [kind_lowered, ht] at hlexeme
  rw [word, kind_lowered, ht, hlexeme.eq_spelling hs]

theorem word_lowered_of_ne {t : Token} {kind : Kind} (ht : t.kind = kind) (hkind : kind ≠ .number) :
    t.lowered.word = (kind, t.lexeme) := by
  rw [lowered_of_ne (ht ▸ hkind), word, ht]

theorem wording_profile {s w : Bytes} {kind : Kind} (hs : Lexeme s kind) (hkind : kind ≠ .space)
    (hw : Lexeme w .word) (rest : Bytes) :
    wording (s ++ (utf8 "(" ++ (w ++ (utf8 ")" ++ (utf8 " " ++ rest)))))
      = (kind, s) :: (.lparen, utf8 "(") :: (.word, w) :: (.rparen, utf8 ")") :: wording rest := by
  have hclose : Lexeme (utf8 ")") .rparen := .symbol .rparen
  rw [hs.wording_append hkind (delimits_lparen _), wording_of_lexeme? (lexeme?_lparen _) nofun,
    hw.wording_append nofun (delimits_rparen _), hclose.wording_space nofun]

end Token

/-! ## Phrases in lower case -/

namespace Line

theorem Derives.lowered {phrase : Phrase} {ts : List Token} {ns : List Node}
    (h : Derives phrase ts ns) : Derives phrase (ts.map Token.lowered) ns := by
  induction h with
  | @number t ht =>
    have hlowered := Derives.number (t.kind_lowered.trans ht)
    have hnumeral : numeralOf t.lowered = numeralOf t := by
      rw [Token.lowered_of_number ht]
      exact Numeral.ofText_lower t.lexeme
    rwa [t.position_lowered, hnumeral] at hlowered
  | @negative minus t hminus ht =>
    have hlowered := Derives.negative (minus.kind_lowered.trans hminus) (t.kind_lowered.trans ht)
    have hnumeral : negativeOf t.lowered = negativeOf t := by
      rw [Token.lowered_of_number ht]
      exact Numeral.negated_lower t.lexeme
    rwa [minus.position_lowered, hnumeral] at hlowered
  | @var t ht =>
    have hne : t.kind ≠ .number := by simp [ht]
    rw [List.map_singleton, Token.lowered_of_ne hne]
    exact .var ht
  | @group l r ts ns hl _ hr ih =>
    have hgroup := Derives.group (l.kind_lowered.trans hl) ih (r.kind_lowered.trans hr)
    simpa using hgroup
  | @abs a l r ts ns ha hl _ hr ih =>
    have habs := Derives.abs (a.kind_lowered.trans ha) (l.kind_lowered.trans hl) ih
      (r.kind_lowered.trans hr)
    simpa using habs
  | single _ ih => exact .single ih
  | @chain t op ts ts' ns ns' _ ht _ ih ih' =>
    have hchain := Derives.chain ih (t.kind_lowered.trans ht) ih'
    simpa using hchain

theorem Sentence.lowered {ts : List Token} {ns : List Node} (h : Sentence ts ns) :
    Sentence (ts.map Token.lowered) ns := by
  have keep : ∀ {t : Token} {kind : Token.Kind}, t.kind = kind → kind ≠ .number → t.lowered = t :=
    fun ht hne ↦ Token.lowered_of_ne (ht ▸ hne)
  cases h with
  | blank => exact .blank
  | clear ht hl hr =>
    simp only [List.map_cons, List.map_nil, keep ht nofun, keep hl nofun, keep hr nofun]
    exact .clear ht hl hr
  | save ht hl hname hr =>
    simp only [List.map_cons, List.map_nil, keep ht nofun, keep hl nofun, keep hname nofun,
      keep hr nofun]
    exact .save ht hl hname hr
  | load ht hl hname hr =>
    simp only [List.map_cons, List.map_nil, keep ht nofun, keep hl nofun, keep hname nofun,
      keep hr nofun]
    exact .load ht hl hname hr
  | plain h => exact .plain h.lowered
  | output ht h =>
    rw [List.map_cons, keep ht nofun]
    exact .output ht h.lowered
  | assign ht he h =>
    rw [List.map_cons, List.map_cons, keep ht nofun, keep he nofun]
    exact .assign ht he h.lowered

/-! ## Texts of nodes -/

/-- The canonical texts of some nodes, with a space behind each of them. -/
def spaced (ns : List Node) : Bytes := ns.flatMap fun n ↦ n.describe ++ utf8 " "

theorem spaced_cons_append (n : Node) (ns : List Node) (rest : Bytes) :
    spaced (n :: ns) ++ rest = n.describe ++ (utf8 " " ++ (spaced ns ++ rest)) := by
  simp [spaced]

theorem spaced_append (ns ns' : List Node) : spaced (ns ++ ns') = spaced ns ++ spaced ns' :=
  List.flatMap_append

/-- A node that is described by the lexeme of a token says this token. -/
theorem wording_spaced_cons {n : Node} {t : Token} (h : Token.Lexeme t.lexeme t.kind)
    (hkind : t.kind ≠ .space) (hn : n.describe = t.lowered.lexeme) (ns : List Node) (rest : Bytes) :
    Token.wording (spaced (n :: ns) ++ rest)
      = t.lowered.word :: Token.wording (spaced ns ++ rest) := by
  have hlexeme := h.lowered
  rw [Token.kind_lowered] at hlexeme
  rw [spaced_cons_append, hn, hlexeme.wording_space hkind, Token.word, Token.kind_lowered]

theorem wording_spaced_mark (shape : Node.Shape) {t : Token} {kind : Token.Kind}
    (h : Token.Lexeme t.lexeme t.kind) (ht : t.kind = kind)
    (hshape : kind.spelling? = some shape.describe) (position : Nat) (ns : List Node)
    (rest : Bytes) :
    Token.wording (spaced (⟨shape, position⟩ :: ns) ++ rest)
      = t.lowered.word :: Token.wording (spaced ns ++ rest) := by
  have hspace : t.kind ≠ .space := by
    intro hspace
    rw [← ht, hspace] at hshape
    cases hshape
  refine wording_spaced_cons (n := ⟨shape, position⟩) h hspace ?_ ns rest
  exact (congrArg Prod.snd (Token.word_lowered h ht hshape)).symm

theorem wording_spaced_negative {minus t : Token} (h : Token.Lexeme minus.lexeme minus.kind)
    (h' : Token.Lexeme t.lexeme t.kind) (hminus : minus.kind = .operator .sub)
    (ht : t.kind = .number) (position : Nat) (ns : List Node) (rest : Bytes) :
    Token.wording (spaced (⟨.number (.negated t.lexeme), position⟩ :: ns) ++ rest)
      = minus.lowered.word :: t.lowered.word :: Token.wording (spaced ns ++ rest) := by
  obtain ⟨kind, lexeme, place⟩ := minus
  obtain ⟨kind', lexeme', place'⟩ := t
  obtain rfl : kind = .operator .sub := hminus
  obtain rfl : kind' = .number := ht
  obtain rfl : lexeme = utf8 "-" := h.eq_spelling rfl
  have hnumber := h'.lower.wording_space nofun (spaced ns ++ rest)
  -- the sign and the number are one word of the text, and a scan cuts the sign off again
  have hsign := Token.wording_of_lexeme?
    (Token.lexeme?_minus (Bytes.lower lexeme' ++ (utf8 " " ++ (spaced ns ++ rest)))) nofun
  rw [hnumber] at hsign
  rw [spaced_cons_append]
  exact hsign

theorem Derives.wording_spaced {phrase : Phrase} {ts : List Token} {ns : List Node}
    (h : Derives phrase ts ns) (hts : ∀ t ∈ ts, Token.Lexeme t.lexeme t.kind) (rest : Bytes) :
    Token.wording (spaced ns ++ rest)
      = ts.map (fun t ↦ t.lowered.word) ++ Token.wording rest := by
  induction h generalizing rest with
  | @number t ht =>
    refine wording_spaced_cons (hts t List.mem_cons_self) (by simp [ht]) ?_ [] rest
    rw [Token.lowered_of_number ht]
    rfl
  | @negative minus t hminus ht =>
    exact wording_spaced_negative (hts minus (by simp)) (hts t (by simp)) hminus ht _ [] rest
  | @var t ht =>
    refine wording_spaced_cons (hts t List.mem_cons_self) (by simp [ht]) ?_ [] rest
    rw [Token.lowered_of_ne (by simp [ht])]
    rfl
  | @group l r ts ns hl _ hr ih =>
    rw [wording_spaced_mark .lparen (hts l (by simp)) hl rfl, spaced_append, List.append_assoc,
      ih (fun t ht ↦ hts t (by simp [ht])), wording_spaced_mark .rparen (hts r (by simp)) hr rfl]
    simp [spaced]
  | @abs a l r ts ns ha hl _ hr ih =>
    rw [wording_spaced_mark .abs (hts a (by simp)) ha rfl,
      wording_spaced_mark .lparen (hts l (by simp)) hl rfl, spaced_append, List.append_assoc,
      ih (fun t ht ↦ hts t (by simp [ht])), wording_spaced_mark .rparen (hts r (by simp)) hr rfl]
    simp [spaced]
  | single _ ih => exact ih hts rest
  | @chain t op ts ts' ns ns' _ ht _ ih ih' =>
    rw [spaced_append, List.append_assoc, ih (fun t ht ↦ hts t (by simp [ht])),
      wording_spaced_mark (.operator op) (hts t (by simp)) ht rfl,
      ih' (fun t ht ↦ hts t (by simp [ht]))]
    simp

theorem wording_spaced_profile {shape : Node.Shape} {s : Bytes} {kind : Token.Kind}
    {t l name r : Token} (ht : t.kind = kind) (hl : l.kind = .lparen) (hname : name.kind = .word)
    (hr : r.kind = .rparen) (hts : ∀ u ∈ [t, l, name, r], Token.Lexeme u.lexeme u.kind)
    (hs : kind.spelling? = some s) (hkind : kind ≠ .space)
    (hshape : shape.describe = s ++ (utf8 "(" ++ (name.lexeme ++ utf8 ")"))) (position : Nat)
    (rest : Bytes) :
    Token.wording (spaced [⟨shape, position⟩] ++ rest)
      = [t, l, name, r].map (fun t ↦ t.lowered.word) ++ Token.wording rest := by
  have hverb : Token.Lexeme s kind := by
    have hlexeme := ht ▸ hts t (by simp)
    rwa [hlexeme.eq_spelling hs] at hlexeme
  have hword : Token.Lexeme name.lexeme .word := hname ▸ hts name (by simp)
  have hwords := Token.wording_profile hverb hkind hword rest
  have hwordt := Token.word_lowered (hts t (by simp)) ht hs
  have hwordl := Token.word_lowered (hts l (by simp)) hl rfl
  have hwordr := Token.word_lowered (hts r (by simp)) hr rfl
  have hwordn := Token.word_lowered_of_ne hname nofun
  rw [spaced_cons_append, Node.describe, hshape]
  simpa [spaced, hwordt, hwordl, hwordn, hwordr] using hwords

/-- The canonical texts of the nodes of a sentence say its tokens, with the numbers in lower
case. -/
theorem Sentence.wording_spaced {ts : List Token} {ns : List Node} (h : Sentence ts ns)
    (hts : ∀ t ∈ ts, Token.Lexeme t.lexeme t.kind) (rest : Bytes) :
    Token.wording (spaced ns ++ rest)
      = ts.map (fun t ↦ t.lowered.word) ++ Token.wording rest := by
  cases h with
  | blank => rfl
  | @clear t l r ht hl hr =>
    have hverb : Token.Lexeme (utf8 "clear") .clear := .keyword .clear
    have hclose : Token.Lexeme (utf8 ")") .rparen := .symbol .rparen
    have hsplit : spaced [⟨.clear, t.position⟩] ++ rest
        = utf8 "clear" ++ (utf8 "(" ++ (utf8 ")" ++ (utf8 " " ++ rest))) := rfl
    rw [hsplit, hverb.wording_append nofun (Token.delimits_lparen _),
      Token.wording_of_lexeme? (Token.lexeme?_lparen _) nofun, hclose.wording_space nofun]
    simp [Token.word_lowered (hts t (by simp)) ht rfl, Token.word_lowered (hts l (by simp)) hl rfl,
      Token.word_lowered (hts r (by simp)) hr rfl]
  | save ht hl hname hr =>
    exact wording_spaced_profile ht hl hname hr hts rfl nofun (List.append_assoc _ _ _) _ rest
  | load ht hl hname hr =>
    exact wording_spaced_profile ht hl hname hr hts rfl nofun (List.append_assoc _ _ _) _ rest
  | plain h => exact h.wording_spaced hts rest
  | @output t radix ts ns ht h =>
    rw [wording_spaced_mark (.setOutput radix) (hts t (by simp)) ht rfl,
      h.wording_spaced (fun t ht ↦ hts t (by simp [ht])), List.map_cons, List.cons_append]
  | @assign target equals ts ns ht he h =>
    have htarget : Token.Lexeme target.lexeme .var := ht ▸ hts target (by simp)
    have hequals : Token.Lexeme (utf8 "=") .equals := .symbol .equals
    -- the node of the target is described by two words
    have hsplit : (Node.Shape.assign target.lexeme).describe
        = target.lexeme ++ (utf8 " " ++ utf8 "=") := rfl
    rw [spaced_cons_append, Node.describe, hsplit, List.append_assoc, List.append_assoc,
      htarget.wording_space nofun, hequals.wording_space nofun,
      h.wording_spaced (fun t ht ↦ hts t (by simp [ht])), List.map_cons, List.map_cons,
      Token.word_lowered_of_ne ht nofun, Token.word_lowered (hts equals (by simp)) he rfl]
    rfl

/-! ## Sentences written again -/

theorem kind_of_mem_lowered {ts : List Token} (hts : ∀ t ∈ ts, Token.Lexeme t.lexeme t.kind)
    {w : Token.Kind × Bytes} (hw : w ∈ (ts.map Token.lowered).map Token.word) :
    w.1 ≠ .stray ∧ w.1 ≠ .endOfLine := by
  rw [List.map_map] at hw
  obtain ⟨t, ht, rfl⟩ := List.mem_map.mp hw
  show t.lowered.kind ≠ .stray ∧ t.lowered.kind ≠ .endOfLine
  exact Token.kind_of_lexeme? (hts t ht).lowered.lexeme?_self

theorem stray_not_mem_append {ws : List (Token.Kind × Bytes)} (h : ∀ w ∈ ws, w.1 ≠ .stray) :
    Token.Kind.stray ∉ (ws ++ [(Token.Kind.endOfLine, [])]).map Prod.fst := by
  intro hmem
  obtain ⟨w, hw, hkind⟩ := List.mem_map.mp hmem
  rcases List.mem_append.mp hw with hw | hw
  · exact h w hw hkind
  · rw [List.mem_singleton.mp hw] at hkind
    cases hkind

/-- The nodes of a sentence in their canonical texts, with a space between neighbours, say its
tokens, with the numbers in lower case. -/
theorem Sentence.wording_joined {ts : List Token} {ns : List Node} (h : Sentence ts ns)
    (hts : ∀ t ∈ ts, Token.Lexeme t.lexeme t.kind) :
    Token.wording (Bytes.joinWith (utf8 " ") (ns.map Node.describe))
      = (ts.map Token.lowered).map Token.word ++ [(.endOfLine, [])] := by
  have hspaced := h.wording_spaced hts []
  have hwords : ts.map (fun t ↦ t.lowered.word) = (ts.map Token.lowered).map Token.word := by
    rw [List.map_map]
    rfl
  rw [List.append_nil, Token.wording_nil, hwords] at hspaced
  by_cases hns : ns = []
  · subst hns
    exact hspaced
  -- the space behind the last node is all that the two texts differ in
  have hjoin : Bytes.joinWith (utf8 " ") (ns.map Node.describe) ++ utf8 " " = spaced ns := by
    rw [Bytes.joinWith_append_separator _ (by simpa using hns), spaced, List.flatMap_map]
  have hnone : Token.Kind.stray ∉ (Token.wording (spaced ns)).map Prod.fst := by
    rw [hspaced]
    exact stray_not_mem_append fun w hw ↦ (kind_of_mem_lowered hts hw).1
  rw [← hjoin] at hspaced hnone
  rw [← Token.wording_append_blanks (by decide +kernel) hnone]
  exact hspaced

/-- The nodes of a sentence in their canonical texts are a line that is read into nodes of the same
shapes. -/
theorem Sentence.read_joined {ts : List Token} {ns : List Node} (h : Sentence ts ns)
    (hts : ∀ t ∈ ts, Token.Lexeme t.lexeme t.kind) :
    (read (Bytes.joinWith (utf8 " ") (ns.map Node.describe))).error = none
      ∧ (read (Bytes.joinWith (utf8 " ") (ns.map Node.describe))).nodes.map Node.shape
        = ns.map Node.shape ++ [.endOfLine] := by
  have hwording := h.wording_joined hts
  have hwords := fun w ↦ kind_of_mem_lowered hts (w := w)
  have hlowered := h.lowered
  generalize ts.map Token.lowered = us at hwording hwords hlowered
  refine read_of_sentence_alike ?_ ?_ hlowered
  · rw [Token.stray_mem_scan_iff, hwording]
    exact stray_not_mem_append fun w hw ↦ (hwords w hw).1
  · rw [map_word_significant, hwording, List.filter_append,
      List.filter_eq_self.mpr fun w hw ↦ by simpa using (hwords w hw).2]
    simp

/-! ## The canonical text -/

/-- The nodes of a line in their canonical texts, without the mark of the end and with a space
between neighbours. -/
def canonical (line : Bytes) : Bytes :=
  Bytes.joinWith (utf8 " ")
    (((read line).nodes.filter fun n ↦ n.kind != .endOfLine).map Node.describe)

theorem Derives.kind_ne_endOfLine {phrase : Phrase} {ts : List Token} {ns : List Node}
    (h : Derives phrase ts ns) : ∀ n ∈ ns, n.kind ≠ .endOfLine := by
  intro n hn hkind
  have hphrasal := h.isPhrasal n hn
  rw [hkind] at hphrasal
  cases hphrasal

theorem Sentence.kind_ne_endOfLine {ts : List Token} {ns : List Node} (h : Sentence ts ns) :
    ∀ n ∈ ns, n.kind ≠ .endOfLine := by
  cases h with
  | blank => exact nofun
  | clear | save | load => simp [Node.kind, Node.Shape.kind]
  | plain h => exact h.kind_ne_endOfLine
  | output _ h | assign _ _ h => simpa [Node.kind, Node.Shape.kind] using h.kind_ne_endOfLine

theorem canonical_of_sentence {line : Bytes}
    (hstray : Token.Kind.stray ∉ (Token.scan line).map Token.kind) {ns : List Node}
    (h : Sentence (significant line) ns) :
    canonical line = Bytes.joinWith (utf8 " ") (ns.map Node.describe) := by
  have hkeep : ns.filter (fun n ↦ n.kind != .endOfLine) = ns :=
    List.filter_eq_self.mpr fun n hn ↦ by simpa using h.kind_ne_endOfLine n hn
  rw [canonical, read_of_sentence hstray h, List.filter_append, hkeep]
  simp [Node.kind, Node.Shape.kind]

theorem canonical_congr {line line' : Bytes}
    (h : (read line).nodes.map Node.shape = (read line').nodes.map Node.shape) :
    canonical line = canonical line' := by
  have key : ∀ nodes : List Node, (nodes.filter fun n ↦ n.kind != .endOfLine).map Node.describe
      = ((nodes.map Node.shape).filter fun shape ↦ shape.kind != .endOfLine).map
        Node.Shape.describe := by
    intro nodes
    rw [List.filter_map, List.map_map]
    rfl
  rw [canonical, canonical, key, key, h]

theorem read_canonical {line : Bytes} (h : (read line).error = none) :
    (read (canonical line)).error = none
      ∧ (read (canonical line)).nodes.map Node.shape = (read line).nodes.map Node.shape := by
  obtain ⟨hstray, ns, hns⟩ := sentence_of_read h
  rw [canonical_of_sentence hstray hns, read_of_sentence hstray hns, List.map_append]
  exact hns.read_joined fun _ ↦ lexeme_of_mem_significant hstray

/-- The canonical text of a line that was read is its own. -/
theorem canonical_canonical {line : Bytes} (h : (read line).error = none) :
    canonical (canonical line) = canonical line :=
  canonical_congr (read_canonical h).2

end Line

end Abacus
