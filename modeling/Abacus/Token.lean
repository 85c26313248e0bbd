import Abacus.Node

/-!
# Tokens

The pieces that a line is cut into, and how they get from the scan to a reader.
-/

namespace Abacus

/-!
## Tokens

A token is a piece of a line with its kind and the byte offset it starts at. The last token of a
line says how the scan ended: at the end of the line, or at a stray character, which no kind of
lexeme begins with.
-/

namespace Token

/-- The kind of a token. -/
inductive Kind where
  | stray
  | endOfLine
  | equals
  | space
  | lparen
  | rparen
  | number
  | var
  | operator (op : Operator)
  | word
  | abs
  | save
  | load
  | clear
  | output (radix : Radix)
  deriving DecidableEq, Repr

namespace Kind

/-- The name of a kind in a trace. -/
def name : Kind → Bytes
  | stray => utf8 "Error"
  | endOfLine => utf8 "End"
  | equals => utf8 "Equals"
  | space => utf8 "Space"
  | lparen => utf8 "LParen"
  | rparen => utf8 "RParen"
  | number => utf8 "Number"
  | var => utf8 "Variable"
  | operator op => op.name
  | word => utf8 "Text"
  | abs => utf8 "Abs"
  | save => utf8 "Save"
  | load => utf8 "Load"
  | clear => utf8 "Clear"
  | output .dec => utf8 "Dec"
  | output .hex => utf8 "Hex"
  | output .bin => utf8 "Bin"
  | output .oct => utf8 "Oct"

/-- A binary operator. -/
def isOperator : Kind → Bool
  | operator _ => true
  | _ => false

end Kind

end Token

/-- A token of a line. -/
structure Token where
  /-- Its kind. -/
  kind : Token.Kind
  /-- Its bytes in the line. -/
  lexeme : Bytes
  /-- The offset of its first byte. -/
  position : Nat
  deriving DecidableEq, Repr

namespace Token

/-- The offset behind the last byte. -/
def finish (t : Token) : Nat := t.position + t.lexeme.length

/-- What a stray character is reported as. -/
def strayText (character : Bytes) : Bytes := utf8 "неожиданный символ " ++ character

/-- The text that stands for a token: every run of blanks shows as one space. -/
def text (t : Token) : Bytes :=
  match t.kind with
  | .space => utf8 " "
  | .stray => strayText t.lexeme
  | _ => t.lexeme

/-- A token in a trace. -/
def describe (t : Token) : Bytes :=
  match t.kind with
  | .endOfLine => utf8 "EOF"
  | .stray => t.text
  | kind => utf8 "<" ++ kind.name ++ utf8 ">\"" ++ t.text ++ utf8 "\""

/-!
## Scanning a line

A line is cut from left to right into lexemes, each the longest one of its class that starts where
the one before it ended. The classes are runs of blanks, the sixteen fixed symbols, variables
(`$` and word bytes), numbers (`b` and binary digits; `0x` and hexadecimal digits; decimal digits
with at most one point among or behind them), and words (a letter and word bytes), some of which
are keywords. The lexemes of a line, put together again, are the line up to where the scan ended.
-/

/-! ### Lexeme classes -/

/-- The fixed symbols. A symbol stands before every shorter one that it begins with. -/
def symbols : List (Bytes × Kind) :=
  [(utf8 "(", .lparen), (utf8 ")", .rparen), (utf8 "=", .equals)]
    ++ ([.add, .sub, .pow, .mul, .floorDiv, .div, .and, .or, .xor, .inv, .mod, .shiftLeft,
        .shiftRight] : List Operator).map fun op ↦ (op.symbol, .operator op)

/-- The fixed symbol at the front of a text. -/
def symbol? (s : Bytes) : Option (Bytes × Kind) := symbols.find? fun entry ↦ entry.1.isPrefixOf s

/-- The words with a meaning of their own. -/
def keywords : List (Bytes × Kind) :=
  [(utf8 "abs", .abs), (utf8 "save", .save), (utf8 "load", .load), (utf8 "clear", .clear)]
    ++ Radix.all.map fun radix ↦ (radix.name, .output radix)

/-- The kind of a word. -/
def wordKind (s : Bytes) : Kind := ((keywords.find? (·.1 = s)).map (·.2)).getD .word

/-- A `b` with a binary digit behind it. -/
def startsBinary : Bytes → Bool
  | b :: c :: _ => b == 'b'.toUInt8 && Bytes.isBinaryDigit c
  | _ => false

/-- A zero with an `x` of either case behind it. -/
def startsHex : Bytes → Bool
  | b :: c :: _ => b == '0'.toUInt8 && (c == 'x'.toUInt8 || c == 'X'.toUInt8)
  | _ => false

/-- Digits with at most one point, which needs no digit behind it. -/
def decimalLexeme (s : Bytes) : Bytes :=
  s.takeWhile Bytes.isDigit ++
    match s.dropWhile Bytes.isDigit with
    | [] => []
    | b :: rest => if b = '.'.toUInt8 then b :: rest.takeWhile Bytes.isDigit else []

/-- The number at the front of a text that starts with a digit or like a binary number. -/
def numberLexeme (s : Bytes) : Bytes :=
  if startsBinary s then s.take 1 ++ (s.drop 1).takeWhile Bytes.isBinaryDigit
  else if startsHex s then s.take 2 ++ (s.drop 2).takeWhile Bytes.isHexDigit
  else decimalLexeme s

/-- The word bytes behind the first byte, and that byte. -/
def wordLexeme (s : Bytes) : Bytes := s.take 1 ++ (s.drop 1).takeWhile Bytes.isWordByte

/-- The lexeme at the front of a text, with its kind; there is none before a stray character. -/
def lexeme? : Bytes → Option (Bytes × Kind)
  | [] => none
  | b :: rest =>
    let s := b :: rest
    if Bytes.isBlank b then some (s.takeWhile Bytes.isBlank, .space)
    else if b = '$'.toUInt8 then some (wordLexeme s, .var)
    else match symbol? s with
    | some entry => some entry
    | none =>
      if startsBinary s || Bytes.isDigit b then some (numberLexeme s, .number)
      else if Bytes.isLetter b then some (wordLexeme s, wordKind (wordLexeme s))
      else none

/-! ### Progress -/

theorem ne_nil_of_mem_symbols : ∀ entry ∈ symbols, entry.1 ≠ [] := by decide

private theorem decimalLexeme_ne_nil {b : UInt8} {rest : Bytes} (h : Bytes.isDigit b = true) :
    decimalLexeme (b :: rest) ≠ [] := by
  simp [decimalLexeme, h]

private theorem numberLexeme_ne_nil {b : UInt8} {rest : Bytes}
    (h : (startsBinary (b :: rest) || Bytes.isDigit b) = true) :
    numberLexeme (b :: rest) ≠ [] := by
  rw [numberLexeme]
  split
  · simp
  · split
    · simp
    · next hb _ => exact decimalLexeme_ne_nil (by simpa [hb] using h)

theorem lexeme?_ne_nil {s l : Bytes} {kind : Kind} (h : lexeme? s = some (l, kind)) : l ≠ [] := by
  cases s with
  | nil => simp [lexeme?] at h
  | cons b rest =>
    simp only [lexeme?] at h
    split at h
    · next hb =>
      cases h
      simp [hb]
    split at h
    · cases h
      simp [wordLexeme]
    split at h
    · next entry he =>
      cases h
      exact ne_nil_of_mem_symbols _ (List.mem_of_find?_eq_some he)
    split at h
    · next hn =>
      cases h
      exact numberLexeme_ne_nil hn
    split at h
    · cases h
      simp [wordLexeme]
    · cases h

/-! ### The tokens of a line -/

/-- The character at the front of a text: as many bytes as its first byte announces. -/
def character : Bytes → Bytes
  | [] => []
  | b :: rest => (b :: rest).take (Bytes.leadLength b)

/-- The token that ends a scan: the end of the line, or a stray character. -/
def lastToken (position : Nat) (s : Bytes) : Token :=
  if s.isEmpty then ⟨.endOfLine, [], position⟩ else ⟨.stray, character s, position⟩

/-- The tokens of the rest of a line, which starts at some offset. -/
def scanFrom (position : Nat) (s : Bytes) : List Token :=
  match _h : lexeme? s with
  | some (l, kind) => ⟨kind, l, position⟩ :: scanFrom (position + l.length) (s.drop l.length)
  | none => [lastToken position s]
termination_by s.length
decreasing_by
  have hl : 0 < l.length := List.length_pos_iff.mpr (lexeme?_ne_nil _h)
  have hs : s ≠ [] := by rintro rfl; simp [lexeme?] at _h
  have := List.length_pos_iff.mpr hs
  simp only [List.length_drop]
  omega

/-- The tokens of a line. The last one alone ends the line or is stray. -/
def scan (line : Bytes) : List Token := scanFrom 0 line

/-!
## Scanning on demand

A cursor hands out the tokens of a line one at a time. Behind the token that ends the line it hands
out nothing, however often it is asked.
-/

/-- A scan in progress. -/
structure Cursor where
  /-- The rest of the line. -/
  rest : Bytes
  /-- The offset of the rest. -/
  position : Nat
  /-- The last token has been handed out. -/
  finished : Bool
  deriving DecidableEq, Repr

namespace Cursor

/-- A scan of a line that has not begun. -/
def start (line : Bytes) : Cursor := ⟨line, 0, false⟩

/-- The next token, if there is one, and the scan behind it. -/
def next (c : Cursor) : Option Token × Cursor :=
  if c.finished then (none, c)
  else match lexeme? c.rest with
    | some (l, kind) =>
      (some ⟨kind, l, c.position⟩, ⟨c.rest.drop l.length, c.position + l.length, false⟩)
    | none => (some (lastToken c.position c.rest), { c with finished := true })

/-- What some number of calls of `next` hand out. -/
def calls : Nat → Cursor → List (Option Token)
  | 0, _ => []
  | n + 1, c => c.next.1 :: calls n c.next.2

end Cursor

/-!
## Handing tokens over

A scan and its reader work side by side and share one slot. The scan may put its next token into
the slot when that is empty, and closes the slot behind its last token. The reader takes the token
in the slot; it is told that no more will come when the slot is empty and closed. Everything else
waits. `act?` gives the state behind one action of either side, when the action is possible, so the
possible orders of actions are the runs of `act?`.
-/

/-- A scan, its reader and the slot between them. -/
structure Handoff where
  /-- The scan. -/
  source : Cursor
  /-- The token that waits to be taken. -/
  slot : Option Token
  /-- No more tokens will be put into the slot. -/
  closed : Bool
  /-- The tokens that the reader has taken, in their order. -/
  received : List Token
  /-- The reader has been told that no more will come. -/
  told : Bool
  deriving DecidableEq, Repr

namespace Handoff

/-- Nothing has been handed over. -/
def start (line : Bytes) : Handoff := ⟨.start line, none, false, [], false⟩

/-- One action of either side. -/
inductive Action where
  /-- The scan puts its next token into the slot. -/
  | send
  /-- The scan closes the slot. -/
  | close
  /-- The reader asks for a token. -/
  | receive
  deriving DecidableEq, Repr

/-- The state behind an action, unless the action has to wait. -/
def act? (h : Handoff) : Action → Option Handoff
  | .send =>
    match h.slot, h.source.next with
    | none, (some t, source) => some { h with source := source, slot := some t }
    | _, _ => none
  | .close => if h.source.finished && !h.closed then some { h with closed := true } else none
  | .receive =>
    match h.slot with
    | some t => some { h with slot := none, received := h.received ++ [t] }
    | none => if h.closed then some { h with told := true } else none

/-- The scan takes its turn, if it can. -/
def advance (h : Handoff) : Handoff := ((h.act? .send).or (h.act? .close)).getD h

/-- A call of the reader that lets the scan take its turn first. -/
def next (h : Handoff) : Option Token × Handoff :=
  let ready := h.advance
  (ready.slot, (ready.act? .receive).getD ready)

/-- What some number of calls of the reader give. -/
def calls : Nat → Handoff → List (Option Token)
  | 0, _ => []
  | n + 1, h => h.next.1 :: calls n h.next.2

end Handoff

end Token

end Abacus
