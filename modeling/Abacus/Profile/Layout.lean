import Abacus.Profile

/-!
# A layout of documents

One codec for profiles. Below the word `variables:` there is a heading for each variable, and below
each heading the text of the value in quotation marks and the name of the radix:

```text
variables:
  $a:
    value: "0xff"
    system: hex
```

It serves programs that run on a real system. Nothing that is said of folders depends on it.
-/

namespace Abacus.Profile.Layout

/-! ## Writing -/

/-- The first line of a document. -/
def heading : Bytes := utf8 "variables:"

/-- What stands in place of variables where there are none. -/
def nothing : Bytes := utf8 "  \x7b\x7d"

/-- The lines of an entry. -/
def linesOf (e : Entry) : List Bytes :=
  (utf8 "  " ++ e.name ++ utf8 ":") :: (utf8 "    value: " ++ Bytes.quoted e.text)
    :: e.radix.toList.map (utf8 "    system: " ++ ·)

/-- The document of some entries. -/
def write (entries : List Entry) : Bytes :=
  Bytes.joinWith (utf8 "\n")
    (heading :: if entries.isEmpty then [nothing] else entries.flatMap linesOf)

/-! ## Reading -/

/-- What is left of a text behind a beginning that it has to have. -/
def behind? (front text : Bytes) : Option Bytes :=
  if text.take front.length = front then some (text.drop front.length) else none

/-- The text before an ending that it has to have. -/
def before? (ending text : Bytes) : Option Bytes :=
  (behind? ending.reverse text.reverse).map List.reverse

/-- The inside of a text in quotation marks, behind the first of them. -/
def unquoteRest? : Bytes → Option Bytes
  | [] => none
  | [b] => if b = Bytes.quote then some [] else none
  | b :: c :: rest =>
    if b = Bytes.quote then none
    else if b = Bytes.backslash then (unquoteRest? rest).map (c :: ·)
    else (unquoteRest? (c :: rest)).map (b :: ·)

/-- The inside of a text in quotation marks. -/
def unquote? : Bytes → Option Bytes
  | [] => none
  | b :: rest => if b = Bytes.quote then unquoteRest? rest else none

/-- The name that a heading gives. -/
def name? (line : Bytes) : Option Bytes := behind? (utf8 "  ") line >>= before? (utf8 ":")

/-- The text that a line gives to a variable. -/
def text? (line : Bytes) : Option Bytes := behind? (utf8 "    value: ") line >>= unquote?

/-- The radix that a line gives to a variable. -/
def radix? (line : Bytes) : Option Bytes := behind? (utf8 "    system: ") line

/-- The entries of some lines. -/
def entries? : List Bytes → Option (List Entry)
  | [] => some []
  | first :: second :: third :: rest => do
    let name ← name? first
    let text ← text? second
    match radix? third with
    | some radix => return ⟨name, text, some radix⟩ :: (← entries? rest)
    | none => return ⟨name, text, none⟩ :: (← entries? (third :: rest))
  | [first, second] => do return [⟨← name? first, ← text? second, none⟩]
  | [_] => none

/-- What the lines of a file are read as. -/
def read : List Bytes → Document
  | [] => .silent
  | first :: rest =>
    if first ≠ heading then .unreadable (utf8 "unknown layout")
    else if rest = [nothing] then .entries []
    else match entries? rest with
      | some entries => .entries (entries.map .ok)
      | none => .unreadable (utf8 "unknown layout")

/-- The codec of this layout. -/
def codec : Codec where
  write entries := .ok (write entries)
  read contents := read (Bytes.lines contents)
  noFile path := utf8 "bad file: " ++ path

end Abacus.Profile.Layout
