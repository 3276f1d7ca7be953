/-
Plain text: text without terminal control.

What is shown to a reader outside of a terminal is left without control characters and without
control functions.  Of the control characters only the blanks remain: tab, line feed, form feed
and carriage return.  The control functions are

* escape sequences: the escape character, intermediate characters, and a final character;
* control sequences, which an escape sequence with `[` opens and a character from `@` to `~`
  closes;
* control strings, opened by escape sequences with `P`, `X`, `^`, `_` and `]`.  A string opened
  by `]` ends with the bell character, the others end with a character that is encoded with
  the byte 9C; the string opened by `P` has a header first, up to a character from `@` to `~`.

The characters 18 and 1A cancel a control function, and the escape character begins a new one.

A blank inside an escape sequence or a control sequence is shown, and so is the text after it,
up to the next control character; there the sequence goes on, unless a character beyond ASCII
was shown, which ends it.
-/
namespace Accumulator

/-- The control characters that are shown. -/
def isBlank (c : Char) : Bool :=
  c = '\t' || c = '\n' || c = '\x0c' || c = '\r'

/-- The characters that are shown outside of control functions. -/
def isVisible (c : Char) : Bool :=
  isBlank c || (0x20 ≤ c.toNat && c.toNat ≠ 0x7f)

namespace PlainText

/-- The control function that is being read, and how much of its beginning has been read. -/
inductive Mode where
  | text
  | escape
  | escapeTail
  | sequence
  -- the header of a control string that `P` has opened
  | device
  | deviceParameters
  | deviceTail
  -- the control strings that a byte 9C ends, and those that the bell character ends
  | string
  | command
deriving DecidableEq, Repr

namespace Mode

/-- Whether blanks are shown inside a control function: they are in sequences, and not in
strings. -/
def showsBlanks : Mode → Bool
  | text | escape | escapeTail | sequence => true
  | device | deviceParameters | deviceTail | string | command => false

def within (c first last : Char) : Bool :=
  first.toNat ≤ c.toNat && c.toNat ≤ last.toNat

/-- Whether a character is encoded with the byte 9C. -/
def terminates (c : Char) : Bool :=
  (String.utf8EncodeChar c).contains 0x9c

/-- The mode after a character that is not shown. -/
def advance (mode : Mode) (c : Char) : Mode :=
  if c = '\x18' ∨ c = '\x1a' then text
  else if c = '\x1b' then escape
  else
    match mode with
    | text => text
    | escape =>
      if within c ' ' '/' then escapeTail
      else if c = '[' then sequence
      else if c = 'P' then device
      else if c = ']' then command
      else if c = 'X' ∨ c = '^' ∨ c = '_' then string
      else if within c '0' '~' then text
      else escape
    | escapeTail => if within c '0' '~' then text else escapeTail
    | sequence => if within c '@' '~' then text else sequence
    | device =>
      if within c ' ' '/' then deviceTail
      else if within c '0' '?' then deviceParameters
      else if within c '@' '~' then string
      else device
    | deviceParameters =>
      if within c ' ' '/' then deviceTail
      else if within c '<' '~' then string
      else deviceParameters
    | deviceTail => if within c '0' '~' then string else deviceTail
    | string => if terminates c then text else string
    | command => if c = '\x07' then text else command

end Mode

/-- The state between two characters. -/
structure Filter where
  mode : Mode := .text
  shown : Bool := false
deriving DecidableEq, Repr

namespace Filter

/-- Whether the next character is shown: any visible character outside of control functions and
after a character that was shown, and a blank inside a sequence. -/
def shows (f : Filter) (c : Char) : Bool :=
  if f.shown || f.mode = .text then isVisible c else f.mode.showsBlanks && isBlank c

/-- The state after the next character. -/
def next (f : Filter) (c : Char) : Filter :=
  if f.shows c then { mode := if c.toNat < 0x80 then f.mode else .text, shown := true }
  else { mode := f.mode.advance c, shown := false }

def run (f : Filter) : List Char → List Char
  | [] => []
  | c :: cs => if f.shows c then c :: (f.next c).run cs else (f.next c).run cs

end Filter

end PlainText

/-- A text without terminal control. -/
def plainText (text : String) : String :=
  String.ofList (({} : PlainText.Filter).run text.toList)

end Accumulator
