/-!
# Text for a Terminal

A terminal takes some characters as orders: an escape character begins a control
sequence that moves the cursor, changes colors or names the window. Text that
goes to a file instead must be free of them, and what it is free of may have come
from outside, so sequences of every kind are known here and not only those that
`bold` writes.

A sequence is followed character by character. `Mode` is how far it has come,
`Mode.next` reads one more character, and `Mode.shows` says which characters a
terminal would show rather than obey. Tabs and line ends are shown even within a
sequence, which a terminal carries out at once; the text after one is then shown
as well, up to the next control character, where the sequence goes on.

## Main definitions

* `bold`: Text that stands out on a terminal.
* `Mode`: The part of a control sequence that is being read.
* `plain`: The text without control sequences.
-/

namespace RegisterColoring

namespace Terminal

/-- The character that begins a control sequence. -/
def escapeChar : Char :=
  '\x1b'

/-- Text that stands out on a terminal. The sequence behind it also ends whatever
    sequence the text itself leaves open. -/
def bold (text : String) : String :=
  "\x1b[1m" ++ text ++ "\x1b[0m"

/-- The part of a control sequence that is being read. -/
inductive Mode where
  /-- No sequence. -/
  | text
  /-- Behind the escape character. -/
  | escape
  /-- Behind the escape character and a mark, before the letter that ends it. -/
  | marked
  /-- The numbers of a control sequence, which a letter ends. -/
  | control
  /-- A command to the window system, which a bell ends. -/
  | command
  /-- The start of a device string. -/
  | device
  /-- The numbers of a device string. -/
  | deviceNumbers
  /-- The marks of a device string. -/
  | deviceMarks
  /-- The body of a device string, or a string for no one. -/
  | string
deriving DecidableEq, Repr

/-- The character lies between two others. -/
def within (first last c : Char) : Bool :=
  first ≤ c && c ≤ last

/-- The terminator of strings is a byte, and any character that is written with
    it will do. -/
def endsString (c : Char) : Bool :=
  (String.utf8EncodeChar c).contains 0x9c

/-- Tabs, line ends, page ends and returns. -/
def isBlankControl (c : Char) : Bool :=
  c = '\t' || c = '\n' || c = '\x0c' || c = '\r'

namespace Mode

/-- Read one more character. An escape character begins anew from anywhere, and
    the two cancelling characters end any sequence. -/
def next (m : Mode) (c : Char) : Mode :=
  if c = escapeChar then .escape
  else if c = '\x18' || c = '\x1a' then .text
  else match m with
    | .text => .text
    | .escape =>
        if within ' ' '/' c then .marked
        else if c = '[' then .control
        else if c = ']' then .command
        else if c = 'P' then .device
        else if c = 'X' || c = '^' || c = '_' then .string
        else if within '0' '~' c then .text
        else .escape
    | .marked => if within '0' '~' c then .text else .marked
    | .control => if within '@' '~' c then .text else .control
    | .command => if c = '\x07' then .text else .command
    | .device =>
        if within ' ' '/' c then .deviceMarks
        else if within '0' '?' c then .deviceNumbers
        else if within '@' '~' c then .string
        else .device
    | .deviceNumbers =>
        if within ' ' '/' c then .deviceMarks
        else if within '<' '~' c then .string
        else .deviceNumbers
    | .deviceMarks => if within '0' '~' c then .string else .deviceMarks
    | .string => if endsString c then .text else .string

/-- The character is shown and not obeyed. -/
def shows (m : Mode) (c : Char) : Bool :=
  match m with
  | .text => (' ' ≤ c && c ≠ '\x7f') || isBlankControl c
  | .escape | .marked | .control => isBlankControl c
  | .command | .device | .deviceNumbers | .deviceMarks | .string => false

end Mode

/-- The characters that are shown. While text is `running`, each one is judged as
    text, whatever sequence was left; a character beyond ASCII ends that sequence. -/
def shown (m : Mode) (running : Bool) : List Char → List Char
  | [] => []
  | c :: rest =>
      if (if running then Mode.text else m).shows c then
        c :: shown (if c ≤ '\x7f' then m else .text) true rest
      else shown (m.next c) false rest

/-- The text without control sequences. -/
def plain (text : String) : String :=
  String.ofList (shown .text false text.toList)

end Terminal

end RegisterColoring
