import ClusterMaster.Document.Basic

/-!
# Where a YAML reader stands

The layout of a YAML text carries meaning, so its reader keeps track of the line and the column it
has reached. Lines end with a line feed once `Cursor.ofText` has unified the ways to end one; two
further characters break lines and stand for themselves.
-/

namespace ClusterMaster.Document.Yaml

/-! ## Characters -/

def isBreak (c : Char) : Bool := c == '\n' || c == '\u2028' || c == '\u2029'

def isBlank (c : Char) : Bool := c == ' ' || c == '\t'

def isGap (c : Char) : Bool := isBlank c || isBreak c

/-- The characters that delimit lists and records written in brackets. -/
def isBracket (c : Char) : Bool := c == '[' || c == ']' || c == '\x7b' || c == '\x7d'

/-- The characters a YAML text may hold. -/
def isAllowed (c : Char) : Bool :=
  let n := c.toNat
  n == 0x9 || n == 0xA || n == 0xD || (0x20 ≤ n && n ≤ 0x7E) || n == 0x85 ||
    (0xA0 ≤ n && n ≤ 0xFFFD) || 0x10000 ≤ n

/-- Nothing, a blank or a line break comes next. -/
def atGap (cs : List Char) : Bool := cs.head?.all isGap

/-- Write every way to end a line as a line feed. -/
def unifyBreaks : List Char → List Char
  | '\r' :: '\n' :: cs => '\n' :: unifyBreaks cs
  | '\r' :: cs | '\u0085' :: cs => '\n' :: unifyBreaks cs
  | c :: cs => c :: unifyBreaks cs
  | [] => []

/-! ## Positions -/

/-- What is left of a text, and how far the reader has come: octets, lines, and characters in the
line. -/
structure Cursor where
  rest : List Char
  offset : Nat := 0
  line : Nat := 0
  column : Nat := 0

namespace Cursor

/-- The beginning of a text; none when the text holds a character that is not allowed. -/
def ofText? (s : String) : Option Cursor :=
  let cs := s.toList
  if cs.all isAllowed then some { rest := unifyBreaks cs } else none

/-- Step over the next character. -/
def next (c : Cursor) : Cursor :=
  match c.rest with
  | [] => c
  | x :: xs =>
    let offset := c.offset + x.utf8Size
    if isBreak x then { rest := xs, offset, line := c.line + 1, column := 0 }
    else { rest := xs, offset, line := c.line, column := c.column + 1 }

/-- Step over so many characters. -/
def skip (c : Cursor) : Nat → Cursor
  | 0 => c
  | n + 1 => c.next.skip n

/-- The characters from here on that pass a test. -/
def run (c : Cursor) (p : Char → Bool) : List Char := c.rest.takeWhile p

def skipWhile (c : Cursor) (p : Char → Bool) : Cursor := c.skip (c.run p).length

/-- Step over a byte order mark at the beginning of a line; it takes a column. -/
def skipByteOrderMark (c : Cursor) : Cursor :=
  if c.column = 0 ∧ c.rest.head? = some '\uFEFF' then c.next else c

/-- Leave the rest of the line out, if it is blank but for a comment; stop before its end. -/
def skipBlankLine? (c : Cursor) : Option Cursor :=
  let c := c.skipWhile isBlank
  match c.rest with
  | [] => some c
  | x :: _ =>
    if x = '#' then some (c.skipWhile fun x => !isBreak x)
    else if isBreak x then some c
    else none

/-- At the beginning of a line, three of these characters stand alone. -/
def atMark (c : Cursor) (x : Char) : Bool :=
  c.column == 0 && c.rest.take 3 == [x, x, x] && atGap (c.rest.drop 3)

/-- A line that ends or begins a document. -/
def atDocumentMark (c : Cursor) : Bool := c.atMark '-' || c.atMark '.'

end Cursor

end ClusterMaster.Document.Yaml
