import ClusterMaster.Document.Yaml.Cursor

/-!
# The scalars of YAML

A scalar is a text written in one of three ways: without quotes, in quotes, or as a block of
indented lines. In the first two the blanks and line breaks between two words are folded
(`foldGap`): a single line break becomes a space, of several the first is dropped.

Every reader here answers with the characters of the scalar and with where it ends. Their fuel
bounds the number of words or lines; more than the length of the text is enough, since each takes
a character.
-/

namespace ClusterMaster.Document.Yaml

/-- What the gap between two words of a scalar stands for. -/
def foldGap (gap : List Char) : List Char :=
  match gap.filter isBreak with
  | [] => gap
  | ['\n'] => [' ']
  | '\n' :: more => more
  | breaks => breaks

/-! ## Without quotes -/

/-- The word that begins here: it ends before a gap, before a colon with a gap after it and,
inside brackets, before what delimits items. There a colon must not stand before a delimiter. -/
def plainWord? (inBrackets : Bool) : List Char → Option (List Char)
  | [] => some []
  | x :: xs =>
    let delimits (y : Char) := y == ',' || isBracket y
    if isGap x then some []
    else if inBrackets && x == ':' && xs.head?.any fun y => delimits y || y == '?' then none
    else if x == ':' && atGap xs then some []
    else if inBrackets && delimits x then some []
    else (plainWord? inBrackets xs).map (x :: ·)

/-- A line after the first one is indented with a tab before a column. -/
def hasTabBefore (column : Nat) : List Char → Bool
  | [] => false
  | x :: xs => (isBreak x && (xs.takeWhile isBlank |>.take column).contains '\t') ||
      hasTabBefore column xs

/-- A scalar without quotes goes on from here, after a gap. It ends at a comment, at a document
mark and, outside brackets, at a line that is indented less than `indent`. Answers also with
whether the gap it ends with holds a line break. -/
def readPlain? (inBrackets : Bool) (indent : Nat) :
    Nat → List Char → Cursor → Option (List Char × Cursor × Bool)
  | 0, _, _ => none
  | fuel + 1, gap, c => do
    if c.atDocumentMark || c.rest.head? == some '#' then return ([], c, gap.any isBreak)
    let word ← plainWord? inBrackets c.rest
    if word.isEmpty then return ([], c, gap.any isBreak)
    let behind := c.skip word.length
    let gapAfter := behind.run isGap
    let chars := foldGap gap ++ word
    let ahead := behind.skip gapAfter.length
    if gapAfter.isEmpty then return (chars, behind, false)
    else if hasTabBefore indent gapAfter then none
    else if !inBrackets && decide (ahead.column < indent) then
      return (chars, ahead, gapAfter.any isBreak)
    else
      let (more, after, broken) ← readPlain? inBrackets indent fuel gapAfter ahead
      return (chars ++ more, after, broken)

/-! ## In quotes -/

/-- The value of a hexadecimal number. -/
def hexValue? (cs : List Char) : Option Nat :=
  cs.foldlM (fun n c =>
    if '0' ≤ c ∧ c ≤ '9' then some (n * 16 + (c.toNat - 48))
    else if 'a' ≤ c ∧ c ≤ 'f' then some (n * 16 + (c.toNat - 87))
    else if 'A' ≤ c ∧ c ≤ 'F' then some (n * 16 + (c.toNat - 55))
    else none) 0

/-- A character by its number. -/
def numbered? (n : Nat) : Option Char :=
  if n < 0xD800 ∨ (0xE000 ≤ n ∧ n < 0x110000) then some (Char.ofNat n) else none

/-- The character that follows a backslash stands for another one. -/
def escaped? (c : Char) : Option Char :=
  match c with
  | '0' => some '\x00'
  | 'a' => some '\x07'
  | 'b' => some '\x08'
  | 't' | '\t' => some '\t'
  | 'n' => some '\n'
  | 'v' => some '\x0b'
  | 'f' => some '\x0c'
  | 'r' => some '\r'
  | 'e' => some '\x1b'
  | ' ' => some ' '
  | '"' => some '"'
  | '/' => some '/'
  | '\\' => some '\\'
  | 'N' => some '\u0085'
  | '_' => some '\u00a0'
  | 'L' => some '\u2028'
  | 'P' => some '\u2029'
  | _ => none

/-- How many digits of a character's number follow this letter after a backslash. -/
def numberLength (c : Char) : Nat :=
  match c with
  | 'x' => 2
  | 'u' => 4
  | 'U' => 8
  | _ => 0

/-- The escape after a backslash: what it stands for, and how many characters it takes. -/
def readEscape? (cs : List Char) : Option (List Char × Nat) :=
  match cs with
  | [] => none
  | x :: xs =>
    let digits := xs.take (numberLength x)
    if isBreak x then
      let gap := xs.takeWhile isGap
      some (gap.filter isBreak, 1 + gap.length)
    else if digits.isEmpty then (escaped? x).map fun y => ([y], 1)
    else if digits.length < numberLength x then none
    else
      ((hexValue? digits).bind numbered?).map fun y => ([y], 1 + digits.length)

/-- The rest of a scalar in one kind of quotes. A single quote is written twice inside its own
kind; only between double quotes does a backslash escape. -/
def readQuoted? (quote : Char) : Nat → Cursor → Option (List Char × Cursor)
  | 0, _ => none
  | fuel + 1, c => do
    if c.atDocumentMark then none
    match c.rest with
    | [] => none
    | x :: xs =>
      let goOn (chars : List Char) (length : Nat) := do
        let (more, after) ← readQuoted? quote fuel (c.skip length)
        return (chars ++ more, after)
      if x = '\'' ∧ quote = '\'' ∧ xs.head? = some '\'' then goOn [x] 2
      else if x = quote then return ([], c.next)
      else if x = '\\' ∧ quote = '"' then
        let (chars, length) ← readEscape? xs
        goOn chars (1 + length)
      else if isGap x then
        let gap := c.run isGap
        goOn (foldGap gap) gap.length
      else goOn [x] 1

/-! ## Blocks of lines -/

/-- What becomes of the line breaks at the end of a block. -/
inductive Chomping where
  | strip
  | clip
  | keep
  deriving DecidableEq

/-- The two marks after the beginning of a block, in either order: chomping and indentation. -/
def readBlockMarks? (cs : List Char) : Option (Chomping × Nat × Nat) :=
  let chomping? (x : Char) : Option Chomping :=
    if x = '-' then some .strip else if x = '+' then some .keep else none
  let indent? (x : Char) : Option Nat := if x.isDigit then some (x.toNat - 48) else none
  let read : Chomping × Nat × Nat :=
    match cs with
    | [] => (.clip, 0, 0)
    | x :: xs =>
      let y? := xs.head?
      match chomping? x, indent? x with
      | some ch, _ =>
        match y?.bind indent? with
        | some n => (ch, n, 2)
        | none => (ch, 0, 1)
      | none, some n =>
        match y?.bind chomping? with
        | some ch => (ch, n, 2)
        | none => (.clip, n, 1)
      | none, none => (.clip, 0, 0)
  let zero := (cs.take read.2.2).contains '0'
  if zero then none else some read

/-- Leave the indentation of the next line out, and every empty line before it. While `indent` is
zero it is not known, and all spaces are indentation. Answers with the breaks that were left
out, the place reached, and the deepest column on the way. -/
def skipIndent? (indent : Nat) : Nat → Cursor → Nat → Option (List Char × Cursor × Nat)
  | 0, _, _ => none
  | fuel + 1, c, deepest =>
    let spaces := (c.run (· == ' ')).length
    let c := c.skip (if indent = 0 then spaces else min spaces (indent - c.column))
    let deepest := max deepest c.column
    match c.rest with
    | [] => some ([], c, deepest)
    | x :: _ =>
      if x = '\t' ∧ (indent = 0 ∨ c.column < indent) then none
      else if isBreak x then
        (skipIndent? indent fuel c.next deepest).map fun r => (x :: r.1, r.2)
      else some ([], c, deepest)

/-- What stands between two lines of a block, or before the first one: the break after the line
before, and the empty lines. A folded block joins lines unless one of them begins with a blank. -/
def joinLines (folded afterBlank beforeBlank : Bool) (lineBreak emptyLines : List Char) :
    List Char :=
  if folded && lineBreak == ['\n'] && !afterBlank && !beforeBlank then
    if emptyLines.isEmpty then [' '] else emptyLines
  else lineBreak ++ emptyLines

/-- The lines of a block from here on, the first of them after a break, empty lines, and a line
that may begin with a blank. Answers with the text, the last break and the empty lines after it,
and where the block ends. -/
def readLines? (folded : Bool) (indent : Nat) :
    Nat → List Char → List Char → Bool → Cursor → Option (List Char × List Char × List Char × Cursor)
  | 0, _, _, _, _ => none
  | fuel + 1, lineBreak, emptyLines, afterBlank, c => do
    if c.column ≠ indent ∨ c.rest.isEmpty then return ([], lineBreak, emptyLines, c)
    let beginsBlank := c.rest.head?.any isBlank
    let line := c.run fun x => !isBreak x
    let atEnd := c.skip line.length
    let (nextEmpty, next, _) ← skipIndent? indent (fuel + 1) atEnd.next 0
    let (chars, lastBreak, lastEmpty, after) ←
      readLines? folded indent fuel (atEnd.rest.take 1) nextEmpty beginsBlank next
    return (joinLines folded afterBlank beginsBlank lineBreak emptyLines ++ line ++ chars,
      lastBreak, lastEmpty, after)

/-- A block of lines, after the character that begins it. `parent` is the least column the block
can have. -/
def readBlock? (folded : Bool) (parent fuel : Nat) (c : Cursor) : Option (List Char × Cursor) := do
  let (chomping, explicit, marks) ← readBlockMarks? c.rest
  let header ← (c.skip marks).skipBlankLine?
  let given := if explicit = 0 then 0 else parent - 1 + explicit
  let (emptyLines, start, deepest) ← skipIndent? given fuel header.next 0
  let indent := if given = 0 then max deepest (max parent 1) else given
  let (chars, lastBreak, lastEmpty, after) ← readLines? folded indent fuel [] emptyLines false start
  let tail :=
    match chomping with
    | .strip => []
    | .clip => lastBreak
    | .keep => lastBreak ++ lastEmpty
  return (chars ++ tail, after)

end ClusterMaster.Document.Yaml
