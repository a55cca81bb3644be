import ClusterMaster.Document.Yaml.Tag

/-!
# The tokens of a YAML text

`tokens?` cuts a text into tokens and makes its layout explicit: where a line is indented deeper
than the block around it a list or a record begins, and where it is indented less, blocks end. That
something is the name of a field shows only at the colon behind it, so what may turn out to be one
is remembered as a `Candidate`, and its token is put in front of it later.
-/

namespace ClusterMaster.Document.Yaml

inductive Token where
  /-- The version a text asks for. -/
  | version
  /-- What a handle of tags stands for. -/
  | handle (name : String) (octets : List UInt8)
  | documentStart
  | documentEnd
  | blockList
  | blockRecord
  | blockEnd
  | openList
  | closeList
  | openRecord
  | closeRecord
  | comma
  /-- An item of a list without brackets. -/
  | dash
  /-- A field name follows. -/
  | name
  /-- The value of a field follows. -/
  | value
  | anchor (label : String)
  | alias (label : String)
  | tag (t : Tag)
  | scalar (text : String) (style : ScalarStyle)

/-! ## Versions -/

/-- The digits of a version number; leading zeros make no difference. -/
def isVersionPart (digits : List Char) (values : List Nat) : Bool :=
  digits.length ≤ 9 &&
    values.contains (digits.foldl (fun n d => n * 10 + (d.toNat - 48)) 0)

/-- Step over the version that a text asks for, with blanks before it; it is 1.1 or 1.2. -/
def Cursor.skipVersion? (c : Cursor) : Option Cursor :=
  let start := c.skipWhile isBlank
  let major := start.run Char.isDigit
  let dot := start.skip major.length
  let minor := dot.next.run Char.isDigit
  if start.offset ≠ c.offset ∧ dot.rest.head? = some '.' ∧ isVersionPart major [1] ∧
      isVersionPart minor [1, 2] then
    some (dot.next.skip minor.length)
  else none

/-! ## Cutting a text -/

/-- What may turn out to be a field name: how many tokens stand before it, and where it begins.
A required one stands where nothing but a field can stand. -/
structure Candidate where
  place : Nat
  offset : Nat
  line : Nat
  column : Nat
  required : Bool

/-- How far the text has been cut. -/
structure Cutting where
  cursor : Cursor
  tokens : Array Token := #[]
  /-- The columns of the open blocks, innermost first. -/
  blocks : List Nat := []
  /-- The candidate outside all brackets. -/
  outer : Option Candidate := none
  /-- A candidate for every open bracket, innermost first. -/
  inner : List (Option Candidate) := []
  /-- A field name may begin here. -/
  nameAllowed : Bool := true

namespace Cutting

/-! ## Layout -/

def inBrackets (s : Cutting) : Bool := !s.inner.isEmpty

def emit (s : Cutting) (t : Token) : Cutting := { s with tokens := s.tokens.push t }

/-- The least column of what belongs to the innermost block. -/
def contentColumn (s : Cutting) : Nat :=
  match s.blocks with
  | [] => 0
  | column :: _ => column + 1

/-- Open a block at a column that lies deeper than the innermost one. Its token goes in front of
the token at `place`. Inside brackets the layout means nothing. -/
def openBlock (s : Cutting) (column place : Nat) (t : Token) : Cutting :=
  if s.inBrackets || decide (column < s.contentColumn) then s
  else { s with blocks := column :: s.blocks, tokens := s.tokens.insertIdxIfInBounds place t }

/-- End blocks as long as a test holds of their column. -/
def endBlocks (s : Cutting) (ends : Nat → Bool) : Cutting :=
  let ended := s.blocks.takeWhile ends
  { s with
    blocks := s.blocks.dropWhile ends
    tokens := s.tokens ++ (ended.map fun _ => Token.blockEnd) }

/-! ## Candidates for field names -/

def candidate? (s : Cutting) : Option Candidate :=
  match s.inner with
  | [] => s.outer
  | c :: _ => c

def setCandidate (s : Cutting) (c : Option Candidate) : Cutting :=
  match s.inner with
  | [] => { s with outer := c }
  | _ :: cs => { s with inner := c :: cs }

/-- Forget the candidate; a required one cannot be forgotten. -/
def dropCandidate? (s : Cutting) : Option Cutting :=
  if s.candidate?.any Candidate.required then none else some (s.setCandidate none)

/-- A field name takes no more octets than this, and stands on one line with its colon. -/
def maxNameLength : Nat := 1024

/-- The candidate is too far behind to be a field name. -/
def isStale (s : Cutting) (c : Candidate) : Bool :=
  decide (c.line < s.cursor.line) || decide (c.offset + maxNameLength < s.cursor.offset)

/-- Forget all candidates that are too far behind. -/
def dropStale? (s : Cutting) : Option Cutting :=
  let stale := (s.outer :: s.inner).filterMap fun c => c.filter s.isStale
  if stale.any Candidate.required then none
  else
    let fresh (c : Option Candidate) := c.filter fun c => !s.isStale c
    some { s with outer := fresh s.outer, inner := s.inner.map fresh }

/-- Remember what begins here as a candidate, if a field name may begin here. -/
def noteCandidate? (s : Cutting) : Option Cutting :=
  if s.nameAllowed then
    s.dropCandidate?.map fun s => s.setCandidate (some
      { place := s.tokens.size
        offset := s.cursor.offset
        line := s.cursor.line
        column := s.cursor.column
        required := !s.inBrackets && s.blocks.head? == some s.cursor.column })
  else some s

/-! ## One token -/

/-- A sign of so many characters. -/
def sign (s : Cutting) (t : Token) (length : Nat) : Cutting :=
  { s.emit t with cursor := s.cursor.skip length }

/-- The mark that begins or ends a document. -/
def documentMark? (s : Cutting) (t : Token) : Option Cutting :=
  (s.endBlocks fun _ => true).dropCandidate?.map fun s =>
    { s.sign t 3 with nameAllowed := false }

/-- A line that says how the text is to be read: its version, or what a handle stands for. -/
def directive? (s : Cutting) : Option Cutting := do
  let s ← (s.endBlocks fun _ => true).dropCandidate?
  let behind := s.cursor.next
  let name := behind.run isLabel
  let rest := behind.skip name.length
  let (t, after) ←
    if name = "YAML".toList then rest.skipVersion?.map fun after => (Token.version, after)
    else if name = "TAG".toList ∧ atGap rest.rest then
      rest.readHandle?.map fun r => (Token.handle r.1.1 r.1.2, r.2)
    else none
  let after ← after.skipBlankLine?
  return { s.emit t with cursor := after.next, nameAllowed := false }

def openBracket? (s : Cutting) (t : Token) : Option Cutting :=
  s.noteCandidate?.map fun s => { s.sign t 1 with inner := none :: s.inner, nameAllowed := true }

def closeBracket? (s : Cutting) (t : Token) : Option Cutting :=
  s.dropCandidate?.map fun s => { s.sign t 1 with inner := s.inner.tail, nameAllowed := false }

def comma? (s : Cutting) : Option Cutting :=
  s.dropCandidate?.map fun s => { s.sign .comma 1 with nameAllowed := true }

/-- An item of a list that is written without brackets. -/
def dash? (s : Cutting) : Option Cutting := do
  if !s.inBrackets && !s.nameAllowed then none
  let s ← (s.openBlock s.cursor.column s.tokens.size .blockList).dropCandidate?
  return { s.sign .dash 1 with nameAllowed := true }

/-- A field name announced by a question mark. -/
def name? (s : Cutting) : Option Cutting := do
  if !s.inBrackets && !s.nameAllowed then none
  let s ← (s.openBlock s.cursor.column s.tokens.size .blockRecord).dropCandidate?
  return { s.sign .name 1 with nameAllowed := !s.inBrackets }

/-- A colon: what it follows is a field name. -/
def value? (s : Cutting) : Option Cutting :=
  match s.candidate? with
  | some c =>
    let s := { s with tokens := s.tokens.insertIdxIfInBounds c.place .name }
    let s := (s.openBlock c.column c.place .blockRecord).setCandidate none
    some { s.sign .value 1 with nameAllowed := false }
  | none =>
    if !s.inBrackets && !s.nameAllowed then none
    else
      let s := s.openBlock s.cursor.column s.tokens.size .blockRecord
      some { s.sign .value 1 with nameAllowed := !s.inBrackets }

/-- A label that names a value, or stands for a value named before. -/
def label? (s : Cutting) (t : String → Token) : Option Cutting := do
  let s ← s.noteCandidate?
  let behind := s.cursor.next
  let label := behind.run isLabel
  let after := behind.skip label.length
  let ends := after.rest.head?.all fun c => isGap c || "?:,]\x7d%@\x60".toList.contains c
  if label.isEmpty || !ends then none
  return { s.emit (t (String.ofList label)) with cursor := after, nameAllowed := false }

/-- What kind of value follows. -/
def tag? (s : Cutting) : Option Cutting := do
  let s ← s.noteCandidate?
  let (t, after) ← s.cursor.readTag?
  if atGap after.rest || (s.inBrackets && after.rest.head? == some ',') then
    return { s.emit (.tag t) with cursor := after, nameAllowed := false }
  else none

/-! ## Scalars -/

def plain? (s : Cutting) (fuel : Nat) : Option Cutting := do
  let s ← s.noteCandidate?
  let (chars, after, broken) ← readPlain? s.inBrackets s.contentColumn fuel [] s.cursor
  return { s.emit (.scalar (String.ofList chars) .plain) with
    cursor := after, nameAllowed := broken }

def quoted? (s : Cutting) (quote : Char) (fuel : Nat) : Option Cutting := do
  let s ← s.noteCandidate?
  let (chars, after) ← readQuoted? quote fuel s.cursor.next
  return { s.emit (.scalar (String.ofList chars) .other) with
    cursor := after, nameAllowed := false }

def block? (s : Cutting) (folded : Bool) (fuel : Nat) : Option Cutting := do
  let s ← s.dropCandidate?
  let (chars, after) ← readBlock? folded s.contentColumn fuel s.cursor.next
  return { s.emit (.scalar (String.ofList chars) (if folded then .other else .literal)) with
    cursor := after, nameAllowed := true }

/-- A scalar without quotes may begin with these characters, or with one that has a meaning only
before a gap. -/
def beginsPlain (s : Cutting) (x : Char) (xs : List Char) : Bool :=
  !("-?:,[]\x7b\x7d#&*!|>'\"%@\x60\t".toList.contains x) ||
    (x == '-' && !(xs.head?.any isBlank)) ||
    (!s.inBrackets && (x == '?' || x == ':') && !atGap xs)

/-- The token that begins at the next character. -/
def cutOne? (s : Cutting) (fuel : Nat) (x : Char) (xs : List Char) : Option Cutting :=
  if x = '%' ∧ s.cursor.column = 0 then s.directive?
  else if s.cursor.atMark '-' then s.documentMark? .documentStart
  else if s.cursor.atMark '.' then s.documentMark? .documentEnd
  else
    let sole := atGap xs
    match x with
    | '[' => s.openBracket? .openList
    | '\x7b' => s.openBracket? .openRecord
    | ']' => s.closeBracket? .closeList
    | '\x7d' => s.closeBracket? .closeRecord
    | ',' => s.comma?
    | '*' => s.label? .alias
    | '&' => s.label? .anchor
    | '!' => s.tag?
    | '\'' | '"' => s.quoted? x fuel
    | _ =>
      if x = '-' ∧ sole then s.dash?
      else if x = '?' ∧ (s.inBrackets ∨ sole) then s.name?
      else if x = ':' ∧ (s.inBrackets ∨ sole) then s.value?
      else if (x = '|' ∨ x = '>') ∧ !s.inBrackets then s.block? (x == '>') fuel
      else if s.beginsPlain x xs then s.plain? fuel
      else none

/-! ## All tokens -/

/-- Go on to the next token, over blanks, comments and line ends. A tab is no indentation. -/
def skipGap (s : Cutting) : Nat → Cutting
  | 0 => s
  | fuel + 1 =>
    let skippable (c : Char) := c == ' ' || (c == '\t' && (s.inBrackets || !s.nameAllowed))
    let c := s.cursor.skipByteOrderMark.skipWhile skippable
    let c := if c.rest.head? == some '#' then c.skipWhile fun x => !isBreak x else c
    if c.rest.head?.any isBreak then
      { s with cursor := c.next, nameAllowed := s.nameAllowed || !s.inBrackets }.skipGap fuel
    else { s with cursor := c }

/-- Cut the rest of the text. Each token takes a character, so fuel that exceeds the length of the
text does so for what is left of it before every token. -/
def cutAll? (s : Cutting) : Nat → Option Cutting
  | 0 => none
  | fuel + 1 => do
    let s ← (s.skipGap (fuel + 1)).dropStale?
    match s.cursor.rest with
    | [] => (s.endBlocks fun _ => true).dropCandidate?
    | x :: xs =>
      let column := s.cursor.column
      let s := if s.inBrackets then s else s.endBlocks fun c => decide (column < c)
      (← s.cutOne? (fuel + 1) x xs).cutAll? fuel

end Cutting

/-- The tokens of a text. -/
def tokens? (s : String) : Option (List Token) := do
  let cursor ← Cursor.ofText? s
  let cut ← Cutting.cutAll? { cursor } (cursor.rest.length + 1)
  return cut.tokens.toList

end ClusterMaster.Document.Yaml
