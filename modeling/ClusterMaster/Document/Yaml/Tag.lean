import ClusterMaster.Document.Yaml.Scalar

/-!
# The tags of YAML

A tag says of what kind a value is. It is written in full between angle brackets, or as a handle
that stands for the beginning of an address and the rest of that address. Characters of an address
may be written as octets in hexadecimal, and those come in groups as long as the octets of one
character (`readAddress?`).
-/

namespace ClusterMaster.Document.Yaml

/-! ## Addresses -/

/-- The characters of labels and handles. -/
def isLabel (c : Char) : Bool := c.isAlphanum || c == '_' || c == '-'

/-- The characters of addresses. Three more may stand where an address cannot be part of a list or
record in brackets. -/
def isAddress (apart : Bool) (c : Char) : Bool :=
  isLabel c || ";/?:@&=+$.!~*'()".toList.contains c || (apart && ",[]".toList.contains c)

/-- How many octets follow the first octet of a character. -/
def octetsBehind? (octet : Nat) : Option Nat :=
  if octet < 0x80 then some 0
  else if 0xC0 ≤ octet ∧ octet < 0xE0 then some 1
  else if 0xE0 ≤ octet ∧ octet < 0xF0 then some 2
  else if 0xF0 ≤ octet ∧ octet < 0xF8 then some 3
  else none

/-- The octets of the address at the front, and how many characters it takes. Of the character
before, `owed` octets are still to come. -/
def readAddress? (apart : Bool) (owed : Nat) : List Char → Option (List UInt8 × Nat)
  | [] => if owed = 0 then some ([], 0) else none
  | '%' :: a :: b :: rest => do
    let octet ← hexValue? [a, b]
    let owed ←
      if owed = 0 then octetsBehind? octet
      else if 0x80 ≤ octet ∧ octet < 0xC0 then some (owed - 1)
      else none
    let (octets, length) ← readAddress? apart owed rest
    return (UInt8.ofNat octet :: octets, 3 + length)
  | x :: rest =>
    if owed ≠ 0 ∨ x = '%' then none
    else if isAddress apart x then
      (readAddress? apart 0 rest).map fun r => (UInt8.ofNat x.toNat :: r.1, 1 + r.2)
    else some ([], 0)

/-- Read an address up to where it ends; its octets count up to the first that is zero. -/
def Cursor.readAddress? (c : Cursor) (apart : Bool) : Option (List UInt8 × Cursor) :=
  (Yaml.readAddress? apart 0 c.rest).map fun r => (r.1.takeWhile (· != 0), c.skip r.2)

/-! ## Handles -/

/-- The handle at the front: two exclamation marks with a word between them, which may be empty,
or else a single mark. -/
def handleAt : List Char → List Char
  | '!' :: rest =>
    let word := rest.takeWhile isLabel
    if (rest.drop word.length).head? = some '!' then '!' :: word ++ ['!'] else ['!']
  | _ => []

/-- The handles of a text and the octets they stand for. -/
abbrev Handles := List (String × List UInt8)

/-- The handles that have a meaning unless a text gives them another. The empty handle is that of
a tag in full. -/
def standardHandles : Handles :=
  [("", []), ("!", "!".toUTF8.data.toList), ("!!", "tag:yaml.org,2002:".toUTF8.data.toList)]

/-- A handle and the address it stands for, written with blanks around the handle. -/
def Cursor.readHandle? (c : Cursor) : Option ((String × List UInt8) × Cursor) := do
  let start := c.skipWhile isBlank
  let handle := handleAt start.rest
  let gap := start.skip handle.length
  let address := gap.skipWhile isBlank
  let (octets, after) ← address.readAddress? true
  if handle.isEmpty || address.offset == gap.offset || after.offset == address.offset ||
      !atGap after.rest then none
  return ((String.ofList handle, octets), after)

/-! ## Tags -/

/-- A tag as it is written: its handle and what follows the handle. -/
structure Tag where
  handle : String
  octets : List UInt8

/-- The tag at an exclamation mark, and where it ends. The mark alone is a tag in full. -/
def Cursor.readTag? (c : Cursor) : Option (Tag × Cursor) := do
  if c.next.rest.head? = some '<' then
    let start := c.skip 2
    let (octets, after) ← start.readAddress? true
    if after.offset = start.offset ∨ after.rest.head? ≠ some '>' then none
    return (⟨"", octets⟩, after.next)
  else
    let handle := handleAt c.rest
    let start := c.skip handle.length
    let (octets, after) ← start.readAddress? false
    if handle = ['!'] then
      return (if octets.isEmpty then ⟨"", "!".toUTF8.data.toList⟩ else ⟨"!", octets⟩, after)
    else if after.offset = start.offset then none
    else return (⟨String.ofList handle, octets⟩, after)

/-- The tag in full; nothing for a handle that is not known. A tag that is no text counts as none
at all. -/
def Tag.full? (t : Tag) (handles : Handles) : Option (Option String) :=
  ((handles ++ standardHandles).find? fun h => h.1 == t.handle).map fun h =>
    String.fromUTF8? (ByteArray.mk (h.2 ++ t.octets).toArray)

end ClusterMaster.Document.Yaml
