import ClusterMaster.Document.Basic

/-!
# Writing JSON

Documents are written without blanks. In a text only the quote, the backslash and the controls
are escaped, by a letter where there is one and else by number; every other character stands for
itself. What JSON has no form for is written as `null`.
-/

namespace ClusterMaster.Document.Json

/-- A hexadecimal digit. -/
def hexDigit (n : Nat) : Char := if n < 10 then Char.ofNat (48 + n) else Char.ofNat (87 + n)

/-- How one character of a text is written. -/
def escape (c : Char) : List Char :=
  if c = '"' then ['\\', '"']
  else if c = '\\' then ['\\', '\\']
  else if c = '\n' then ['\\', 'n']
  else if c = '\r' then ['\\', 'r']
  else if c = '\t' then ['\\', 't']
  else if c = '\x08' then ['\\', 'b']
  else if c = '\x0c' then ['\\', 'f']
  else if c.toNat < 0x20 then
    ['\\', 'u', '0', '0', hexDigit (c.toNat / 16), hexDigit (c.toNat % 16)]
  else [c]

/-- A text in quotes. -/
def writeText (s : String) : List Char := '"' :: s.toList.flatMap escape ++ ['"']

mutual

/-- A document as JSON. -/
def write : Document → List Char
  | .null | .foreign | .mapping _ | .reference _ => "null".toList
  | .bool true => "true".toList
  | .bool false => "false".toList
  | .int n => (toString n).toList
  | .text s => writeText s
  | .scalar s => writeText s.text
  | .list items => '[' :: writeItems items
  | .record fields => '\x7b' :: writeFields fields

/-- The items of a list and its closing bracket. -/
def writeItems : List Document → List Char
  | [] => [']']
  | [d] => write d ++ [']']
  | d :: ds => write d ++ ',' :: writeItems ds

/-- The fields of a record and its closing brace. -/
def writeFields : List (String × Document) → List Char
  | [] => ['\x7d']
  | [(k, d)] => writeText k ++ ':' :: write d ++ ['\x7d']
  | (k, d) :: fs => writeText k ++ ':' :: write d ++ ',' :: writeFields fs

end

/-- A document as a JSON text. -/
def render (d : Document) : String := String.ofList (write d)

end ClusterMaster.Document.Json
