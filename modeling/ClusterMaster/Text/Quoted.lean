import ClusterMaster.Text.Unprintable

/-!
# Quoted texts in messages

A message names a set of topics as a list of quoted texts in braces. Inside the quotes a quote
and a backslash follow a backslash, the four common controls have a letter of their own, and
every other character that does not print is written by its number in hexadecimal.
-/

namespace ClusterMaster.Text

/-- The characters of a number in lower-case hexadecimal. -/
def hexDigits (n : Nat) : List Char := Nat.toDigits 16 n

/-- How one character is written between quotes. -/
def quoteChar (c : Char) : List Char :=
  if c = '\x00' then ['\\', '0']
  else if c = '\t' then ['\\', 't']
  else if c = '\r' then ['\\', 'r']
  else if c = '\n' then ['\\', 'n']
  else if c = '"' then ['\\', '"']
  else if c = '\\' then ['\\', '\\']
  else if isUnprintable c then ['\\', 'u', '\x7b'] ++ hexDigits c.toNat ++ ['\x7d']
  else [c]

/-- A text in quotes. -/
def quoted (s : String) : String :=
  String.ofList ('"' :: s.toList.flatMap quoteChar ++ ['"'])

/-- Quoted texts in braces, with commas between them. -/
def quotedSet (ss : List String) : String :=
  "\x7b" ++ String.intercalate ", " (ss.map quoted) ++ "\x7d"

end ClusterMaster.Text
