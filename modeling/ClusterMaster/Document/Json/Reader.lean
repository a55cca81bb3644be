import ClusterMaster.Document.Basic

/-!
# Reading JSON

The reader is strict: no blanks but the four of the format, no leading zeros, no bare controls in
texts, and nothing but blanks after the document. A text with an unpaired surrogate is read as a
value that fits nothing, and so is a record with such a field name. Each part of the reader takes characters off the front and answers with
what it has read and what is left.
-/

namespace ClusterMaster.Document.Json

/-! ## Blanks and texts -/

def isBlank (c : Char) : Bool := c == ' ' || c == '\n' || c == '\t' || c == '\r'

def skipBlanks : List Char → List Char := List.dropWhile isBlank

/-- The value of a hexadecimal digit. -/
def hexValue? (c : Char) : Option Nat :=
  if '0' ≤ c ∧ c ≤ '9' then some (c.toNat - 48)
  else if 'a' ≤ c ∧ c ≤ 'f' then some (c.toNat - 87)
  else if 'A' ≤ c ∧ c ≤ 'F' then some (c.toNat - 55)
  else none

/-- The value of four hexadecimal digits. -/
def hexUnit? (a b c d : Char) : Option Nat := do
  return (((← hexValue? a) * 16 + (← hexValue? b)) * 16 + (← hexValue? c)) * 16 + (← hexValue? d)

/-- The character a letter after a backslash stands for. -/
def escaped? (c : Char) : Option Char :=
  match c with
  | '"' => some '"'
  | '\\' => some '\\'
  | '/' => some '/'
  | 'b' => some '\x08'
  | 'f' => some '\x0c'
  | 'n' => some '\n'
  | 'r' => some '\r'
  | 't' => some '\t'
  | _ => none

/-- The characters of a text up to its closing quote. -/
def readText : List Char → Option (List Char × List Char)
  | [] => none
  | '"' :: rest => some ([], rest)
  | '\\' :: 'u' :: a :: b :: c :: d :: rest =>
    match hexUnit? a b c d with
    | none => none
    | some n =>
      if 0xD800 ≤ n ∧ n < 0xDC00 then
        match rest with
        | '\\' :: 'u' :: e :: f :: g :: h :: rest =>
          match hexUnit? e f g h with
          | none => none
          | some m =>
            if 0xDC00 ≤ m ∧ m < 0xE000 then
              (readText rest).map fun r =>
                (Char.ofNat (0x10000 + (n - 0xD800) * 0x400 + (m - 0xDC00)) :: r.1, r.2)
            else none
        | _ => none
      else if 0xDC00 ≤ n ∧ n < 0xE000 then none
      else (readText rest).map fun r => (Char.ofNat n :: r.1, r.2)
  | '\\' :: c :: rest =>
    match escaped? c with
    | none => none
    | some x => (readText rest).map fun r => (x :: r.1, r.2)
  | c :: rest =>
    if c.toNat < 0x20 ∨ c = '\\' then none
    else (readText rest).map fun r => (c :: r.1, r.2)

/-- What follows the closing quote of a text, whether its surrogates pair or not. -/
def skipText? : List Char → Option (List Char)
  | [] => none
  | '"' :: rest => some rest
  | '\\' :: 'u' :: a :: b :: c :: d :: rest =>
    match hexUnit? a b c d with
    | none => none
    | some _ => skipText? rest
  | '\\' :: c :: rest =>
    match escaped? c with
    | none => none
    | some _ => skipText? rest
  | c :: rest => if c.toNat < 0x20 ∨ c = '\\' then none else skipText? rest

/-- A text behind its opening quote; there is none where surrogates do not pair. -/
def readQuoted (cs : List Char) : Option (Option String × List Char) :=
  match readText cs with
  | some (chars, rest) => some (some (String.ofList chars), rest)
  | none => (skipText? cs).map fun rest => (none, rest)

/-! ## Numbers -/

/-- The value of decimal digits. -/
def decimalValue (ds : List Char) : Nat := ds.foldl (fun n d => n * 10 + (d.toNat - 48)) 0

/-- The digits at the front, and what is left. -/
def spanDigits (cs : List Char) : List Char × List Char :=
  (cs.takeWhile Char.isDigit, cs.dropWhile Char.isDigit)

/-- At least one digit must follow. -/
def skipDigits? (cs : List Char) : Option (List Char) :=
  if (spanDigits cs).1.isEmpty then none else some (spanDigits cs).2

/-- Leave a fraction out, if one follows. -/
def skipFraction? : List Char → Option (List Char)
  | '.' :: rest => skipDigits? rest
  | rest => some rest

/-- Leave an exponent out, if one follows. -/
def skipExponent? : List Char → Option (List Char)
  | c :: rest =>
    if c = 'e' ∨ c = 'E' then
      match rest with
      | '+' :: rest | '-' :: rest => skipDigits? rest
      | rest => skipDigits? rest
    else some (c :: rest)
  | [] => some []

/-- A fraction or an exponent begins here. -/
def startsReal : List Char → Bool
  | c :: _ => c == '.' || c == 'e' || c == 'E'
  | [] => false

/-- A number without its sign. Negative zero is no integer. -/
def readNumber (negative : Bool) (cs : List Char) : Option (Document × List Char) :=
  let (digits, rest) := spanDigits cs
  match digits with
  | [] => none
  | '0' :: _ :: _ => none
  | digits =>
    ((skipFraction? rest).bind skipExponent?).map fun after =>
      let n := decimalValue digits
      let doc :=
        if startsReal rest ∨ (negative ∧ n = 0) then .foreign
        else if negative then .int (-(n : Int))
        else .int n
      (doc, after)

/-! ## Values -/

mutual

/-- One value; `fuel` bounds how many values and separators are read. -/
def readValue : Nat → List Char → Option (Document × List Char)
  | 0, _ => none
  | fuel + 1, cs =>
    match skipBlanks cs with
    | 'n' :: 'u' :: 'l' :: 'l' :: rest => some (.null, rest)
    | 't' :: 'r' :: 'u' :: 'e' :: rest => some (.bool true, rest)
    | 'f' :: 'a' :: 'l' :: 's' :: 'e' :: rest => some (.bool false, rest)
    | '"' :: rest => (readQuoted rest).map fun r => (r.1.elim .foreign .text, r.2)
    | '[' :: rest =>
      match skipBlanks rest with
      | ']' :: rest => some (.list [], rest)
      | rest => (readItems fuel rest).map fun r => (.list r.1, r.2)
    | '\x7b' :: rest =>
      match skipBlanks rest with
      | '\x7d' :: rest => some (.record [], rest)
      | rest => (readFields fuel rest).map fun r => (r.1.elim .foreign .record, r.2)
    | '-' :: rest => readNumber true rest
    | rest => readNumber false rest

/-- The items of a list, up to its closing bracket. -/
def readItems : Nat → List Char → Option (List Document × List Char)
  | 0, _ => none
  | fuel + 1, cs => do
    let (d, rest) ← readValue fuel cs
    match skipBlanks rest with
    | ']' :: rest => return ([d], rest)
    | ',' :: rest =>
      let (ds, rest) ← readItems fuel rest
      return (d :: ds, rest)
    | _ => none

/-- The fields of a record, up to its closing brace; there are none where a name is no text. -/
def readFields : Nat → List Char → Option (Option (List (String × Document)) × List Char)
  | 0, _ => none
  | fuel + 1, cs => do
    match skipBlanks cs with
    | '"' :: rest =>
      let (name, rest) ← readQuoted rest
      match skipBlanks rest with
      | ':' :: rest =>
        let (d, rest) ← readValue fuel rest
        let field := name.map fun name => (name, d)
        match skipBlanks rest with
        | '\x7d' :: rest => return (field.map fun f => [f], rest)
        | ',' :: rest =>
          let (fields, rest) ← readFields fuel rest
          return (field.bind fun f => fields.map (f :: ·), rest)
        | _ => none
      | _ => none
    | _ => none

end

/-- The document a JSON text holds. Every value and separator takes at least one character, so
the length of the text is fuel enough. -/
def parse? (s : String) : Option Document :=
  let cs := s.toList
  match readValue (cs.length + 1) cs with
  | some (d, rest) => if (skipBlanks rest).isEmpty then some d else none
  | none => none

end ClusterMaster.Document.Json
