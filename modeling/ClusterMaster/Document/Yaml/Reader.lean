import ClusterMaster.Document.Yaml.Token

/-!
# Reading YAML

`parse?` reads the one document of a text out of its tokens. Scalars keep how they are written and
their tag; a missing value is an empty scalar, and so is an empty text. A value with a label can be
repeated by an alias further on, which becomes a reference to it. References have numbers: a label
takes the number of labels that are known when it is given, so a new label has a number of its own,
and a label that is given again shares its number with the next new one. Of the values with one
number the one that begins last is meant, wherever the reference stands.
-/

namespace ClusterMaster.Document.Yaml

/-- A labelled value: which of the labels given so far it has, and its content once it is read. -/
structure Labelled where
  place : Nat
  content : Document := .scalar { text := "" }

/-- The tokens that are left, and what is known of handles and labels. -/
structure Feed where
  tokens : List Token
  handles : Handles := []
  /-- The known labels, each with the number it was given last. -/
  labels : List (String × Nat) := []
  /-- How many labels have been given. -/
  given : Nat := 0
  /-- By number the value that began last. -/
  labelled : Array Labelled := #[]

/-- What stands where a value is missing. -/
def missing : Document := .scalar { text := "" }

namespace Feed

/-- The feed behind some tokens. -/
def goOn (f : Feed) (tokens : List Token) : Feed := { f with tokens }

/-- Give a label to the value that begins here; answers with its number. -/
def label (f : Feed) (name : String) : Nat × Feed :=
  let number := f.labels.length
  let value : Labelled := { place := f.given }
  (number, { f with
    labels := (name, number) :: f.labels.filter fun l => l.1 != name
    given := f.given + 1
    labelled :=
      if number < f.labelled.size then f.labelled.setIfInBounds number value
      else f.labelled.push value })

/-- The value with a number and the place of its label has been read. Its content counts unless a
later value has taken the number. -/
def keep (f : Feed) (number place : Nat) (content : Document) : Feed :=
  { f with labelled := f.labelled.modify number fun l =>
      if l.place = place then { l with content } else l }

/-- A field of a block, or the block itself, ends here. -/
def atFieldEnd (f : Feed) : Bool :=
  match f.tokens with
  | .name :: _ | .value :: _ | .blockEnd :: _ => true
  | _ => false

/-- An item of a block, or the block itself, ends here. -/
def atItemEnd (f : Feed) : Bool :=
  match f.tokens with
  | .dash :: _ | .blockEnd :: _ => true
  | _ => false

/-- An item of what stands between brackets ends here; in a list it ends at another bracket than
in a record. -/
def atBracketEnd (f : Feed) (inList : Bool) : Bool :=
  match f.tokens with
  | .comma :: _ => true
  | .closeList :: _ => inList
  | .closeRecord :: _ => !inList
  | _ => false

/-- The name of a field between brackets is empty. -/
def atNameEnd (f : Feed) (inList : Bool) : Bool :=
  match f.tokens with
  | .value :: _ => true
  | _ => f.atBracketEnd inList

end Feed

/-! ## Values -/

mutual

/-- A value. Blocks are only read outside brackets; a list may stand as far left as the name of
the field it belongs to, and then has no tokens around it. -/
def readNode? (block besideName : Bool) : Nat → Feed → Option (Document × Feed)
  | 0, _ => none
  | fuel + 1, f => do
    let labelled (name : String) (tag? : Option Tag) (rest : List Token) :
        Option (Document × Feed) := do
      let tag ← match tag? with
        | some t => t.full? f.handles
        | none => some none
      let (number, g) := f.label name
      let (d, after) ← readContent? block besideName true tag fuel (g.goOn rest)
      return (d, after.keep number f.given d)
    match f.tokens with
    | .alias name :: rest =>
      let (_, number) ← f.labels.find? fun l => l.1 == name
      return (.reference number, f.goOn rest)
    | .anchor name :: .tag t :: rest | .tag t :: .anchor name :: rest => labelled name (some t) rest
    | .anchor name :: rest => labelled name none rest
    | .tag t :: rest => readContent? block besideName true (← t.full? f.handles) fuel (f.goOn rest)
    | _ => readContent? block besideName false none fuel f

/-- A value without its label and tag. Where one of them stands (`announced`), the value may be
missing. -/
def readContent? (block besideName announced : Bool) (tag : Option String) :
    Nat → Feed → Option (Document × Feed)
  | 0, _ => none
  | fuel + 1, f =>
    let absent : Option (Document × Feed) :=
      if announced then some (.scalar { text := "", tag }, f) else none
    match f.tokens with
    | .scalar chars style :: rest => some (.scalar { text := chars, style, tag }, f.goOn rest)
    | .openList :: rest => (readListed? true fuel (f.goOn rest)).map fun r => (.list r.1, r.2)
    | .openRecord :: rest =>
      (readPaired? true fuel (f.goOn rest)).map fun r => (.mapping r.1, r.2)
    | .blockList :: rest =>
      if block then (readItems? fuel (f.goOn rest)).map fun r => (.list r.1, r.2)
      else absent
    | .blockRecord :: rest =>
      if block then (readFields? fuel (f.goOn rest)).map fun r => (.mapping r.1, r.2)
      else absent
    | .dash :: _ =>
      if besideName then (readDashes? fuel f).map fun r => (.list r.1, r.2)
      else absent
    | _ => absent

/-- The items of a block. -/
def readItems? : Nat → Feed → Option (List Document × Feed)
  | 0, _ => none
  | fuel + 1, f => do
    match f.tokens with
    | .blockEnd :: rest => return ([], f.goOn rest)
    | .dash :: rest =>
      let f := f.goOn rest
      let (d, f) ← if f.atItemEnd then some (missing, f) else readNode? true false fuel f
      let (ds, f) ← readItems? fuel f
      return (d :: ds, f)
    | _ => none

/-- The items of a list beside the name of its field: it ends where no item follows. -/
def readDashes? : Nat → Feed → Option (List Document × Feed)
  | 0, _ => none
  | fuel + 1, f => do
    match f.tokens with
    | .dash :: rest =>
      let f := f.goOn rest
      let (d, f) ←
        if f.atItemEnd || f.atFieldEnd then some (missing, f) else readNode? true false fuel f
      let (ds, f) ← readDashes? fuel f
      return (d :: ds, f)
    | _ => return ([], f)

/-- The fields of a block. -/
def readFields? : Nat → Feed → Option (List (Document × Document) × Feed)
  | 0, _ => none
  | fuel + 1, f => do
    match f.tokens with
    | .blockEnd :: rest => return ([], f.goOn rest)
    | .name :: rest =>
      let f := f.goOn rest
      let (k, f) ← if f.atFieldEnd then some (missing, f) else readNode? true true fuel f
      let (d, f) ←
        match f.tokens with
        | .value :: rest =>
          let f := f.goOn rest
          if f.atFieldEnd then some (missing, f) else readNode? true true fuel f
        | _ => some (missing, f)
      let (fs, f) ← readFields? fuel f
      return ((k, d) :: fs, f)
    | _ => none

/-- A field between brackets, behind the token that announces its name. In a list, the token that
shows the name to be empty is left out. -/
def readPair? (inList : Bool) : Nat → Feed → Option ((Document × Document) × Feed)
  | 0, _ => none
  | fuel + 1, f => do
    let (k, f) ←
      if f.atNameEnd inList then some (missing, if inList then f.goOn f.tokens.tail else f)
      else readNode? false false fuel f
    match f.tokens with
    | .value :: rest =>
      let f := f.goOn rest
      let (d, f) ←
        if f.atBracketEnd inList then some (missing, f) else readNode? false false fuel f
      return ((k, d), f)
    | _ => return ((k, missing), f)

/-- The items of a list in brackets, up to the closing one; an item may be a single field. A
comma stands before every item but the first, and may stand behind the last. -/
def readListed? (first : Bool) : Nat → Feed → Option (List Document × Feed)
  | 0, _ => none
  | fuel + 1, f => do
    let item? (f : Feed) : Option (List Document × Feed) := do
      match f.tokens with
      | .closeList :: rest => return ([], f.goOn rest)
      | .name :: rest =>
        let (pair, f) ← readPair? true fuel (f.goOn rest)
        let (ds, f) ← readListed? false fuel f
        return (.mapping [pair] :: ds, f)
      | _ =>
        let (d, f) ← readNode? false false fuel f
        let (ds, f) ← readListed? false fuel f
        return (d :: ds, f)
    match f.tokens with
    | .closeList :: rest => return ([], f.goOn rest)
    | .comma :: rest => if first then none else item? (f.goOn rest)
    | _ => if first then item? f else none

/-- The fields of a record in brackets, up to the closing one. A name alone has no value. -/
def readPaired? (first : Bool) : Nat → Feed → Option (List (Document × Document) × Feed)
  | 0, _ => none
  | fuel + 1, f => do
    let field? (f : Feed) : Option (List (Document × Document) × Feed) := do
      match f.tokens with
      | .closeRecord :: rest => return ([], f.goOn rest)
      | .name :: rest =>
        let (pair, f) ← readPair? false fuel (f.goOn rest)
        let (fs, f) ← readPaired? false fuel f
        return (pair :: fs, f)
      | _ =>
        let (k, f) ← readNode? false false fuel f
        let (fs, f) ← readPaired? false fuel f
        return ((k, missing) :: fs, f)
    match f.tokens with
    | .closeRecord :: rest => return ([], f.goOn rest)
    | .comma :: rest => if first then none else field? (f.goOn rest)
    | _ => if first then field? f else none

end

/-! ## The document of a text -/

/-- The lines before a document, up to its beginning: at most one version, and no handle twice. -/
def readDirectives? (versioned : Bool) (handles : Handles) :
    List Token → Option (Handles × List Token)
  | .version :: rest => if versioned then none else readDirectives? true handles rest
  | .handle name octets :: rest =>
    if handles.any fun h => h.1 == name then none
    else readDirectives? versioned ((name, octets) :: handles) rest
  | .documentStart :: rest => some (handles, rest)
  | _ => none

/-- The document that begins with these tokens, and the feed behind it. Without a mark in front,
a document begins with a value. -/
def readDocument? (tokens : List Token) : Option (Document × Feed) :=
  let fuel := 4 * tokens.length + 4
  match tokens with
  | [] => some (missing, { tokens })
  | .version :: _ | .handle .. :: _ | .documentStart :: _ => do
    let (handles, rest) ← readDirectives? false [] tokens
    match rest with
    | [] | .version :: _ | .handle .. :: _ | .documentStart :: _ | .documentEnd :: _ =>
      return (missing, { tokens := rest })
    | _ => readNode? true false fuel { tokens := rest, handles }
  | _ => readNode? true false fuel { tokens }

/-! ## References -/

mutual

/-- How much is written in a document: one for what has no parts, two for the ends of a list or a
mapping. -/
def weight : Document → Nat
  | .list items => 2 + weightOfItems items
  | .mapping fields => 2 + weightOfFields fields
  | _ => 1

def weightOfItems : List Document → Nat
  | [] => 0
  | d :: ds => weight d + weightOfItems ds

def weightOfFields : List (Document × Document) → Nat
  | [] => 0
  | (k, d) :: fs => weight k + weight d + weightOfFields fs

end

/-- How often references may be followed for each part of a document. -/
def followsPerPart : Nat := 100

/-- The document of a YAML text and its references; a text with several documents has none. -/
def parse? (s : String) : Option (Document × References) := do
  let (d, f) ← readDocument? (← tokens? s)
  let isEnd : Token → Bool
    | .documentEnd => true
    | _ => false
  if (f.tokens.dropWhile isEnd).isEmpty then
    return (d, {
      referents := f.labelled.map Labelled.content
      allowance := followsPerPart * weight d })
  else none

end ClusterMaster.Document.Yaml
