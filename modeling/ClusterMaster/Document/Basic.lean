/-!
# Documents

A `Document` is what a text in a data format says, before anything is expected of it. JSON says of
each value what it is. In YAML the meaning of a scalar is decided by what is expected at its place,
the names of fields are values themselves, and a value may be repeated by a reference to it.
-/

namespace ClusterMaster

/-! ## Scalars of YAML -/

/-- How a scalar is written. -/
inductive ScalarStyle where
  /-- Without quotes. -/
  | plain
  /-- As a block of lines that are kept apart. -/
  | literal
  /-- In quotes, or as a block of lines that are joined. -/
  | other
  deriving DecidableEq, Repr

/-- A text together with how it is written. -/
structure Scalar where
  text : String
  style : ScalarStyle := .plain
  /-- The full tag; none also for a tag that is no text. -/
  tag : Option String := none
  deriving DecidableEq, Repr

namespace Scalar

/-- Nothing is written. -/
def isEmpty (s : Scalar) : Bool := s.style == .plain && s.text == ""

/-- Nothing is written, or a word for nothing stands without quotes. -/
def isNothing (s : Scalar) : Bool :=
  s.style == .plain && ["", "~", "null", "Null", "NULL"].contains s.text

/-- The scalar can mean a value of the kind with this tag: it stands without quotes, or is a block
of lines that has just this tag. -/
def canMean (s : Scalar) (tag : String) : Bool :=
  match s.style with
  | .plain => true
  | .literal => s.tag == some tag
  | .other => false

/-- What follows the exclamation mark of a tag that begins with one. -/
def ownTag? (s : Scalar) : Option String :=
  match s.tag.map String.toList with
  | some ('!' :: name) => some (String.ofList name)
  | _ => none

end Scalar

/-! ## Documents -/

/-- The content of a document. -/
inductive Document where
  | null
  | bool (b : Bool)
  | int (n : Int)
  /-- A value that nothing here reads: a number that is not written as an integer, or a text or a
  field name with an unpaired surrogate. -/
  | foreign
  | text (s : String)
  /-- A scalar whose meaning depends on what is expected. -/
  | scalar (s : Scalar)
  | list (items : List Document)
  /-- Fields in the order they are written; a name may occur twice. -/
  | record (fields : List (String × Document))
  /-- Fields whose names need not be texts. -/
  | mapping (fields : List (Document × Document))
  /-- A value that is written at another place, by its number. -/
  | reference (number : Nat)
  deriving Inhabited

/-- What a data format allows beyond the shapes that are expected. -/
structure Dialect where
  /-- A record may be written as the list of its fields. -/
  listsAsRecords : Bool
  /-- A name may be written as a record with that one name, holding nothing. -/
  recordsAsNames : Bool
  deriving DecidableEq, Repr

namespace Dialect

def json : Dialect := { listsAsRecords := true, recordsAsNames := true }

def yaml : Dialect := { listsAsRecords := false, recordsAsNames := false }

end Dialect

/-! ## References -/

/-- The references of a document: what they stand for, and how many may still be followed. -/
structure References where
  referents : Array Document := #[]
  allowance : Nat := 0

/-- What a document stands for: a reference is followed, any other document is itself. -/
def Document.follow (d : Document) : StateT References Option Document :=
  match d with
  | .reference number => fun r =>
    match r.allowance, r.referents[number]? with
    | left + 1, some d => some (d, { r with allowance := left })
    | _, _ => none
  | d => pure d

end ClusterMaster
