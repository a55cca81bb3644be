import ClusterMaster.Document.Basic
import ClusterMaster.Table

/-!
# Reading values out of documents

A `Decoder` says what is expected at some place of a document. It either yields a value or fails;
a failure has no further reason. Fields that are not asked for are ignored, a field that is asked
for must not occur twice, and a field may only be missing where a value is given for that case.
References are followed where a value is asked for, and only as often as a document allows.
-/

namespace ClusterMaster

/-- Reads a value out of a document written in some dialect, and counts the references that are
followed on the way. -/
abbrev Decoder (α : Type) := Dialect → Document → StateT References Option α

/-! ## Scalars written without quotes -/

/-- Digits of a base as a number; at least one, and no others. -/
def numeralValue? (base : Nat) (digit : Char → Option Nat) (cs : List Char) : Option Nat :=
  if cs.isEmpty then none
  else
    cs.foldlM (fun n c =>
      (digit c).bind fun d => if d < base then some (n * base + d) else none) 0

/-- The value of a digit in bases up to sixteen. -/
def digitValue? (c : Char) : Option Nat :=
  if '0' ≤ c ∧ c ≤ '9' then some (c.toNat - 48)
  else if 'a' ≤ c ∧ c ≤ 'f' then some (c.toNat - 87)
  else if 'A' ≤ c ∧ c ≤ 'F' then some (c.toNat - 55)
  else none

/-- A natural number without quotes: decimal, or with the base marks `0x`, `0o` and `0b`; a plus
sign may stand before it. Decimal digits after a leading zero make a text, not a number. -/
def plainNat? (s : String) : Option Nat :=
  let unsigned :=
    match s.toList with
    | '+' :: rest => rest
    | cs => cs
  match unsigned with
  | '0' :: 'x' :: rest => numeralValue? 16 digitValue? rest
  | '0' :: 'o' :: rest => numeralValue? 8 digitValue? rest
  | '0' :: 'b' :: rest => numeralValue? 2 digitValue? rest
  | '0' :: _ :: _ => none
  | rest => numeralValue? 10 digitValue? rest

/-- An integer without quotes. -/
def plainInt? (s : String) : Option Int :=
  match s.toList with
  | '-' :: '+' :: _ => none
  | '-' :: rest => (plainNat? (String.ofList rest)).map fun n => -(n : Int)
  | _ => (plainNat? s).map Int.ofNat

def plainBool? (s : String) : Option Bool :=
  if s = "true" ∨ s = "True" ∨ s = "TRUE" then some true
  else if s = "false" ∨ s = "False" ∨ s = "FALSE" then some false
  else none

/-- The tag of integers. -/
def intTag : String := "tag:yaml.org,2002:int"

/-- The tag of truth values. -/
def boolTag : String := "tag:yaml.org,2002:bool"

/-! ## Scalars and collections -/

namespace Decoder

/-- A value, if there is one. -/
def ofOption {α : Type} (a : Option α) : StateT References Option α := StateT.lift a

def text : Decoder String := fun _ d => do
  match ← d.follow with
  | .text s => return s
  | .scalar s => return s.text
  | _ => failure

def bool : Decoder Bool := fun _ d => do
  match ← d.follow with
  | .bool b => return b
  | .scalar s => if s.canMean boolTag then ofOption (plainBool? s.text) else failure
  | _ => failure

def int : Decoder Int := fun _ d => do
  match ← d.follow with
  | .int n => return n
  | .scalar s => if s.canMean intTag then ofOption (plainInt? s.text) else failure
  | _ => failure

/-- A natural number below a bound. Without quotes it has no minus sign, not even before zero. -/
def natBelow (bound : Nat) : Decoder Nat := fun _ d => do
  match ← d.follow with
  | .int (.ofNat n) => if n < bound then return n else failure
  | .scalar s =>
    let n ← if s.canMean intTag then ofOption (plainNat? s.text) else failure
    if n < bound then return n else failure
  | _ => failure

def uint16 : Decoder UInt16 := fun l d => return UInt16.ofNat (← natBelow UInt16.size l d)

def uint32 : Decoder UInt32 := fun l d => return UInt32.ofNat (← natBelow UInt32.size l d)

def uint64 : Decoder UInt64 := fun l d => return UInt64.ofNat (← natBelow UInt64.size l d)

/-- An integer that fits 64 bits. -/
def int64 : Decoder Int := fun l d => do
  match ← int l d with
  | .ofNat n => if n < UInt64.size / 2 then return .ofNat n else failure
  | .negSucc n => if n < UInt64.size / 2 then return .negSucc n else failure

/-- Nothing, or a value. -/
def option {α : Type} (dec : Decoder α) : Decoder (Option α) := fun l d => do
  match ← d.follow with
  | .null => return none
  | .scalar s => if s.isNothing then return none else return some (← dec l (.scalar s))
  | d => return some (← dec l d)

/-- A list; an empty scalar is the empty list. -/
def list {α : Type} (dec : Decoder α) : Decoder (List α) := fun l d => do
  match ← d.follow with
  | .list ds => ds.mapM (dec l)
  | .scalar s => if s.isEmpty then return [] else failure
  | _ => failure

/-- A set of names, written as a list in any order. -/
def nameSet : Decoder NameSet := fun l d => return KeySet.ofList (← list text l d)

/-- The fields of a record with their names; an empty scalar has none. -/
def fields : Decoder (List (String × Document)) := fun l d => do
  match ← d.follow with
  | .record fs => return fs
  | .mapping fs => fs.mapM fun f => return (← text l f.1, f.2)
  | .scalar s => if s.isEmpty then return [] else failure
  | _ => failure

/-- A map from names, written as a record; of a name that occurs twice the last value counts. -/
def table {α : Type} (dec : Decoder α) : Decoder (Table String α) := fun l d => do
  let fs ← fields l d
  return Table.ofList (← fs.mapM fun f => return (f.1, ← dec l f.2))

/-- One of a few names. A tag of one's own is a name too, and then nothing else is written. -/
def name {α : Type} (names : List (String × α)) : Decoder α := fun l d => do
  let find (s : String) := ofOption ((names.find? fun e => e.1 == s).map Prod.snd)
  match ← d.follow with
  | .text s => find s
  | .scalar s =>
    match s.ownTag? with
    | some tag => if s.isNothing then find tag else failure
    | none => find s.text
  | .record [(s, .null)] => if l.recordsAsNames then find s else failure
  | _ => failure

/-- Read a whole document. -/
def run? {α : Type} (dec : Decoder α) (l : Dialect) (d : Document) (refs : References := {}) :
    Option α :=
  (dec l d).run' refs

end Decoder

/-! ## Records -/

/-- The fields of a record that are asked for, in the order they are declared in. -/
structure Fields where
  dialect : Dialect
  found : List (String × Document)

namespace Fields

/-- No two fields of one name among those that are asked for. -/
def distinct (names : List String) (fs : List (String × Document)) : Bool :=
  names.all fun n => (fs.filter fun f => f.1 == n).length ≤ 1

/-- The fields of a record with these names. -/
def of (names : List String) (l : Dialect) (d : Document) : StateT References Option Fields := do
  match ← d.follow with
  | .list ds =>
    if l.listsAsRecords && decide (ds.length ≤ names.length) then return ⟨l, names.zip ds⟩
    else failure
  | d =>
    let fs ← Decoder.fields l d
    if distinct names fs then return ⟨l, fs⟩ else failure

def get? (fs : Fields) (name : String) : Option Document :=
  (fs.found.find? fun f => f.1 == name).map Prod.snd

/-- A field that must be there. -/
def required {α : Type} (fs : Fields) (name : String) (dec : Decoder α) :
    StateT References Option α :=
  match fs.get? name with
  | some d => dec fs.dialect d
  | none => failure

/-- A field that may be missing. -/
def optional {α : Type} (fs : Fields) (name : String) (dec : Decoder α) (default : α) :
    StateT References Option α :=
  match fs.get? name with
  | some d => dec fs.dialect d
  | none => pure default

end Fields

/-! ## Writing values -/

namespace Document

def ofNat (n : Nat) : Document := .int n

def ofNames (ns : List String) : Document := .list (ns.map .text)

def ofSet (s : NameSet) : Document := ofNames s.toList

/-- A map from names as a record. -/
def ofTable {α : Type} (enc : α → Document) (t : Table String α) : Document :=
  .record (t.entries.map fun e => (e.1, enc e.2))

def ofOption {α : Type} (enc : α → Document) : Option α → Document
  | some a => enc a
  | none => .null

end Document

end ClusterMaster
