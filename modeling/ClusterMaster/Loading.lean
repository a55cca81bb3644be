import ClusterMaster.Codec.Cluster
import ClusterMaster.Document.Json.Reader
import ClusterMaster.Document.Yaml.Reader

/-!
# Settings and manifests in files

The extension of a file's name tells how its content is written: JSON, YAML, or either of them, of
which JSON is tried first. Settings must also be valid; a manifest is checked when a store is made
of it.
-/

namespace ClusterMaster

/-- A file as it is found: nothing, or some bytes. -/
structure ConfigFile where
  name : String
  content : Option ByteArray

namespace ConfigFile

/-! ## Formats -/

/-- How a file is written. -/
inductive Format where
  | json
  | yaml
  | either
  deriving DecidableEq

/-- What follows the last dot of a file name; a dot at the beginning does not count. -/
def extension (name : String) : String :=
  let reversed := (name.toList.reverse.takeWhile (· != '/'))
  let tail := reversed.takeWhile (· != '.')
  if tail.length + 1 < reversed.length then String.ofList tail.reverse else ""

def format (f : ConfigFile) : Format :=
  let e := (extension f.name).toLower
  if e = "json" then .json
  else if e = "yaml" ∨ e = "yml" then .yaml
  else .either

/-! ## Reading -/

/-- The text of a file, for some purpose. -/
def text (f : ConfigFile) (what : String) : Except Fault String :=
  let context := what ++ " loading"
  match f.content with
  | none => .error (.configIo context "No such file or directory (os error 2)")
  | some bytes =>
    match String.fromUTF8? bytes with
    | some s => .ok s
    | none => .error (.configIo context "stream did not contain valid UTF-8")

def fromJson? {α : Type} (dec : Decoder α) (s : String) : Option α :=
  (Document.Json.parse? s).bind fun d => Decoder.run? dec .json d

def fromYaml? {α : Type} (dec : Decoder α) (s : String) : Option α :=
  (Document.Yaml.parse? s).bind fun r => Decoder.run? dec .yaml r.1 r.2

/-- Read a value out of a text in some format. -/
def decode {α : Type} (format : Format) (what : String) (dec : Decoder α) (s : String) :
    Except Fault α :=
  let orInvalid (context : String) : Option α → Except Fault α
    | some a => .ok a
    | none => .error (.invalidConfig context "not the expected document")
  match format with
  | .json => orInvalid s!"JSON {what} parsing" (fromJson? dec s)
  | .yaml => orInvalid s!"YAML {what} parsing" (fromYaml? dec s)
  | .either =>
    orInvalid s!"{what} parsing (tried both JSON and YAML)" (fromJson? dec s <|> fromYaml? dec s)

/-- Read a value out of a file. -/
def read {α : Type} (f : ConfigFile) (what : String) (dec : Decoder α) : Except Fault α :=
  match f.text what with
  | .error e => .error e
  | .ok s => decode f.format what dec s

/-- The settings in a file, which must be valid. -/
def settings (f : ConfigFile) : Except Fault Settings := do
  let s ← f.read "config" Settings.ofDocument?
  s.validate
  return s

/-- The manifest in a file. -/
def manifest (f : ConfigFile) : Except Fault Manifest := f.read "manifest" Manifest.ofDocument?

end ConfigFile

end ClusterMaster
