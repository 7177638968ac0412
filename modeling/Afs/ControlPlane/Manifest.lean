import Mathlib.Data.List.AList
import Mathlib.Data.List.Sort
import Afs.Foundations.Base64
import Afs.Foundations.JsonString
import Afs.Workspace.Content

/-!
# Manifests

A checkpoint is a manifest: a map from the paths of a tree to what was there. Small files are kept
in the entry itself, in Base64; larger ones as blobs named by their SHA-256. Manifests are stored as
JSON, and a string that is not valid UTF-8 does not come back from there as it was.

Paths are strings here, as in the source; `pathString` writes the components of a path out.
-/

namespace Afs.ControlPlane

open History

/-- A checkpoint's name. -/
abbrev CheckpointId := Bytes

/-- The bytes of an ASCII text. -/
def ascii (text : List Char) : Bytes := text.map fun c => .ofNat c.toNat

/-! ## Path strings -/

/-- A path as the string it is. -/
def pathString (p : Path) : Bytes := if p = [] then [slash] else p.flatMap (slash :: ·)

/-- The path of a directory's entry. -/
def childPath (dir : Bytes) (name : Name) : Bytes :=
  if dir = [slash] then slash :: name else dir ++ slash :: name

/-- `strings.Trim(p, "/")`. -/
def trimSlashes (p : Bytes) : Bytes :=
  ((p.dropWhile (· = slash)).reverse.dropWhile (· = slash)).reverse

/-- `mountedArtifactNames`. -/
def mountedArtifactNames : List Name :=
  [ascii ['.', 'D', 'S', '_', 'S', 't', 'o', 'r', 'e'],
   ascii ['.', 'S', 'p', 'o', 't', 'l', 'i', 'g', 'h', 't', '-', 'V', '1', '0', '0'],
   ascii ['.', 'T', 'e', 'm', 'p', 'o', 'r', 'a', 'r', 'y', 'I', 't', 'e', 'm', 's'],
   ascii ['.', 'T', 'r', 'a', 's', 'h', 'e', 's'],
   ascii ['.', 'f', 's', 'e', 'v', 'e', 'n', 't', 's', 'd'],
   ascii ['.', 'n', 'f', 's', '-', 'c', 'h', 'e', 'c', 'k']]

/-- A component that hides what is below it: `._…`, or an artifact of the operating system. -/
def ignoredName (n : Name) : Bool := (ascii ['.', '_']).isPrefixOf n || mountedArtifactNames.contains n

/-- `shouldIgnoreMountPath`. -/
def shouldIgnoreMountPath (p : Bytes) : Bool :=
  if p = [] ∨ p = [slash] ∨ trimSlashes p = [] then false
  else (splitSlash (trimSlashes p)).any ignoredName

/-! ## Entries -/

/-- `ManifestEntry`. -/
structure ManifestEntry where
  type : Kind
  mode : ℕ
  mtimeMs : ℤ := 0
  size : ℤ := 0
  blobId : Hash := .empty
  /-- The bytes of a small file in Base64. -/
  inline : Bytes := []
  target : Bytes := []
  deriving DecidableEq, Repr

/-- `inlineThreshold`. -/
def inlineThreshold : ℕ := 4 * 1024

/-- `manifestEntryModeForWorkspaceFS`: no permissions at all count as none given. -/
def modeForWorkspaceFS (e : ManifestEntry) : ℕ :=
  if e.mode = 0 then
    match e.type with
    | .dir => 0o755
    | .symlink => 0o777
    | .file => 0o644
  else e.mode

/-- `manifestEntryEquivalent`: times only count for files. -/
def manifestEntryEquivalent (a b : ManifestEntry) : Bool :=
  a.type = b.type ∧ a.mode = b.mode ∧ a.size = b.size ∧ a.blobId = b.blobId ∧ a.inline = b.inline ∧
    a.target = b.target ∧ (a.type = .file → a.mtimeMs = b.mtimeMs)

/-- An entry written as JSON and read back. -/
def ManifestEntry.viaJson (e : ManifestEntry) : ManifestEntry :=
  { e with inline := Json.viaJson e.inline, target := Json.viaJson e.target }

/-! ## Manifests -/

/-- The entries of a manifest by path. -/
abbrev Entries := AList fun _ : Bytes => ManifestEntry

/-- `Manifest`. -/
structure Manifest where
  savepoint : CheckpointId := []
  entries : Entries := ∅
  deriving DecidableEq

/-- `manifestEquivalent`. -/
def manifestEquivalent (a b : Manifest) : Bool :=
  a.entries.entries.length = b.entries.entries.length ∧
    a.entries.entries.all fun e =>
      (b.entries.lookup e.1).any fun right => manifestEntryEquivalent e.2 right

/-- `manifestBlobRefs`: the blobs a manifest uses, with their sizes. -/
def manifestBlobRefs (m : Manifest) : AList fun _ : Hash => ℤ :=
  m.entries.entries.foldl
    (fun refs e => if e.2.blobId = .empty then refs else refs.insert e.2.blobId e.2.size) ∅

/-- A manifest written as JSON and read back: the keys are written in their order, and of two that
have become the same the later one stays. -/
def Manifest.viaJson (m : Manifest) : Manifest where
  savepoint := Json.viaJson m.savepoint
  entries := (m.entries.entries.insertionSort fun a b => a.1 ≤ b.1).foldl
    (fun es e => es.insert (Json.viaJson e.1) e.2.viaJson) ∅

/-! ## Metadata -/

/-- `WorkspaceMeta`. -/
structure WorkspaceMeta where
  headSavepoint : CheckpointId
  defaultSavepoint : CheckpointId
  dirtyHint : Bool := false
  updatedAt : ℤ := 0
  lastMaterializedAt : ℤ := 0
  deriving DecidableEq, Repr

/-- `SavepointMeta`. -/
structure SavepointMeta where
  id : CheckpointId
  name : CheckpointId
  parentSavepoint : CheckpointId := []
  createdAt : ℤ := 0
  deriving DecidableEq, Repr

/-- `blobRef`. -/
structure BlobRef where
  size : ℤ
  refCount : ℤ
  deriving DecidableEq, Repr

/-- The first character of a name. -/
def isNameStart (b : UInt8) : Bool :=
  (65 ≤ b && b ≤ 90) || (97 ≤ b && b ≤ 122) || (48 ≤ b && b ≤ 57)

/-- `namePattern`: `^[A-Za-z0-9][A-Za-z0-9._-]*$`. -/
def isName : Bytes → Bool
  | [] => false
  | b :: bs => isNameStart b && bs.all fun b => isNameStart b || b == 46 || b == 95 || b == 45

/-- `initialCheckpointName`. -/
def initialCheckpointName : CheckpointId := ascii ['i', 'n', 'i', 't', 'i', 'a', 'l']

end Afs.ControlPlane
