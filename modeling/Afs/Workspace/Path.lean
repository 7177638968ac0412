import Mathlib.Algebra.Order.Ring.Int
import Mathlib.Data.List.Basic
import Mathlib.Data.List.Infix
import Afs.Foundations.Guards

/-!
# Paths

A Go string is a list of bytes. `normalizePath` is `path.Clean` on a rooted path, so its result
is determined by its components and is kept as the list of them: `[]` is `/`. The client only
ever joins, splits and compares normalized paths, and a component holds no slash, so comparing
the lists is comparing the strings.
-/

namespace Afs

/-- A Go byte string. -/
abbrev Bytes := List UInt8

/-- One path component. -/
abbrev Name := Bytes

/-- A normalized absolute path, as its components. -/
abbrev Path := List Name

/-- The byte `/`. -/
def slash : UInt8 := 47

/-- The component `.`. -/
def dot : Name := [46]

/-- The component `..`. -/
def dotdot : Name := [46, 46]

/-- Split at every slash, keeping empty components. -/
def splitSlash : Bytes → List Bytes
  | [] => [[]]
  | b :: bs =>
    if b = slash then [] :: splitSlash bs
    else
      match splitSlash bs with
      | [] => [[b]]
      | c :: cs => (b :: c) :: cs

/-- One step of `path.Clean` on a rooted path: empty components and `.` are dropped, `..` takes
back the last component kept. -/
def cleanStep (acc : Path) (c : Name) : Path :=
  if c = [] ∨ c = dot then acc
  else if c = dotdot then acc.dropLast
  else acc ++ [c]

/-- `path.Clean` of the components `cs` below the clean path `base`. -/
def cleanFrom (base : Path) (cs : List Name) : Path := cs.foldl cleanStep base

/-- `normalizePath`. -/
def normalizePath (p : Bytes) : Path := cleanFrom [] (splitSlash p)

/-- `parentOf`: the parent of the root is the root. -/
def parentOf (p : Path) : Path := p.dropLast

/-- `baseName`: the root has the empty name. -/
def baseName (p : Path) : Name := p.getLastD []

/-- `joinPath`. -/
def joinPath (p : Path) (n : Name) : Path := p ++ [n]

/-- The test `dst == src || strings.HasPrefix(dst, src+"/")`. -/
def isUnder (dst src : Path) : Bool := src.isPrefixOf dst

/-- A component a directory entry can have: not empty, no slash, neither `.` nor `..`. -/
def IsComponent (n : Name) : Prop := n ≠ [] ∧ slash ∉ n ∧ n ≠ dot ∧ n ≠ dotdot

instance (n : Name) : Decidable (IsComponent n) := inferInstanceAs (Decidable (_ ∧ _))

@[simp] theorem parentOf_joinPath (p : Path) (n : Name) : parentOf (joinPath p n) = p := by
  simp [parentOf, joinPath]

@[simp] theorem baseName_joinPath (p : Path) (n : Name) : baseName (joinPath p n) = n := by
  simp [baseName, joinPath]

/-- A path other than the root is its last component below its parent. -/
theorem joinPath_parentOf {p : Path} (h : p ≠ []) : joinPath (parentOf p) (baseName p) = p := by
  simp only [joinPath, parentOf, baseName, List.getLastD_eq_getLast?, List.getLast?_eq_some_getLast h,
    Option.getD_some, List.dropLast_append_getLast]

end Afs
