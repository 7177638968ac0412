import Afs.Foundations.Wildcard
import Afs.History.Record

/-!
# Policy patterns

`glob.lua`: patterns are matched segment by segment against the components of a path. `**` spans
any number of components, and only as a whole segment; inside a segment `*`, `?`, classes and
escapes work on code points. Both levels carry the set of positions reached so far, so there is
no backtracking.
-/

namespace Afs.History

/-- The code of a lead byte's payload and the continuation bytes after it, `none` when one of
them is missing or is not a continuation byte. -/
def runeTail : ℕ → ℕ → Bytes → Option ℕ
  | 0, code, _ => some code
  | _ + 1, _, [] => none
  | n + 1, code, b :: bs =>
    if b.toNat < 128 ∨ 192 ≤ b.toNat then none else runeTail n (code * 64 + b.toNat - 128) bs

/-- The width a lead byte announces. -/
def runeWidth (first : ℕ) : ℕ :=
  if first < 128 then 1
  else if 240 ≤ first then 4
  else if 224 ≤ first then 3
  else if 192 ≤ first then 2
  else 1

/-- `history_runes`; `fuel` is the number of bytes left. -/
def runesAux : ℕ → Bytes → List ℕ
  | _, [] => []
  | 0, _ => []
  | fuel + 1, b :: bs =>
    let first := b.toNat
    let width := runeWidth first
    let lead := if width = 1 then first else first % 2 ^ (7 - width)
    match runeTail (width - 1) lead bs with
    | some code => code :: runesAux fuel (bs.drop (width - 1))
    | none => 65533 :: runesAux fuel bs

@[inherit_doc runesAux]
def runes (value : Bytes) : List ℕ := runesAux value.length value

/-- The code points `strings.TrimSpace` removes. -/
def isSpace (c : ℕ) : Bool :=
  c == 32 || (9 ≤ c && c ≤ 13) || c == 133 || c == 160 || c == 5760 || (8192 ≤ c && c ≤ 8202) ||
    c == 8232 || c == 8233 || c == 8239 || c == 8287 || c == 12288

/-- The bytes a code point takes. -/
def runeBytes (c : ℕ) : ℕ := if c < 128 then 1 else if c < 2048 then 2 else if c < 65536 then 3 else 4

/-- `history_trim`: spaces, then slashes. The offsets come from the code points, as in the
source, so an invalid byte counts for the three bytes of U+FFFD. -/
def trim (value : Bytes) : Bytes :=
  let rs := runes value
  let front := rs.takeWhile isSpace
  let back := (rs.drop front.length).reverse.takeWhile isSpace
  let width := fun l : List ℕ => (l.map runeBytes).sum
  let start := width front
  let stop := if back = [] then value.length else width (rs.take (rs.length - back.length))
  let body := if front.length + back.length = rs.length then [] else (value.take stop).drop start
  ((body.dropWhile (· = slash)).reverse.dropWhile (· = slash)).reverse

/-- One letter of a class, after an optional backslash. -/
def classLetter : List ℕ → Option ℕ × List ℕ
  | [] => (none, [])
  | [c] => if c = 92 then (none, []) else (some c, [])
  | c :: d :: rest => if c = 92 then (some d, rest) else (some c, d :: rest)

/-- The ranges of a class up to its closing bracket, and the letters after it. -/
def classRanges : ℕ → List ℕ → Option (List (ℕ × ℕ) × List ℕ)
  | 0, _ => none
  | _ + 1, [] => none
  | fuel + 1, c :: cs =>
    if c = 93 then some ([], cs)
    else
      match classLetter (c :: cs) with
      | (none, _) => none
      | (some low, rest) =>
        let (high, rest) :=
          match rest with
          | 45 :: rest => classLetter rest
          | rest => (some low, rest)
        match high with
        | none => none
        | some high =>
          match classRanges fuel rest with
          | none => none
          | some (ranges, rest) => some ((low, high) :: ranges, rest)

/-- Advance every position over a letter that satisfies `test`. -/
def advance (value : List ℕ) (positions : List ℕ) (test : ℕ → Bool) : List ℕ :=
  positions.filterMap fun j =>
    match value[j]? with
    | some c => if test c then some (j + 1) else none
    | none => none

/-- The positions from the least one on. -/
def spread (length : ℕ) (positions : List ℕ) : List ℕ :=
  (List.range (length + 1)).filter fun j => positions.any (· ≤ j)

/-- The positions of `value` the letters of a segment can reach, `none` for a malformed
pattern. -/
def segmentAux (value : List ℕ) : ℕ → List ℕ → List ℕ → Option (List ℕ)
  | _, [], positions => some positions
  | 0, _, _ => none
  | fuel + 1, c :: cs, positions =>
    if c = 42 then segmentAux value fuel cs (spread value.length positions)
    else if c = 91 then
      let (negate, cs) := match cs with
        | 94 :: cs => (true, cs)
        | cs => (false, cs)
      match classRanges (cs.length + 1) cs with
      | none => none
      | some ([], _) => none
      | some (ranges, cs) =>
        segmentAux value fuel cs <| advance value positions fun a =>
          (ranges.any fun r => r.1 ≤ a && a ≤ r.2) != negate
    else if c = 92 then
      match cs with
      | [] => none
      | d :: cs => segmentAux value fuel cs (advance value positions (· == d))
    else segmentAux value fuel cs (advance value positions fun a => c == 63 || a == c)

/-- `history_segment`. -/
def segment (pattern value : Bytes) : Bool :=
  let rs := runes value
  match segmentAux rs (runes pattern).length (runes pattern) [0] with
  | some positions => positions.contains rs.length
  | none => false

/-- The positions of `parts` that the segments of a pattern can reach. -/
def globAux (parts : List Bytes) : List Bytes → List ℕ → List ℕ
  | [], positions => positions
  | seg :: segs, positions =>
    if seg = [42, 42] then globAux parts segs (spread parts.length positions)
    else
      globAux parts segs <| positions.filterMap fun j =>
        match parts[j]? with
        | some part => if segment seg part then some (j + 1) else none
        | none => none

/-- `history_glob`. -/
def glob (pattern value : Bytes) : Bool :=
  let pattern := trim pattern
  let value := trim value
  if pattern = [] ∨ value = [] then false
  else
    let parts := splitSlash value
    (globAux parts (splitSlash pattern) [0]).contains parts.length

/-- The string of a path. -/
def pathString (p : Path) : Bytes :=
  match p with
  | [] => [slash]
  | p => p.flatMap (slash :: ·)

/-- `history_matches`: exclusions win over inclusions. -/
def policyMatches (policy : Policy) (path : Path) : Bool :=
  if policy.mode = .off then false
  else if policy.exclude.any fun rule => glob rule (pathString path) then false
  else if policy.mode = .all then true
  else policy.include_.any fun rule => glob rule (pathString path)

/-! ## What a pattern means -/

open Wildcard (Item Matches step)

/-- The items of a segment, `none` for a malformed one. -/
def segmentItems : ℕ → List ℕ → Option (List (Item ℕ))
  | _, [] => some []
  | 0, _ => none
  | fuel + 1, c :: cs =>
    if c = 42 then (segmentItems fuel cs).map (.any :: ·)
    else if c = 91 then
      let (negate, cs) := match cs with
        | 94 :: cs => (true, cs)
        | cs => (false, cs)
      match classRanges (cs.length + 1) cs with
      | none => none
      | some ([], _) => none
      | some (ranges, cs) => (segmentItems fuel cs).map
        (.one (fun a => (ranges.any fun r => r.1 ≤ a && a ≤ r.2) != negate) :: ·)
    else if c = 92 then
      match cs with
      | [] => none
      | d :: cs => (segmentItems fuel cs).map (.one (· == d) :: ·)
    else (segmentItems fuel cs).map (.one (fun a => c == 63 || a == c) :: ·)

/-- The items of a pattern; its letters are components. -/
def globItems (segs : List Bytes) : List (Item Bytes) :=
  segs.map fun seg => if seg = [42, 42] then .any else .one (segment seg)

theorem advance_eq (value positions : List ℕ) (test : ℕ → Bool) :
    advance value positions test = step value positions (.one test) := by
  simp only [advance, step]
  grind

theorem segmentAux_eq (value : List ℕ) (fuel : ℕ) (cs positions : List ℕ) :
    segmentAux value fuel cs positions =
      (segmentItems fuel cs).map (·.foldl (step value) positions) := by
  fun_induction segmentAux value fuel cs positions <;>
    simp_all [segmentItems, spread, step, advance_eq, Function.comp_def]

theorem globAux_eq (parts segs : List Bytes) (positions : List ℕ) :
    globAux parts segs positions = (globItems segs).foldl (step parts) positions := by
  fun_induction globAux parts segs positions <;> simp_all [globItems, spread, step]
  grind

/-- **The positions decide the pattern.** On both levels the end is among the positions reached
exactly when the pattern, read item by item, describes the whole value. -/
theorem glob_iff (pattern value : Bytes) :
    (glob pattern value = true ↔ trim pattern ≠ [] ∧ trim value ≠ [] ∧
      Matches (globItems (splitSlash (trim pattern))) (splitSlash (trim value))) ∧
    ∀ seg part, segment seg part = true ↔
      ∃ items, segmentItems (runes seg).length (runes seg) = some items ∧
        Matches items (runes part) := by
  constructor
  · rw [glob, ← Wildcard.contains_foldl]
    simp [globAux_eq, and_assoc]
  · intro seg part
    rw [segment, segmentAux_eq]
    cases segmentItems (runes seg).length (runes seg) with
    | none => simp
    | some items => simpa using Wildcard.contains_foldl items

end Afs.History
