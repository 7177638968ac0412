import Mathlib.Data.List.Basic
import Mathlib.Tactic.Common

/-!
# Base64

The standard alphabet with padding. Three bytes become four digits; a last group of one or two
bytes is filled up with `=`. The decoder skips line breaks and, like Go's, does not mind what the
bits are that padding cuts off.
-/

namespace Afs.Base64

/-- The digit of a number below 64. -/
def digit (n : ℕ) : UInt8 :=
  if n < 26 then .ofNat (65 + n)
  else if n < 52 then .ofNat (97 + (n - 26))
  else if n < 62 then .ofNat (48 + (n - 52))
  else if n = 62 then 43
  else 47

/-- The number a digit stands for. -/
def value (d : UInt8) : Option ℕ :=
  if 65 ≤ d ∧ d ≤ 90 then some (d.toNat - 65)
  else if 97 ≤ d ∧ d ≤ 122 then some (d.toNat - 97 + 26)
  else if 48 ≤ d ∧ d ≤ 57 then some (d.toNat - 48 + 52)
  else if d = 43 then some 62
  else if d = 47 then some 63
  else none

/-- The padding `=`. -/
def pad : UInt8 := 61

/-- `EncodeToString`. -/
def encode : List UInt8 → List UInt8
  | [] => []
  | [a] => [digit (a.toNat / 4), digit (a.toNat % 4 * 16), pad, pad]
  | [a, b] =>
    [digit (a.toNat / 4), digit (a.toNat % 4 * 16 + b.toNat / 16), digit (b.toNat % 16 * 4), pad]
  | a :: b :: c :: rest =>
    digit (a.toNat / 4) :: digit (a.toNat % 4 * 16 + b.toNat / 16) ::
      digit (b.toNat % 16 * 4 + c.toNat / 64) :: digit (c.toNat % 64) :: encode rest

/-- The first byte of a group. -/
def first (u v : ℕ) : UInt8 := .ofNat (u * 4 + v / 16)

/-- The second byte of a group. -/
def second (v w : ℕ) : UInt8 := .ofNat (v % 16 * 16 + w / 4)

/-- The third byte of a group. -/
def third (w x : ℕ) : UInt8 := .ofNat (w % 4 * 64 + x)

/-- The groups of a text without line breaks; only the last one may be padded. -/
def decodeGroups : List UInt8 → Option (List UInt8)
  | [] => some []
  | d₀ :: d₁ :: d₂ :: d₃ :: rest => do
    let u ← value d₀
    let v ← value d₁
    if d₂ = pad then if d₃ = pad ∧ rest = [] then some [first u v] else none
    else do
      let w ← value d₂
      if d₃ = pad then if rest = [] then some [first u v, second v w] else none
      else do
        let x ← value d₃
        let bs ← decodeGroups rest
        return first u v :: second v w :: third w x :: bs
  | _ => none

/-- `DecodeString`. -/
def decode (text : List UInt8) : Option (List UInt8) :=
  decodeGroups (text.filter fun b => b ≠ 10 ∧ b ≠ 13)

/-! ## The round trip -/

section Bytes

variable (a b c : UInt8)

end Bytes

end Afs.Base64
