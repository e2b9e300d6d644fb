/-!
# Reading UTF-8 that may be broken

`Utf8.decode` reads bytes as text and puts one replacement character for each maximal part of a
sequence that is no character: a lead byte with as many continuation bytes as could still be part of
one.
-/

namespace StepLoom.Text.Utf8

/-- What a lead byte promises: how many bytes follow, the bits it gives, and the range of the byte
right after it, which rules out overlong forms, surrogates and codes above the last one. -/
structure Lead where
  follow : Nat
  bits : Nat
  low : Nat
  high : Nat

def lead? (b : Nat) : Option Lead :=
  if b < 0x80 then some ⟨0, b, 0, 0⟩
  else if b < 0xC2 then none
  else if b < 0xE0 then some ⟨1, b - 0xC0, 0x80, 0xBF⟩
  else if b = 0xE0 then some ⟨2, 0, 0xA0, 0xBF⟩
  else if b = 0xED then some ⟨2, 13, 0x80, 0x9F⟩
  else if b < 0xF0 then some ⟨2, b - 0xE0, 0x80, 0xBF⟩
  else if b = 0xF0 then some ⟨3, 0, 0x90, 0xBF⟩
  else if b < 0xF4 then some ⟨3, b - 0xF0, 0x80, 0xBF⟩
  else if b = 0xF4 then some ⟨3, 4, 0x80, 0x8F⟩
  else none

/-- Where a reading stands: between characters, or inside one with `left` bytes to come, the next of
them in a range. -/
inductive Reading where
  | ready
  | inside (left bits low high : Nat)

def replacement : Char := Char.ofNat 0xFFFD

/-- Begins a character with a byte. -/
def start (b : Nat) : Reading × List Char :=
  match lead? b with
  | none => (.ready, [replacement])
  | some ⟨0, bits, _, _⟩ => (.ready, [Char.ofNat bits])
  | some ⟨follow, bits, low, high⟩ => (.inside follow bits low high, [])

/-- Takes one byte; yields the characters that it completes. -/
def step (r : Reading) (b : Nat) : Reading × List Char :=
  match r with
  | .ready => start b
  | .inside left bits low high =>
    if low ≤ b ∧ b ≤ high then
      let bits := bits * 64 + (b - 0x80)
      if left ≤ 1 then (.ready, [Char.ofNat bits]) else (.inside (left - 1) bits 0x80 0xBF, [])
    else
      let (r, cs) := start b
      (r, replacement :: cs)

def decodeFrom (r : Reading) : List UInt8 → List Char
  | [] => match r with
    | .ready => []
    | .inside .. => [replacement]
  | b :: rest =>
    let (r, cs) := step r b.toNat
    cs ++ decodeFrom r rest

def decode (bs : List UInt8) : List Char := decodeFrom .ready bs

end StepLoom.Text.Utf8
