/-!
# Bytes in sixty-four letters

`Base64.encodeLines` writes three bytes as four letters, in lines of 76 letters each of which ends
with a line feed. `Base64.decode?` reads them back, passing over characters that are no letters.
-/

namespace StepLoom.Text.Base64

def letters : List Char :=
  "ABCDEFGHIJKLMNOPQRSTUVWXYZabcdefghijklmnopqrstuvwxyz0123456789+/".toList

def letter (n : Nat) : Char := letters.getD n 'A'

/-- The letters of bytes; the last group is filled up with `=`. -/
def encode : List UInt8 → List Char
  | [] => []
  | [a] =>
    let n := a.toNat * 16
    [letter (n / 64), letter (n % 64), '=', '=']
  | [a, b] =>
    let n := (a.toNat * 256 + b.toNat) * 4
    [letter (n / 4096), letter (n / 64 % 64), letter (n % 64), '=']
  | a :: b :: c :: rest =>
    let n := (a.toNat * 256 + b.toNat) * 256 + c.toNat
    [letter (n / 262144), letter (n / 4096 % 64), letter (n / 64 % 64), letter (n % 64)]
      ++ encode rest

/-- Cuts a text into lines; `room` letters still fit into the current one. -/
def wrapFrom (width : Nat) : (room : Nat) → List Char → List Char
  | room, [] => if room = width then [] else ['\n']
  | 0, c :: rest => '\n' :: c :: wrapFrom width (width - 1) rest
  | room + 1, c :: rest => c :: wrapFrom width room rest

def encodeLines (bs : List UInt8) : String := String.ofList (wrapFrom 76 76 (encode bs))

def value? (c : Char) : Option Nat := letters.findIdx? (· == c)

/-- Reads letters with six bits each. `bits` holds `count` letters of the current group, and
`pads` the fillers seen in it. -/
def decodeFrom : (bits count pads : Nat) → List Char → Option (List UInt8)
  | _, count, _, [] => if count = 0 then some [] else none
  | bits, count, pads, c :: rest =>
    if c = '=' then
      if 2 ≤ count ∧ 4 ≤ count + pads + 1 then
        some (if count = 2 then [UInt8.ofNat (bits / 16)]
          else [UInt8.ofNat (bits / 1024), UInt8.ofNat (bits / 4 % 256)])
      else decodeFrom bits count (pads + 1) rest
    else match value? c with
      | none => decodeFrom bits count pads rest
      | some n =>
        let bits := bits * 64 + n
        if count = 3 then do
          let more ← decodeFrom 0 0 0 rest
          return UInt8.ofNat (bits / 65536) :: UInt8.ofNat (bits / 256 % 256)
            :: UInt8.ofNat (bits % 256) :: more
        else decodeFrom bits (count + 1) 0 rest

def decode? (cs : List Char) : Option (List UInt8) := decodeFrom 0 0 0 cs

end StepLoom.Text.Base64
