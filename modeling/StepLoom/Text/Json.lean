import StepLoom.Value.Display

/-!
# JSON text

A value as JSON, with two blanks of indentation for each level and all characters outside of ASCII
escaped. What JSON has no form for is written as a string.
-/

namespace StepLoom.Text.Json

def escapeUnit (n : Nat) : List Char := '\\' :: 'u' :: Text.hexDigits 4 n

/-- The two units of a character beyond the first plane. -/
def escapePair (n : Nat) : List Char :=
  let m := n - 0x10000
  escapeUnit (0xD800 + m / 0x400) ++ escapeUnit (0xDC00 + m % 0x400)

/-- The characters with a short escape. -/
def shortEscapes : List (Char × Char) :=
  [('"', '"'), ('\\', '\\'), ('\n', 'n'), ('\r', 'r'), ('\t', 't'), ('\x08', 'b'), ('\x0c', 'f')]

def escape (c : Char) : List Char :=
  match shortEscapes.find? (·.1 == c) with
  | some (_, letter) => ['\\', letter]
  | none =>
    let n := codeOf c
    if 32 ≤ n ∧ n < 127 then [c]
    else if n < 0x10000 then escapeUnit n
    else escapePair n

def quoted (s : String) : String := String.ofList ('"' :: s.toList.flatMap escape ++ ['"'])

def ofScalar : Scalar → String
  | .null => "null"
  | .bool b => if b then "true" else "false"
  | .int n => toString n
  | .float x => x.text
  | s => quoted s.bareSpelling

def indent (depth : Nat) : String := String.ofList (List.replicate (2 * depth) ' ')

/-- Parts between brackets, each on a line of its own. -/
def bracketed (opening closing : String) (depth : Nat) (parts : List String) : String :=
  if parts.isEmpty then opening ++ closing
  else opening ++ "\n" ++ ",\n".intercalate (parts.map (indent (depth + 1) ++ ·)) ++ "\n"
    ++ indent depth ++ closing

mutual

def writeAt (depth : Nat) : Value → String
  | .scalar s => ofScalar s
  | .list items | .ring _ items => bracketed "[" "]" depth (writeItems (depth + 1) items)
  | .pair a b => bracketed "[" "]" depth [writeAt (depth + 1) a, writeAt (depth + 1) b]
  | .set members => quoted ((Value.set members).spelling [])
  | .again _ => "null"
  | .map _ fields => bracketed "\x7b" "\x7d" depth (writeFields (depth + 1) fields)

def writeItems (depth : Nat) : List Value → List String
  | [] => []
  | v :: rest => writeAt depth v :: writeItems depth rest

def writeFields (depth : Nat) : List (Scalar × Value) → List String
  | [] => []
  | (k, v) :: rest => (quoted k.bareSpelling ++ ": " ++ writeAt depth v) :: writeFields depth rest

end

def write (v : Value) : String := writeAt 0 v

end StepLoom.Text.Json
