/-!
# Blanks and line ends

Which characters count as blank, and which end a line. `strip` removes blanks at both ends;
`lines` cuts at every line end, a carriage return followed by a line feed being one, and yields no
line after the last end.
-/

namespace StepLoom.Text

/-- The code points of white space. -/
def blanks : List Nat :=
  [9, 10, 11, 12, 13, 28, 29, 30, 31, 32, 133, 160, 5760, 8192, 8193, 8194, 8195, 8196, 8197, 8198,
   8199, 8200, 8201, 8202, 8232, 8233, 8239, 8287, 12288]

/-- The code points that end a line. -/
def lineEnds : List Nat := [10, 11, 12, 13, 28, 29, 30, 133, 8232, 8233]

def isBlank (c : Char) : Bool := blanks.contains c.toNat

def isLineEnd (c : Char) : Bool := lineEnds.contains c.toNat

/-- The text without the characters of the class at its end. -/
def dropEndWhile (p : Char → Bool) (cs : List Char) : List Char :=
  (cs.reverse.dropWhile p).reverse

def stripChars (cs : List Char) : List Char := dropEndWhile isBlank (cs.dropWhile isBlank)

def strip (s : String) : String := String.ofList (stripChars s.toList)

/-- Lines of the text; `line` holds the current one, reversed. -/
def linesFrom (line : List Char) : List Char → List (List Char)
  | [] => if line.isEmpty then [] else [line.reverse]
  | '\r' :: '\n' :: rest => line.reverse :: linesFrom [] rest
  | c :: rest =>
    if isLineEnd c then line.reverse :: linesFrom [] rest else linesFrom (c :: line) rest

def lines (s : String) : List String := (linesFrom [] s.toList).map String.ofList

/-- Line ends as a text file is read: a carriage return, with or without a line feed after it,
becomes a line feed. -/
def unifyNewlines : List Char → List Char
  | [] => []
  | '\r' :: '\n' :: rest => '\n' :: unifyNewlines rest
  | c :: rest => (if c = '\r' then '\n' else c) :: unifyNewlines rest

/-- The pieces between separators; there is always one more piece than there are separators. -/
def splitOnChar (sep : Char) : List Char → List (List Char)
  | [] => [[]]
  | c :: rest =>
    if c = sep then [] :: splitOnChar sep rest
    else match splitOnChar sep rest with
      | [] => [[c]]
      | piece :: more => (c :: piece) :: more

def split (s : String) (sep : Char) : List String :=
  (splitOnChar sep s.toList).map String.ofList

/-- The text before the first separator and the text after it, empty if there is none. -/
def cutAt (s : String) (sep : Char) : String × String :=
  let cs := s.toList
  (String.ofList (cs.takeWhile (· ≠ sep)), String.ofList ((cs.dropWhile (· ≠ sep)).drop 1))

def padRight (width : Nat) (s : String) : String :=
  String.ofList (s.toList ++ List.replicate (width - s.length) ' ')

end StepLoom.Text
