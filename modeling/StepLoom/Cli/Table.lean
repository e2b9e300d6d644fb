import StepLoom.Value.Access
import StepLoom.Value.Display
import StepLoom.Workspace
import StepLoom.Text.LetterCase

/-!
# Tables for people

A list of mappings is shown as a table with the fields of the first one as its columns; any other
list has one member per line.
-/

namespace StepLoom

namespace Table

structure Column where
  name : String
  cells : List String
deriving DecidableEq, Repr

/-- As wide as its widest cell or its name. -/
def Column.width (c : Column) : Nat := c.cells.foldl (fun w s => max w s.length) c.name.length

/-- What a row has under a key; nothing is left empty. -/
def cell (key : Scalar) (row : Value) : Except Fault String := do
  match ← row.field? key with
  | some v => v.text
  | none => return ""

def cells (key : Scalar) : List Value → Except Fault (List String)
  | [] => .ok []
  | row :: rest => do return (← cell key row) :: (← cells key rest)

/-- The columns for some keys, which have to be strings. -/
def columns (rows : List Value) : Fields → Except Fault (List Column)
  | [] => .ok []
  | (key, _) :: rest => do
    let name ← (Value.scalar key).string
    let column := ⟨name, ← cells key rows⟩
    return column :: (← columns rows rest)

def line (columns : List Column) (text : Column → String) : String :=
  "  ".intercalate (columns.map fun c => Text.padRight c.width (text c))

/-- The lines of a table, names first. -/
def lines (columns : List Column) (count : Nat) : List String :=
  line columns (fun c => Text.upper c.name)
    :: (List.range count).map fun i => line columns fun c => c.cells.getD i ""

/-- One value on a line of its own. -/
def itemLine : Value → Except Fault String
  | .scalar .null => .ok ""
  | v => v.text

def itemLines : List Value → Except Fault (List String)
  | [] => .ok []
  | v :: rest => do return (← itemLine v) :: (← itemLines rest)

/-- The lines that show a value. -/
def linesOf : Value → Except Fault (List String)
  | .list [] => .ok ["(none)"]
  | .list (.map mark fields :: rest) => do
    let rows := Value.map mark fields :: rest
    return lines (← columns rows fields) rows.length
  | .list items => itemLines items
  | v => do return [← itemLine v]

def printLines : List String → Act Unit
  | [] => return
  | l :: rest => do
    Act.print l
    printLines rest

def print (v : Value) : Act Unit := do printLines (← liftM (linesOf v))

end Table

end StepLoom
