import RoleMining.Failure
import RoleMining.Ledger

/-!
# Tables

A table file holds a line of column names and a line for each row. Cells are divided by commas; a
cell that begins with a quote may hold commas and line ends, and a quote inside it is written twice.
Lines end with a line feed, a carriage return, or both. Lines with nothing but blanks are skipped.
-/
namespace RoleMining

structure Table where
  columns : List String
  /-- Each row has as many cells as there are columns. -/
  rows : List (List String)

namespace Table

/-- Where the scanner stands in a line. -/
inductive Place where
  | lineStart
  /-- Only blanks so far. -/
  | blankLine
  | cellStart
  | inCell
  | inQuotes
  /-- Behind a quote that may close the cell or begin a doubled quote. -/
  | afterQuote
deriving DecidableEq, Repr

/-- What has been scanned: the lines, the cells of this line and the characters of this cell, the
latest first. -/
structure Scan where
  place : Place := .lineStart
  /-- The last character was a carriage return that ended a line. -/
  afterReturn : Bool := false
  lines : List (List String) := []
  cells : List String := []
  cell : List Char := []

namespace Scan

/-- A cell ends at its first null character. -/
def cellText (s : Scan) : String := String.ofList (s.cell.reverse.takeWhile (· != '\x00'))

def endCell (s : Scan) : Scan :=
  { s with place := .cellStart, cells := s.cellText :: s.cells, cell := [] }

def endLine (s : Scan) : Scan :=
  let s := s.endCell
  { s with place := .lineStart, lines := s.cells.reverse :: s.lines, cells := [] }

def skipLine (s : Scan) : Scan := { s with place := .lineStart, cell := [] }

def push (s : Scan) (place : Place) (c : Char) : Scan := { s with place, cell := c :: s.cell }

/-- A character of a cell without quotes; `place` is where a plain character leads. -/
def plain (s : Scan) (place : Place) (c : Char) : Scan :=
  if c == '\n' then s.endLine
  else if c == '\r' then { s.endLine with afterReturn := true }
  else if c == ',' then s.endCell
  else s.push place c

def startCell (s : Scan) (c : Char) : Scan :=
  if c == '"' then { s with place := .inQuotes } else s.plain .inCell c

def isLineBlank (c : Char) : Bool := c == ' ' || c == '\t'

def advance (s : Scan) (c : Char) : Scan :=
  match s.place with
  | .lineStart =>
    if c == '\n' then s
    else if c == '\r' then { s with afterReturn := true }
    else if isLineBlank c then s.push .blankLine c
    else s.startCell c
  | .blankLine =>
    if c == '\n' then s.skipLine
    else if c == '\r' then { s.skipLine with afterReturn := true }
    else if isLineBlank c then s.push .blankLine c
    else s.plain .inCell c
  | .cellStart => s.startCell c
  | .inCell => s.plain .inCell c
  | .inQuotes => if c == '"' then { s with place := .afterQuote } else s.push .inQuotes c
  | .afterQuote => if c == '"' then s.push .inQuotes c else s.plain .inCell c

/-- One character; a line feed behind a carriage return belongs to it. -/
def step (s : Scan) (c : Char) : Scan :=
  if s.afterReturn && c == '\n' then { s with afterReturn := false }
  else { s with afterReturn := false }.advance c

/-- The lines, unless a quote is left open. -/
def finish? (s : Scan) : Option (List (List String)) :=
  match s.place with
  | .lineStart | .blankLine => some s.lines.reverse
  | .inQuotes => none
  | .cellStart | .inCell | .afterQuote => some s.endLine.lines.reverse

end Scan

def scan? (cs : List Char) : Option (List (List String)) :=
  (cs.foldl Scan.step {}).finish?

/-- The cell of a row at a position; an absent cell is empty. -/
def cellAt (row : List String) (position : Nat) : String := (row[position]?).getD ""

/-- The first number from `count` on with which a name is not yet in the header. -/
def freshName (header : List String) (name : String) : Nat → Nat → String × Nat
  | 0, count => (name ++ "." ++ Text.ofInt count, count)
  | fuel + 1, count =>
    let candidate := name ++ "." ++ Text.ofInt count
    if header.contains candidate then freshName header name fuel (count + 1)
    else (candidate, count)

/-- Make the name at a position unique: a name that was used before gets a number. -/
def renameAt (state : List String × Ledger String Nat) (index : Nat) :
    List String × Ledger String Nat :=
  let (header, counts) := state
  let name := cellAt header index
  let count := (counts.find? name).getD 0
  if count = 0 then (header, counts.record name 1)
  else
    let (fresh, used) := freshName header name (header.length + 1) count
    (header.set index fresh, (counts.record name (used + 1)).record fresh 1)

/-- Column names: an empty one is named by its position, and repeated ones get numbers, given names
before made ones. -/
def columnNames (line : List String) : List String :=
  let named := line.zipIdx.map fun (name, i) =>
    if name.isEmpty then "Unnamed: " ++ Text.ofInt i else name
  let indices := List.range line.length
  let isMade (i : Nat) : Bool := (cellAt line i).isEmpty
  let order := indices.filter (fun i => !isMade i) ++ indices.filter isMade
  (order.foldl renameAt (named, .empty)).1

/-- A row filled up with empty cells. -/
def fill (width : Nat) (cells : List String) : List String :=
  cells ++ List.replicate (width - cells.length) ""

/-- The table of the scanned lines. When the first row is longer than the header, its surplus
leading cells are labels of the rows and no columns; no later row may be longer. -/
def ofLines : List (List String) → Except TableFault Table
  | [] => .error .empty
  | header :: rows =>
    let width := max header.length ((rows.head?.map List.length).getD 0)
    if rows.any fun cells => width < cells.length then .error .malformed
    else
      let labels := width - header.length
      .ok { columns := columnNames header
            rows := rows.map fun cells => (fill width cells).drop labels }

/-- A byte order mark before the text is dropped. -/
def dropMark : List Char → List Char
  | '\ufeff' :: rest => rest
  | cs => cs

/-- The table that a file's bytes spell. -/
def ofBytes (bytes : ByteArray) : Except TableFault Table :=
  match String.fromUTF8? bytes with
  | none => .error .notUtf8
  | some text =>
    match scan? (dropMark text.toList) with
    | none => .error .malformed
    | some lines => ofLines lines

/-- Cells that stand for a missing value. -/
def missingMarks : List String :=
  ["", "#N/A", "#N/A N/A", "#NA", "-1.#IND", "-1.#QNAN", "-NaN", "-nan", "1.#IND", "1.#QNAN",
   "<NA>", "N/A", "NA", "NULL", "NaN", "None", "n/a", "nan", "null"]

def isMissing (cell : String) : Bool := missingMarks.contains cell

/-- A cell's text, unless it is missing. -/
def present? (cell : String) : Option String := if isMissing cell then none else some cell

/-- The column names without the blanks around them. -/
def names (t : Table) : List String := t.columns.map Text.strip

/-- The positions of the columns with a stripped name. -/
def positions (t : Table) (name : String) : List Nat :=
  (t.names.zipIdx.filter fun (n, _) => n == name).map Prod.snd

end Table
end RoleMining
