import ShiftReduce.Table.Basic

/-!
# Tables as text

A table is written with a title, a header with the names of the symbols and one line a state.
Columns are aligned to the right and as wide as their widest entry.
-/

namespace ShiftReduce

/-- The title of a table. -/
def TableKind.title : TableKind → String
  | .lr0 => "LR(0)"
  | .slr1 => "SLR(1)"
  | .diff => "LR(0) - SLR(1)"

namespace Layout

/-- A text with blanks before it up to a width, which counts characters. -/
def alignRight (width : Nat) (text : String) : String :=
  "".pushn ' ' (width - text.length) ++ text

/-- A line of a table: the entry of the first column, a bar and the other entries. -/
def line (widths : List Nat) (first : String) (entries : List String) : String :=
  let columns := (widths.zip entries).map fun (width, entry) => " " ++ alignRight width entry
  alignRight 5 first ++ " |" ++ String.join columns ++ "\n"

/-- The actions of a cell with slashes between them. -/
def cellText (actions : List Action) : String :=
  "/".intercalate (actions.map (·.text))

/-- The texts of the cells of a row. -/
def rowTexts (table : Table) (state : StateId) : List String :=
  (table.row state).map fun (_, actions) => cellText actions

/-- Widths that have room for a row of entries as well. -/
def widen (widths : List Nat) (entries : List String) : List Nat :=
  (widths.zip entries).map fun (width, entry) => Nat.max width entry.length

/-- A table as text, with an empty line after it. -/
def table (g : Grammar) (table : Table) : String :=
  let header := table.shape.columns.map g.name
  let rows := (List.range table.height).map (rowTexts table)
  let widths := rows.foldl widen (header.map (·.length))
  let lines := rows.zipIdx.map fun (row, state) => line widths (toString state) row
  table.kind.title ++ " table, " ++ toString table.conflictCount ++ " conflicts\n" ++
    line widths "state" header ++ String.join lines ++ "\n"

end Layout

end ShiftReduce
