import ShiftReduce.SetFamily
import ShiftReduce.Table.Action

/-!
# Parse tables

A table has a row for each state of the canonical collection and a column for each terminal, the
end of input and each non-terminal, in this order. A cell holds actions in the order in which they
were found, each once.
-/

namespace ShiftReduce

/-- The numbers of states and symbols that a table is made for. -/
structure Shape where
  states : Nat
  terminals : Nat
  nonterminals : Nat
  deriving DecidableEq

namespace Shape

/-- The symbols of the columns. -/
def columns (shape : Shape) : List Symbol :=
  (List.range shape.terminals).map .terminal ++
    .endOfInput :: (List.range shape.nonterminals).map .nonterminal

/-- The number of columns. -/
def width (shape : Shape) : Nat := shape.terminals + 1 + shape.nonterminals

/-- There are as many columns as the table is wide. -/
@[simp]
theorem length_columns (shape : Shape) : shape.columns.length = shape.width := by
  simp [columns, width]
  omega

/-- The column of a symbol. -/
def column? (shape : Shape) : Symbol → Option Nat
  | .terminal t => if t < shape.terminals then some t else none
  | .endOfInput => some shape.terminals
  | .nonterminal n => if n < shape.nonterminals then some (shape.terminals + 1 + n) else none
  | .epsilon => none

/-- The column of a symbol holds the symbol. -/
theorem getElem?_columns {shape : Shape} {symbol : Symbol} {column : Nat}
    (h : shape.column? symbol = some column) : shape.columns[column]? = some symbol := by
  cases symbol with
  | terminal t =>
    simp only [column?, Option.ite_none_right_eq_some, Option.some.injEq] at h
    obtain ⟨ht, rfl⟩ := h
    rw [columns, List.getElem?_append_left (by simpa using ht)]
    simp [ht]
  | nonterminal n =>
    simp only [column?, Option.ite_none_right_eq_some, Option.some.injEq] at h
    obtain ⟨hn, rfl⟩ := h
    rw [columns, List.getElem?_append_right (by simp; omega)]
    simp only [List.length_map, List.length_range]
    rw [show shape.terminals + 1 + n - shape.terminals = n + 1 by omega, List.getElem?_cons_succ]
    simp [hn]
  | epsilon => simp [column?] at h
  | endOfInput =>
    simp only [column?, Option.some.injEq] at h
    subst h
    rw [columns, List.getElem?_append_right (by simp)]
    simp

/-- The input symbols among the columns. -/
def inputs (shape : Shape) : List Symbol := shape.columns.filter (·.isInput)

end Shape

/-- A table of actions. -/
structure Table where
  kind : TableKind
  shape : Shape
  cells : Array (Array (List Action))
  deriving DecidableEq

namespace Table

/-- A table without actions. -/
def empty (kind : TableKind) (shape : Shape) : Table where
  kind
  shape
  cells := Array.replicate shape.states (Array.replicate shape.width [])

/-- Adds an action to a cell unless the cell has it already. -/
def add (table : Table) (state : StateId) (symbol : Symbol) (action : Action) :
    Except Failure Table :=
  match table.shape.column? symbol with
  | none => .error (.mismatch (.noColumn symbol))
  | some column =>
    if state < table.cells.size then
      if column < (table.cells.getD state #[]).size then
        let ⟨kind, shape, cells⟩ := table
        .ok ⟨kind, shape, cells.modify state (·.modify column (pushUnique · action))⟩
      else .error .dangling
    else .error (.mismatch (.noRow state))

/-- The actions in a cell. There are none in a row or a column that the table does not have. -/
def cell (table : Table) (state : StateId) (symbol : Symbol) : List Action :=
  match table.shape.column? symbol with
  | some column => (table.cells.getD state #[]).getD column []
  | none => []

/-- The cells of a row with their symbols. A row that the table does not have has no cells. -/
def row (table : Table) (state : StateId) : List (Symbol × List Action) :=
  table.shape.columns.zip (table.cells.getD state #[]).toList

/-- The number of rows. -/
def height (table : Table) : Nat := table.cells.size

/-- The conflicts of a table, row by row. -/
def conflicts (table : Table) : List Conflict :=
  (List.range table.height).flatMap fun state =>
    (table.row state).filterMap fun (symbol, actions) => Conflict.ofCell? state symbol actions

/-- All cells, row by row. -/
def allCells (table : Table) : List (List Action) :=
  table.cells.toList.flatMap (·.toList)

/-- The number of cells with more than one action. -/
def conflictCount (table : Table) : Nat := table.allCells.countP (1 < ·.length)

/-- The number of cells with an action. -/
def filledCount (table : Table) : Nat := table.allCells.countP (!·.isEmpty)

/-- Whether all cells are empty. -/
def isEmpty (table : Table) : Bool := table.allCells.all (·.isEmpty)

/-- The table of the same shape without actions. -/
def clear (table : Table) : Table :=
  { table with cells := table.cells.map (·.map fun _ => []) }

end Table

end ShiftReduce
