import ShiftReduce.Table.Basic

/-!
# Tables as JSON

JSON text is written with two blanks a level, one entry a line, and empty lists as `[]`. In a string
the quote, the backslash and the control characters are escaped and all else stands for itself.
-/

namespace ShiftReduce

/-- A JSON value of a report. -/
inductive JsonValue where
  | number (n : Nat)
  | string (text : String)
  | list (values : List JsonValue)
  | object (fields : List (String × JsonValue))

namespace JsonValue

/-- A character inside a JSON string. -/
def escapeChar (c : Char) : String :=
  if c = '"' then "\\\""
  else if c = '\\' then "\\\\"
  else if c = '\n' then "\\n"
  else if c = '\r' then "\\r"
  else if c = '\t' then "\\t"
  else if c.toNat = 0x08 then "\\b"
  else if c.toNat = 0x0C then "\\f"
  else if c.toNat < 0x20 then
    "\\u00" ++ String.ofList [Nat.digitChar (c.toNat / 16), Nat.digitChar (c.toNat % 16)]
  else c.toString

/-- A string in double quotes. -/
def quoted (text : String) : String :=
  "\"" ++ String.join (text.toList.map escapeChar) ++ "\""

/-- A line break and the blanks of a level. -/
def lineStart (level : Nat) : String :=
  "\n".pushn ' ' (2 * level)

/-- Entries between brackets, each on a line of the given level. -/
def block (left right : String) (level : Nat) (entries : List String) : String :=
  if entries.isEmpty then left ++ right
  else
    let lines := entries.map (lineStart (level + 1) ++ ·)
    left ++ ",".intercalate lines ++ lineStart level ++ right

mutual

/-- The text of a value that starts on a line of the given level. -/
def text (level : Nat) : JsonValue → String
  | .number n => toString n
  | .string s => quoted s
  | .list values => block "[" "]" level (texts (level + 1) values)
  | .object fields => block "\x7b" "\x7d" level (fieldTexts (level + 1) fields)

/-- The texts of the entries of a list. -/
def texts (level : Nat) : List JsonValue → List String
  | [] => []
  | value :: values => text level value :: texts level values

/-- The texts of the fields of an object. -/
def fieldTexts (level : Nat) : List (String × JsonValue) → List String
  | [] => []
  | (key, value) :: fields =>
    (quoted key ++ ": " ++ text level value) :: fieldTexts level fields

end

/-- A symbol of a column. -/
def ofSymbol : Symbol → JsonValue
  | .terminal id => .object [("Terminal", .number id)]
  | .nonterminal id => .object [("NonTerminal", .number id)]
  | .epsilon => .string "Epsilon"
  | .endOfInput => .string "EndOfInput"

/-- An action of a cell. -/
def ofAction : Action → JsonValue
  | .shift state => .object [("Shift", .number state)]
  | .reduce rule => .object [("Reduce", .number rule)]
  | .goto state => .object [("Goto", .number state)]
  | .accept => .string "Accept"

/-- A table with its kind, columns and cells. -/
def ofTable (table : Table) : JsonValue :=
  .object [
    ("kind", .string table.kind.text),
    ("columns", .list (table.shape.columns.map ofSymbol)),
    ("cells", .list (table.cells.toList.map fun row =>
      .list (row.toList.map fun actions => .list (actions.map ofAction))))]

/-- Several tables of a grammar with the names of their columns. -/
def ofTables (g : Grammar) (tables : List Table) : JsonValue :=
  .object [
    ("columns", .list (g.columns.map fun symbol => .string (g.name symbol))),
    ("tables", .list (tables.map ofTable))]

end JsonValue

end ShiftReduce
