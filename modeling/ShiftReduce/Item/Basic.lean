import ShiftReduce.Grammar.Basic

/-!
# Items

An item is a rule with a dot in its body, which says how much of the body has been read. Items are
numbered in a table when they are first asked for. The table only grows, also when a request that
needs several new items fails on the way.
-/

namespace ShiftReduce

/-- The number of an item. -/
abbrev ItemId := Nat

/-- A rule with a dot before the symbol at position `dot` of its body. -/
structure Item where
  rule : RuleId
  dot : Nat
  deriving DecidableEq

namespace Item

/-- The symbol after the dot. An item with the dot at the end has none. -/
def next? (item : Item) (g : Grammar) : Except Failure (Option Symbol) := do
  return (← g.rule item.rule).body[item.dot]?

/-- Whether the dot is at the end. -/
def isReduction (item : Item) (g : Grammar) : Except Failure Bool := do
  return item.dot == (← g.rule item.rule).length

/-- The item with the dot one symbol further. -/
def advance (item : Item) : Item := { item with dot := item.dot + 1 }

/-- Fails if the grammar has no such rule or the dot is past the end of its body. -/
def check (item : Item) (g : Grammar) : Except Failure Unit :=
  match g.rules[item.rule]? with
  | some rule =>
    if item.dot ≤ rule.length then .ok () else .error (.mismatch (.noItem item.rule item.dot))
  | none => .error (.mismatch (.noItem item.rule item.dot))

/-- The names of the symbols of a body with a dot at the given position. -/
def dottedNames (names : List String) (dot : Nat) : List String :=
  if dot ≤ names.length then names.take dot ++ "." :: names.drop dot else names

/-- An item as `A -> x . y`. -/
def text (item : Item) (g : Grammar) : Except Failure String := do
  let rule ← g.rule item.rule
  let names := dottedNames (rule.body.map g.name) item.dot
  let head := g.name (.nonterminal rule.head)
  return names.foldl (fun text name => text ++ " " ++ name) (head ++ " ->")

end Item

/-- Items with their numbers, and the bounds that the table keeps. -/
structure ItemTable where
  items : Array Item := #[]
  bounds : Bounds := .unbounded
  deriving DecidableEq

/-- Requests that may add items to a table and may fail. What was added stays when they fail. -/
abbrev ItemM := EStateM Failure ItemTable

namespace ItemTable

/-- A table without items. -/
def empty (bounds : Bounds) : ItemTable := { bounds }

/-- How many items the table has. -/
def size (table : ItemTable) : Nat := table.items.size

/-- The item with a given number. -/
def get (table : ItemTable) (id : ItemId) : Except Failure Item := entry table.items id

/-- The number of an item that the table has. No item is in the table twice, so that the first place
where it stands is the only one. -/
def find? (table : ItemTable) (item : Item) : Option ItemId := table.items.findIdx? (· == item)

/-- The table with one more item, if the grammar has it and there is room for it. -/
def add (table : ItemTable) (g : Grammar) (item : Item) : Except Failure ItemTable := do
  item.check g
  table.bounds.allow .items (table.size + 1)
  return { table with items := table.items.push item }

/-- The number of an item, which is added on the first request. -/
def intern (g : Grammar) (item : Item) : ItemM ItemId := fun table =>
  match table.find? item with
  | some id => .ok id table
  | none =>
    match table.add g item with
    | .ok larger => .ok table.size larger
    | .error failure => .error failure table

/-- The item with a given number. -/
def item (id : ItemId) : ItemM Item := fun table =>
  liftStep (table.get id) table

/-- The item with the dot one symbol further, or nothing if the dot is at the end. -/
def advance (g : Grammar) (id : ItemId) : ItemM (Option ItemId) := do
  let item ← item id
  if ← liftStep (item.isReduction g) then
    return none
  else
    return some (← intern g item.advance)

end ItemTable

end ShiftReduce
