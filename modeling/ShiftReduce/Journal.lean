import ShiftReduce.Table.Fill

/-!
# Journal of a run

A run notes what it builds. Every note has a level, so that a reader can choose how much to see.
-/

namespace ShiftReduce

/-- How important a note is, the most important first. -/
inductive Level where
  | error
  | warn
  | info
  | debug
  | trace
  deriving DecidableEq

namespace Level

/-- The name of a level. -/
def text : Level → String
  | .error => "ERROR"
  | .warn => "WARN"
  | .info => "INFO"
  | .debug => "DEBUG"
  | .trace => "TRACE"

/-- The place of a level, counted from the most important one. -/
def rank : Level → Nat
  | .error => 1
  | .warn => 2
  | .info => 3
  | .debug => 4
  | .trace => 5

end Level

/-- Something that a run notes. -/
inductive Event where
  | read (stats : GrammarStats)
  | loaded (stats : GrammarStats)
  | nfaBuilt (states transitions : Nat)
  | stateAdded (state : StateId) (items : Nat)
  | dfaBuilt (states transitions items : Nat)
  | itemsNumbered (items : Nat)
  | setsFound (firstPasses followPasses : Nat)
  | conflictFound (table : TableKind) (conflict : ConflictKind) (state : StateId)
      (symbol : String)
  | tableFilled (table : TableKind) (rows columns conflicts : Nat)
  | diffFilled (cells : Nat)
  | finished (states lr0Conflicts slr1Conflicts : Nat)
  deriving DecidableEq

namespace Event

/-- The level of a note. -/
def level : Event → Level
  | .conflictFound .. => .warn
  | .loaded .. | .finished .. => .info
  | .stateAdded .. => .trace
  | _ => .debug

/-- The wording of a note. -/
def message : Event → String
  | .read s =>
    s!"loaded grammar: {s.terminals} terminals, {s.nonterminals} non-terminals, " ++
      s!"{s.rules} rules ({s.epsilonRules} epsilon), longest name {s.longestName}, " ++
      s!"total name length {s.totalNameLength}"
  | .loaded s =>
    s!"loaded grammar: {s.terminals} terminals, {s.nonterminals} non-terminals, {s.rules} rules"
  | .nfaBuilt states transitions => s!"NFA: {states} states, {transitions} transitions"
  | .stateAdded state items => s!"new DFA state {state} with {items} items"
  | .dfaBuilt states transitions items =>
    s!"DFA: {states} states, {transitions} transitions over {items} items"
  | .itemsNumbered items => s!"{items} items after automaton construction"
  | .setsFound firstPasses followPasses =>
    s!"FIRST converged after {firstPasses} passes, FOLLOW after {followPasses}"
  | .conflictFound table conflict state symbol =>
    s!"{table.text} table: {conflict.text} conflict in state {state} on {symbol}"
  | .tableFilled table rows columns conflicts =>
    s!"{table.text} table: {rows} rows x {columns} columns, {conflicts} conflicts"
  | .diffFilled cells => s!"diff table: {cells} non-empty cells"
  | .finished states lr0Conflicts slr1Conflicts =>
    s!"{states} DFA states, {lr0Conflicts} LR(0) conflicts, {slr1Conflicts} SLR(1) conflicts"

/-- The notes on the states of an automaton. -/
def ofStates (states : Array Dfa.State) : List Event :=
  states.toList.zipIdx.map fun (state, id) => .stateAdded id state.items.size

/-- The notes on a filled table: its conflicts and then its size. -/
def ofTable (g : Grammar) (table : Table) : List Event :=
  let conflicts := table.conflicts
  conflicts.map (fun c => .conflictFound table.kind c.kind c.state (g.name c.symbol)) ++
    [.tableFilled table.kind table.height table.shape.width conflicts.length]

end Event

/-- Notes in the order in which they were made. -/
abbrev Journal := List Event

/-- The notes of a level up to `rank`. Nothing is shown at rank zero. -/
def Journal.upTo (journal : Journal) (rank : Nat) : Journal :=
  journal.filter (·.level.rank ≤ rank)

end ShiftReduce
