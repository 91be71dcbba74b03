import ShiftReduce.Grammar.Reader
import ShiftReduce.Journal

/-!
# From a source to its tables

A compilation reads a grammar and builds everything that belongs to it: items, both automata, FIRST
and FOLLOW, and the three tables. The first failure ends it. The notes made up to there are kept.
-/

namespace ShiftReduce

/-- All that belongs to a grammar. -/
structure Compilation where
  grammar : Grammar
  items : ItemTable
  nfa : Nfa
  dfa : Dfa
  sets : Lookahead
  lr0 : Table
  slr1 : Table
  diff : Table
  deriving DecidableEq

namespace Compilation

/-- Whether the grammar needs no look-ahead. -/
def isLr0 (c : Compilation) : Bool := c.lr0.conflictCount == 0

/-- Whether FOLLOW is enough look-ahead for the grammar. -/
def isSlr1 (c : Compilation) : Bool := c.slr1.conflictCount == 0

end Compilation

/-- A run that makes notes and may fail. -/
abbrev RunM := EStateM Failure Journal

namespace RunM

/-- Makes a note. -/
def note (event : Event) : RunM Unit := modify (· ++ [event])

/-- Makes several notes. -/
def notes (events : List Event) : RunM Unit := modify (· ++ events)

end RunM

namespace Compilation

/-- Reads the grammar. -/
def readGrammar (options : ReadOptions) (source : String) : RunM Grammar := do
  let g ← liftStep (Grammar.ofSource options source)
  RunM.note (.read g.stats)
  RunM.note (.loaded g.stats)
  return g

/-- Builds the item automaton, and numbers all items. -/
def buildNfa (g : Grammar) (bounds : Bounds) : RunM (Nfa × ItemTable) := do
  match Nfa.build g bounds (.empty bounds) with
  | .error failure _ => throw failure
  | .ok nfa items =>
    RunM.note (.nfaBuilt nfa.states.size nfa.edges.size)
    return (nfa, items)

/-- Builds the canonical collection. Its states are noted also if it does not get finished. -/
def buildDfa (g : Grammar) (bounds : Bounds) (items : ItemTable) : RunM (Dfa × ItemTable) := do
  match Dfa.Growth.grow g bounds { items } with
  | .error failure growth =>
    RunM.notes (Event.ofStates growth.states)
    throw failure
  | .ok _ growth =>
    RunM.notes (Event.ofStates growth.states)
    RunM.note (.dfaBuilt growth.states.size growth.edges.size growth.items.size)
    RunM.note (.itemsNumbered growth.items.size)
    return (.ofGrowth growth, growth.items)

/-- Finds FIRST and FOLLOW. -/
def findSets (g : Grammar) : RunM Lookahead := do
  let sets ← liftStep (Lookahead.compute g)
  RunM.note (.setsFound sets.firstPasses sets.followPasses)
  return sets

/-- Notes what a filled table holds. -/
def noteTable (g : Grammar) (filled : Except Failure Table) : RunM Table := do
  let table ← liftStep filled
  RunM.notes (Event.ofTable g table)
  return table

/-- Compiles a source with notes. -/
def run (options : ReadOptions) (source : String) : RunM Compilation := do
  let grammar ← readGrammar options source
  let (nfa, items) ← buildNfa grammar options.bounds
  let (dfa, items) ← buildDfa grammar options.bounds items
  let sets ← findSets grammar
  let lr0 ← noteTable grammar (Table.lr0 grammar items dfa)
  let slr1 ← noteTable grammar (Table.slr1 grammar items dfa sets)
  let diff ← liftStep (Table.diff lr0 slr1)
  RunM.note (.diffFilled diff.filledCount)
  RunM.note (.finished dfa.states.size lr0.conflictCount slr1.conflictCount)
  return { grammar, items, nfa, dfa, sets, lr0, slr1, diff }

end Compilation

/-- Everything that belongs to the grammar of a source, or why it cannot be built. -/
def compile (options : ReadOptions) (source : String) : Except Failure Compilation :=
  match Compilation.run options source [] with
  | .ok c _ => .ok c
  | .error failure _ => .error failure

/-- The notes of a compilation, up to its failure if it fails. -/
def journal (options : ReadOptions) (source : String) : Journal :=
  match Compilation.run options source [] with
  | .ok _ notes => notes
  | .error _ notes => notes

end ShiftReduce
