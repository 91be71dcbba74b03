import ShiftReduce.Dfa

/-!
# Diagrams of the automata

A diagram has labelled nodes, numbered from zero, and labelled edges. It can be written in the
notation of graph drawing tools. There a label stands in double quotes, quotes and backslashes are
escaped, and a line break is `\l`.
-/

namespace ShiftReduce

/-- A directed graph with labels. -/
structure Diagram where
  nodes : List String
  edges : List (Nat × String × Nat)
  deriving DecidableEq

namespace Diagram

/-- A transition labelled with the name of its symbol. -/
def edge (g : Grammar) (edge : Edge) : Nat × String × Nat :=
  (edge.source, g.name edge.symbol, edge.target)

/-- The item automaton with items as labels. -/
def ofNfa (g : Grammar) (nfa : Nfa) : Except Failure Diagram := do
  let nodes ← nfa.states.toList.mapM (·.item.text g)
  return ⟨nodes, nfa.edges.toList.map (edge g)⟩

/-- The label of a state of the canonical collection: its number and its items, one a line. -/
def stateLabel (g : Grammar) (items : ItemTable) (state : Dfa.State × StateId) :
    Except Failure String := do
  let texts ← state.1.items.ids.mapM fun id => do (← items.get id).text g
  return texts.foldl (fun label text => label ++ "\n" ++ text) ("I" ++ toString state.2)

/-- The canonical collection with the items of the states as labels. -/
def ofDfa (g : Grammar) (items : ItemTable) (dfa : Dfa) : Except Failure Diagram := do
  let nodes ← dfa.states.toList.zipIdx.mapM (stateLabel g items)
  return ⟨nodes, dfa.edges.toList.map (edge g)⟩

/-- A character inside a quoted label. -/
def escapeChar (c : Char) : String :=
  if c = '"' ∨ c = '\\' then "\\" ++ c.toString
  else if c = '\n' then "\\l"
  else c.toString

/-- A label with its keyword. -/
def labelText (label : String) : String :=
  "[ label = \"" ++ String.join (label.toList.map escapeChar) ++ "\" ]"

/-- The diagram in the notation of graph drawing tools: nodes first, then edges. -/
def text (diagram : Diagram) : String :=
  let nodes := diagram.nodes.zipIdx.map fun (label, id) =>
    s!"    {id} {labelText label}\n"
  let edges := diagram.edges.map fun (source, label, target) =>
    s!"    {source} -> {target} {labelText label}\n"
  "digraph \x7b\n" ++ String.join (nodes ++ edges) ++ "\x7d\n"

end Diagram

end ShiftReduce
