import ShiftReduce.Lookahead
import ShiftReduce.Table.Basic

/-!
# LR(0) and SLR(1) tables

Both tables shift and go to where the automaton moves. In a state that has an item with its dot at
the end, the LR(0) table reduces on every input symbol and the SLR(1) table on those that can
follow the head of the rule. The difference of the two keeps, for states with a conflict, the
actions that look-ahead removes.
-/

namespace ShiftReduce

namespace Table

/-- The action of a transition. -/
def edgeAction (edge : Edge) : Except Failure Action :=
  match edge.symbol with
  | .terminal _ | .endOfInput => .ok (.shift edge.target)
  | .nonterminal _ => .ok (.goto edge.target)
  | .epsilon => .error (.mismatch (.noAction .epsilon))

/-- Adds the action of a transition. -/
def addEdge (table : Table) (edge : Edge) : Except Failure Table := do
  table.add edge.source edge.symbol (← edgeAction edge)

/-- The action that ends a rule. -/
def reduction (rule : RuleId) : Action :=
  if rule = augmentedRule then .accept else .reduce rule

/-- Adds an action to several cells of a row. -/
def addOn (state : StateId) (action : Action) (table : Table) (symbols : List Symbol) :
    Except Failure Table :=
  symbols.foldlM (fun table symbol => table.add state symbol action) table

/-- Adds the reduction of an item, if its dot is at the end, on the symbols that its rule allows. -/
def addItem (g : Grammar) (items : ItemTable) (allowed : RuleId → Except Failure (List Symbol))
    (state : StateId) (table : Table) (id : ItemId) : Except Failure Table := do
  let item ← items.get id
  if ← item.isReduction g then
    table.addOn state (reduction item.rule) (← allowed item.rule)
  else
    return table

/-- Adds the reductions of a state. -/
def addState (g : Grammar) (items : ItemTable) (allowed : RuleId → Except Failure (List Symbol))
    (table : Table) (state : Dfa.State × StateId) : Except Failure Table :=
  state.1.items.ids.foldlM (addItem g items allowed state.2) table

/-- The shape of the tables of a grammar and its automaton. -/
def shapeOf (g : Grammar) (dfa : Dfa) : Shape :=
  ⟨dfa.states.size, g.terminals.size, g.nonterminals.size⟩

/-- A table with all transitions, and with reductions on the symbols that their rules allow. -/
def fill (kind : TableKind) (g : Grammar) (items : ItemTable) (dfa : Dfa)
    (allowed : RuleId → Except Failure (List Symbol)) : Except Failure Table := do
  let table ← dfa.edges.toList.foldlM addEdge (empty kind (shapeOf g dfa))
  dfa.states.toList.zipIdx.foldlM (addState g items allowed) table

/-- The LR(0) table: reductions on all input symbols. -/
def lr0 (g : Grammar) (items : ItemTable) (dfa : Dfa) : Except Failure Table :=
  fill .lr0 g items dfa fun _ => .ok (shapeOf g dfa).inputs

/-- The symbols on which the SLR(1) table reduces by a rule: those in FOLLOW of its head, and for
the augmented rule the end of input. -/
def followInputs (g : Grammar) (sets : Lookahead) (rule : RuleId) :
    Except Failure (List Symbol) := do
  if rule = augmentedRule then
    return [.endOfInput]
  else
    return (← sets.follow (.nonterminal (← g.rule rule).head)).filter (·.isInput)

/-- The SLR(1) table: reductions on the symbols that can follow. -/
def slr1 (g : Grammar) (items : ItemTable) (dfa : Dfa) (sets : Lookahead) :
    Except Failure Table :=
  fill .slr1 g items dfa (followInputs g sets)

/-- The actions of a row that another row does not have, if the row has a conflict. -/
def removedFromRow (row other : Array (List Action)) : Array (List Action) :=
  if row.all (·.length < 2) then row.map fun _ => []
  else row.zipWith (fun actions others => actions.filter (!others.contains ·)) other

/-- The actions of an LR(0) table that an SLR(1) table of the same shape does not have, in rows
where the LR(0) table has a conflict. -/
def diff (lr0 slr1 : Table) : Except Failure Table :=
  if lr0.kind ≠ .lr0 ∨ slr1.kind ≠ .slr1 then
    .error (.mismatch (.diffKinds lr0.kind slr1.kind))
  else if lr0.shape ≠ slr1.shape then .error (.mismatch .diffShapes)
  else .ok { kind := .diff, shape := lr0.shape,
             cells := lr0.cells.zipWith removedFromRow slr1.cells }

end Table

end ShiftReduce
