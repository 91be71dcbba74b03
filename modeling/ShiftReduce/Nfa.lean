import ShiftReduce.Item.Basic

/-!
# The item automaton

The non-deterministic automaton has one state for each item of the grammar, in the order of rules
and dots. An item moves on the symbol after its dot to the item with the dot advanced, and without
reading anything to the rules of a non-terminal after its dot.
-/

namespace ShiftReduce

/-- A transition between numbered states. -/
structure Edge where
  source : Nat
  symbol : Symbol
  target : Nat
  deriving DecidableEq

namespace Nfa

/-- A state holds an item and counts the transitions that enter and leave it. -/
structure State where
  id : ItemId
  item : Item
  inward : Nat := 0
  outward : Nat := 0
  deriving DecidableEq

/-- What the symbol after the dot of a state makes of it. -/
inductive StateKind where
  | shift
  | nonDeterministic
  | reduce
  deriving DecidableEq

end Nfa

/-- The item automaton of a grammar. Its transitions are in the order of their creation. -/
structure Nfa where
  states : Array Nfa.State := #[]
  edges : Array Edge := #[]
  start : Nat := 0
  deriving DecidableEq

/-- All items of a grammar in the order of rules and dots. -/
def Grammar.allItems (g : Grammar) : List Item :=
  g.rules.toList.zipIdx.flatMap fun (rule, id) =>
    (List.range (rule.length + 1)).map fun dot => ⟨id, dot⟩

namespace Nfa

/-- Adds a state for an item. -/
def addState (g : Grammar) (bounds : Bounds) (nfa : Nfa) (item : Item) : ItemM Nfa := do
  let id ← ItemTable.intern g item
  liftStep (bounds.allow .states (nfa.states.size + 1))
  return { nfa with states := nfa.states.push { id, item } }

/-- The state that holds an item. No other state holds it. -/
def stateOf (nfa : Nfa) (id : ItemId) : Except Failure Nat :=
  match nfa.states.findIdx? (·.id == id) with
  | some state => .ok state
  | none => .error (.mismatch (.noState id))

/-- Adds a transition and counts it at both ends. Different items and different rules of a
non-terminal ask for different transitions, so none is asked for twice. -/
def addEdge (bounds : Bounds) (nfa : Nfa) (edge : Edge) : Except Failure Nfa := do
  bounds.allow .transitions (nfa.edges.size + 1)
  let states ← update nfa.states edge.source fun s => { s with outward := s.outward + 1 }
  let states ← update states edge.target fun s => { s with inward := s.inward + 1 }
  return { nfa with states, edges := nfa.edges.push edge }

/-- Adds a transition from a state to the state of an item. -/
def connect (g : Grammar) (bounds : Bounds) (source : Nat) (symbol : Symbol) (nfa : Nfa)
    (item : Item) : ItemM Nfa := do
  let id ← ItemTable.intern g item
  let target ← liftStep (nfa.stateOf id)
  liftStep (nfa.addEdge bounds ⟨source, symbol, target⟩)

/-- Adds all transitions that leave a state. -/
def connectAll (g : Grammar) (bounds : Bounds) (nfa : Nfa) (source : State × Nat) :
    ItemM Nfa := do
  let (state, number) := source
  match ← liftStep (state.item.next? g) with
  | none => return nfa
  | some symbol =>
    let nfa ← nfa.connect g bounds number symbol state.item.advance
    match symbol with
    | .nonterminal n =>
      (← liftStep (g.rulesFor n)).foldlM
        (fun nfa rule => nfa.connect g bounds number .epsilon ⟨rule, 0⟩) nfa
    | _ => return nfa

/-- The state of the augmented rule with the dot at the start. -/
def startState (nfa : Nfa) : ItemM Nat := fun table =>
  match table.find? ⟨augmentedRule, 0⟩ with
  | some id => liftStep (nfa.stateOf id) table
  | none => .error (.mismatch .noStartItem) table

/-- The item automaton of a grammar. All items of the grammar are in the table afterwards. -/
def build (g : Grammar) (bounds : Bounds) : ItemM Nfa := do
  let nfa ← g.allItems.foldlM (addState g bounds) {}
  let start ← nfa.startState
  nfa.states.toList.zipIdx.foldlM (connectAll g bounds) { nfa with start }

/-- Paths through the automaton with the symbols that they read. -/
inductive Path (nfa : Nfa) : Nat → List Symbol → Nat → Prop
  | refl (state : Nat) : Path nfa state [] state
  | read {source middle target : Nat} {symbol : Symbol} {symbols : List Symbol} :
      ⟨source, symbol, middle⟩ ∈ nfa.edges → symbol ≠ .epsilon →
      Path nfa middle symbols target → Path nfa source (symbol :: symbols) target
  | epsilon {source middle target : Nat} {symbols : List Symbol} :
      ⟨source, .epsilon, middle⟩ ∈ nfa.edges →
      Path nfa middle symbols target → Path nfa source symbols target

/-- The transitions that leave a state. -/
def edgesFrom (nfa : Nfa) (state : Nat) : List Edge :=
  nfa.edges.toList.filter (·.source == state)

/-- The transition of a state on a symbol that is read. -/
def symbolEdge? (nfa : Nfa) (state : Nat) : Option Edge :=
  (nfa.edgesFrom state).find? (·.symbol != .epsilon)

/-- The transitions of a state that read nothing, in ascending order of the rules they lead to. -/
def epsilonEdges (nfa : Nfa) (state : Nat) : List Edge :=
  (nfa.edgesFrom state).filter (·.symbol == .epsilon)

/-- The kind of a state. -/
def kind (nfa : Nfa) (g : Grammar) (state : Nat) : Except Failure StateKind := do
  match ← (← entry nfa.states state).item.next? g with
  | none => return .reduce
  | some (.nonterminal _) => return .nonDeterministic
  | some _ => return .shift

end Nfa

end ShiftReduce
