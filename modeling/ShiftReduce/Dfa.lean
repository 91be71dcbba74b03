import ShiftReduce.Item.Closure
import ShiftReduce.Nfa

/-!
# The canonical collection

The deterministic automaton has closed sets of items as states. State 0 is the closure of the
augmented rule with the dot at the start. States are expanded in the order of their creation, each
on the symbols its items wait for, and a set of items that was met before is not a new state.
-/

namespace ShiftReduce

/-- The number of a state of the canonical collection. -/
abbrev StateId := Nat

namespace Dfa

/-- A closed set of items, the symbols that its items wait for, in the order of symbols, and the
number of items with the dot at the end. -/
structure State where
  items : ItemSet
  next : List Symbol
  reductions : Nat
  deriving DecidableEq

/-- What a state can do: shift, reduce by one rule or by several. -/
inductive StateKind where
  | shiftOnly
  | singleReduction
  | multiReduction
  | shiftSingleReduction
  | shiftMultiReduction
  deriving DecidableEq

/-- Whether a state can only reduce. -/
def StateKind.isPureReduction : StateKind → Bool
  | .singleReduction | .multiReduction => true
  | _ => false

/-- Whether a parser without look-ahead cannot decide in a state. -/
def StateKind.isInadequate : StateKind → Bool
  | .multiReduction | .shiftSingleReduction | .shiftMultiReduction => true
  | _ => false

namespace State

/-- Takes note of an item of a state. -/
def addItem (g : Grammar) (table : ItemTable) (state : State) (id : ItemId) :
    Except Failure State := do
  match ← (← table.get id).next? g with
  | some symbol => return { state with next := symbol.insertSorted state.next }
  | none => return { state with reductions := state.reductions + 1 }

/-- The state with a given set of items. -/
def ofSet (g : Grammar) (table : ItemTable) (set : ItemSet) : Except Failure State :=
  set.ids.foldlM (addItem g table) ⟨set, [], 0⟩

/-- The kind of a state. -/
def kind (state : State) : StateKind :=
  match state.items.size - state.reductions, state.reductions with
  | _, 0 => .shiftOnly
  | 0, 1 => .singleReduction
  | 0, _ => .multiReduction
  | _, 1 => .shiftSingleReduction
  | _, _ => .shiftMultiReduction

end State

/-- What there is of the automaton while it grows. -/
structure Growth where
  items : ItemTable
  states : Array State := #[]
  edges : Array Edge := #[]
  deriving DecidableEq

/-- Steps of the construction. What was added stays when a step fails. -/
abbrev GrowM := EStateM Failure Growth

/-- A step that only adds items. -/
def GrowM.onItems {α : Type} (request : ItemM α) : GrowM α := fun ⟨items, states, edges⟩ =>
  match request items with
  | .ok a items => .ok a ⟨items, states, edges⟩
  | .error failure items => .error failure ⟨items, states, edges⟩

namespace Growth

/-- The first state with a given set of items. There is no other one, and a set decides the symbols
and the number of complete items of its state, so that nothing but the sets is compared. -/
def find? (growth : Growth) (set : ItemSet) : Option StateId :=
  growth.states.findIdx? (·.items == set)

/-- Adds a state. -/
def addState (growth : Growth) (state : State) : Growth :=
  { growth with states := growth.states.push state }

/-- Adds a transition. -/
def addEdge (growth : Growth) (edge : Edge) : Growth :=
  { growth with edges := growth.edges.push edge }

/-- The state with a given set of items, which is added if there is none. -/
def intern (g : Grammar) (bounds : Bounds) (set : ItemSet) : GrowM StateId := do
  let growth ← get
  match growth.find? set with
  | some id => return id
  | none =>
    let state ← liftStep (State.ofSet g growth.items set)
    liftStep (bounds.allow .states (growth.states.size + 1))
    modify (·.addState state)
    return growth.states.size

/-- Adds the transition of a state on a symbol. A state lists every symbol once, so that there is no
transition on the symbol yet. -/
def expandOn (g : Grammar) (bounds : Bounds) (source : StateId) (set : ItemSet)
    (symbol : Symbol) : GrowM Unit := do
  let reached ← GrowM.onItems (set.goto g symbol)
  if reached.isEmpty then
    return
  let target ← intern g bounds reached
  liftStep (bounds.allow .transitions ((← get).edges.size + 1))
  modify (·.addEdge ⟨source, symbol, target⟩)

/-- Expands the states from a given one on, at most `fuel` of them. -/
def expandFrom (g : Grammar) (bounds : Bounds) : (fuel : Nat) → StateId → GrowM Unit
  | 0, _ => return
  | fuel + 1, source => do
    match (← get).states[source]? with
    | none => return
    | some state =>
      state.next.forM (expandOn g bounds source state.items)
      expandFrom g bounds fuel (source + 1)

/-- The closed set of the rules of the augmented start symbol. -/
def startSet (g : Grammar) : ItemM ItemSet := do
  let kernel ← ItemSet.empty.addRules g (← liftStep (g.rulesFor Grammar.start))
  kernel.closure g

/-- Adds the start state and expands all states. A grammar with `n` items has less than `2 ^ n`
states. -/
def grow (g : Grammar) (bounds : Bounds) : GrowM Unit := do
  let set ← GrowM.onItems (startSet g)
  let start ← intern g bounds set
  expandFrom g bounds (Nat.pow 2 g.allItems.length) start

end Growth

end Dfa

/-- The canonical collection of a grammar. Its transitions are in the order of their creation. -/
structure Dfa where
  states : Array Dfa.State
  edges : Array Edge
  deriving DecidableEq

namespace Dfa

/-- The finished automaton. -/
def ofGrowth (growth : Growth) : Dfa := ⟨growth.states, growth.edges⟩

/-- The canonical collection of a grammar. -/
def build (g : Grammar) (bounds : Bounds) : ItemM Dfa := fun items =>
  match Growth.grow g bounds { items } with
  | .ok _ growth => .ok (ofGrowth growth) growth.items
  | .error failure growth => .error failure growth.items

/-- The start state. -/
def start : StateId := 0

/-- The state that a state moves to on a symbol, on which it has at most one transition. -/
def move? (dfa : Dfa) (state : StateId) (symbol : Symbol) : Option StateId :=
  (dfa.edges.find? fun edge => edge.source == state && edge.symbol == symbol).map (·.target)

/-- The state that a string of symbols leads to. -/
def walk? (dfa : Dfa) (state : StateId) (symbols : List Symbol) : Option StateId :=
  symbols.foldlM dfa.move? state

/-- The transitions that leave a state. -/
def edgesFrom (dfa : Dfa) (state : StateId) : List Edge :=
  dfa.edges.toList.filter (·.source == state)

/-- The first state that holds an item. -/
def find? (dfa : Dfa) (id : ItemId) : Option StateId :=
  dfa.states.findIdx? (·.items.contains id)

end Dfa

end ShiftReduce
