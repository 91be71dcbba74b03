/-!
# Bounds on stores

Every store that grows while tables are built can be given an upper bound. Without a bound a
store grows freely.
-/

namespace ShiftReduce

/-- The stores that can be bounded. -/
inductive Store where
  | symbols
  | rules
  | items
  | states
  | transitions
  | nameLength
  deriving DecidableEq

/-- What a store holds, in the words of a message. -/
def Store.text : Store → String
  | .symbols => "symbols"
  | .rules => "rules"
  | .items => "items"
  | .states => "states"
  | .transitions => "transitions"
  | .nameLength => "characters in a symbol name"

/-- Upper bounds on the stores. A store without a bound is unlimited. -/
structure Bounds where
  symbols : Option Nat := none
  rules : Option Nat := none
  items : Option Nat := none
  states : Option Nat := none
  transitions : Option Nat := none
  nameLength : Option Nat := none
  deriving DecidableEq

namespace Bounds

/-- No store is bounded. -/
def unbounded : Bounds := {}

/-- Bounds on all stores, for runs that must stay small. -/
def fixed : Bounds where
  symbols := some 512
  rules := some 512
  items := some 4096
  states := some 2048
  transitions := some 16384
  nameLength := some 128

/-- The bound on a store. -/
def bound (bounds : Bounds) : Store → Option Nat
  | .symbols => bounds.symbols
  | .rules => bounds.rules
  | .items => bounds.items
  | .states => bounds.states
  | .transitions => bounds.transitions
  | .nameLength => bounds.nameLength

end Bounds

end ShiftReduce
