import ShiftReduce.Dfa

/-!
# Actions and conflicts

A cell of a parse table lists the actions that are possible in a state on a symbol. A cell with
more than one action is a conflict.
-/

namespace ShiftReduce

/-- What a parser can do in a state on a symbol. -/
inductive Action where
  | shift (state : StateId)
  | reduce (rule : RuleId)
  | goto (state : StateId)
  | accept
  deriving DecidableEq

namespace Action

/-- Whether an action consumes an input symbol. -/
def isShift : Action → Bool
  | .shift _ => true
  | _ => false

/-- Whether an action ends a rule. To accept is to end the augmented rule. -/
def isReduction : Action → Bool
  | .reduce _ | .accept => true
  | _ => false

/-- An action in a cell. -/
def text : Action → String
  | .shift state => "s" ++ toString state
  | .reduce rule => "r" ++ toString rule
  | .goto state => "g" ++ toString state
  | .accept => "acc"

end Action

/-- The two kinds of conflicts. -/
inductive ConflictKind where
  | shiftReduce
  | reduceReduce
  deriving DecidableEq

/-- The name of a kind of conflicts. -/
def ConflictKind.text : ConflictKind → String
  | .shiftReduce => "shift/reduce"
  | .reduceReduce => "reduce/reduce"

/-- A cell with more than one action. -/
structure Conflict where
  state : StateId
  symbol : Symbol
  kind : ConflictKind
  actions : List Action
  deriving DecidableEq

/-- The conflict in a cell, if there is one. -/
def Conflict.ofCell? (state : StateId) (symbol : Symbol) (actions : List Action) :
    Option Conflict :=
  if actions.length < 2 then none
  else
    let kind := if actions.any (·.isShift) then .shiftReduce else .reduceReduce
    some ⟨state, symbol, kind, actions⟩

end ShiftReduce
