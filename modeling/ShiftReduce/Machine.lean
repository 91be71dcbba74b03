import ShiftReduce.Derivation
import ShiftReduce.Table.Basic

/-!
# The shift-reduce machine

A parse table drives a machine with a stack of states. The next input symbol, or the end of input
when the input is used up, chooses a cell in the row of the top state, and any action of the cell
may be taken. A table without conflicts makes the machine deterministic.
-/

namespace ShiftReduce

/-- A configuration of the machine: the stack with its top first, the symbols consumed so far and
those still to come. -/
structure Machine where
  stack : List StateId
  consumed : List Symbol := []
  input : List Symbol
  deriving DecidableEq

namespace Machine

/-- The machine before its first step. -/
def start (input : List Symbol) : Machine where
  stack := [Dfa.start]
  input

/-- The symbol that chooses the column. -/
def lookahead (m : Machine) : Symbol := m.input.headD .endOfInput

/-- The actions that the table offers. -/
def actions (table : Table) (m : Machine) : List Action :=
  match m.stack with
  | [] => []
  | top :: _ => table.cell top m.lookahead

/-- One step of the machine. -/
inductive Step (g : Grammar) (table : Table) : Machine → Machine → Prop
  | shift {stack : List StateId} {consumed rest : List Symbol} {symbol : Symbol}
      {target : StateId} :
      .shift target ∈ actions table ⟨stack, consumed, symbol :: rest⟩ →
      Step g table ⟨stack, consumed, symbol :: rest⟩ ⟨target :: stack, consumed ++ [symbol], rest⟩
  | reduce {popped : List StateId} {top target : StateId} {below : List StateId}
      {consumed input : List Symbol} {id : RuleId} {rule : Rule} :
      .reduce id ∈ actions table ⟨popped ++ top :: below, consumed, input⟩ →
      g.rules[id]? = some rule → popped.length = rule.length →
      .goto target ∈ table.cell top (.nonterminal rule.head) →
      Step g table ⟨popped ++ top :: below, consumed, input⟩
        ⟨target :: top :: below, consumed, input⟩

/-- Any number of steps. -/
inductive Run (g : Grammar) (table : Table) : Machine → Machine → Prop
  | refl (m : Machine) : Run g table m m
  | step {a b c : Machine} : Step g table a b → Run g table b c → Run g table a c

/-- Whether the machine can accept in a configuration. -/
def CanAccept (table : Table) (m : Machine) : Prop := .accept ∈ m.actions table

/-- Whether the machine can consume an input and accept. -/
def Accepts (g : Grammar) (table : Table) (input : List Symbol) : Prop :=
  ∃ m, Run g table (start input) m ∧ m.input = [] ∧ m.CanAccept table

end Machine

end ShiftReduce
