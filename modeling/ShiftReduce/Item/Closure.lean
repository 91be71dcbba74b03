import ShiftReduce.Item.Set

/-!
# Closure and goto

A set of items is closed if, with an item that has a non-terminal after its dot, it has all rules
of the non-terminal with the dot at the start. The closure is found by passes over the set until a
pass adds nothing. Goto advances the items that wait for a symbol and closes the result.
-/

namespace ShiftReduce

namespace ItemSet

/-- Adds the items of the given rules with the dot at the start. -/
def addRules (g : Grammar) (set : ItemSet) (rules : List RuleId) : ItemM ItemSet :=
  rules.foldlM (fun set rule => do return set.insert (← ItemTable.intern g ⟨rule, 0⟩)) set

/-- A set on the way to its closure, and the non-terminals whose rules it has already. -/
structure Closing where
  set : ItemSet
  done : List NonterminalId := []
  deriving DecidableEq

/-- Adds what an item asks for: the rules of the non-terminal after its dot. -/
def Closing.expand (g : Grammar) (closing : Closing) (id : ItemId) : ItemM Closing := do
  let item ← ItemTable.item id
  match ← liftStep (item.next? g) with
  | some (.nonterminal n) =>
    if closing.done.contains n then
      return closing
    else
      let rules ← liftStep (g.rulesFor n)
      return ⟨← closing.set.addRules g rules, n :: closing.done⟩
  | _ => return closing

/-- Adds what the items of a set ask for, in ascending order of the items. -/
def Closing.pass (g : Grammar) (closing : Closing) : ItemM Closing :=
  closing.set.ids.foldlM (Closing.expand g) closing

/-- Makes passes until one adds nothing, at most `fuel` of them. -/
def Closing.passes (g : Grammar) : (fuel : Nat) → Closing → ItemM Closing
  | 0, closing => return closing
  | fuel + 1, closing => do
    let larger ← closing.pass g
    if larger.done.length = closing.done.length then return larger else Closing.passes g fuel larger

/-- The closure of a set. Every pass but the last adds the rules of a non-terminal, so there are at
most as many as non-terminals and one more. -/
def closure (g : Grammar) (set : ItemSet) : ItemM ItemSet := do
  let closing ← Closing.passes g (g.nonterminals.size + 1) { set }
  return closing.set

/-- Adds the advanced form of an item if it waits for the symbol. -/
def addAdvanced (g : Grammar) (symbol : Symbol) (kernel : ItemSet) (id : ItemId) :
    ItemM ItemSet := do
  let item ← ItemTable.item id
  if (← liftStep (item.next? g)) = some symbol then
    return kernel.insert (← ItemTable.intern g item.advance)
  else
    return kernel

/-- The advanced forms of the items of a set that wait for a symbol. -/
def kernel (g : Grammar) (set : ItemSet) (symbol : Symbol) : ItemM ItemSet :=
  set.ids.foldlM (addAdvanced g symbol) empty

/-- The closed set that is reached from a set on a symbol. It is empty if no item waits for the
symbol. -/
def goto (g : Grammar) (set : ItemSet) (symbol : Symbol) : ItemM ItemSet := do
  let kernel ← set.kernel g symbol
  if kernel.isEmpty then return kernel else kernel.closure g

end ItemSet

end ShiftReduce
