/-!
# Symbols

Terminals and non-terminals are numbered separately, in the order in which a grammar mentions
them. The empty string and the end of the input are symbols of their own.
-/

namespace ShiftReduce

/-- The number of a terminal. -/
abbrev TerminalId := Nat

/-- The number of a non-terminal. -/
abbrev NonterminalId := Nat

/-- The number of a rule. -/
abbrev RuleId := Nat

/-- Numbers of symbols, rules, items and states are taken modulo this one. -/
def idModulus : Nat := Nat.pow 2 32

/-- The number that a given number stands for when it names a symbol, a rule, an item or a
state. -/
def idOfNumber (n : Nat) : Nat := n % idModulus

/-- A symbol of a grammar. -/
inductive Symbol where
  | terminal (id : TerminalId)
  | nonterminal (id : NonterminalId)
  | epsilon
  | endOfInput
  deriving DecidableEq

/-- The sets of symbols that belong to a symbol. -/
inductive SetKind where
  | first
  | follow
  /-- FIRST of what stands after an occurrence of the symbol. -/
  | suffixFirst
  deriving DecidableEq

/-- The set kind as messages name it. -/
def SetKind.text : SetKind → String
  | .first => "SetKinds(FIRST)"
  | .follow => "SetKinds(FOLLOW)"
  | .suffixFirst => "SetKinds(SUFFIX_FIRST)"

namespace Symbol

/-- How messages about the inner state name a symbol. -/
def describe : Symbol → String
  | .terminal id => "Terminal(TerminalId(" ++ toString id ++ "))"
  | .nonterminal id => "NonTerminal(NonTerminalId(" ++ toString id ++ "))"
  | .epsilon => "Epsilon"
  | .endOfInput => "EndOfInput"

/-- Whether a symbol is a terminal. -/
def isTerminal : Symbol → Bool
  | .terminal _ => true
  | _ => false

/-- Whether a symbol is a non-terminal. -/
def isNonterminal : Symbol → Bool
  | .nonterminal _ => true
  | _ => false

/-- Whether a symbol can stand in an input: terminals and the end of input. -/
def isInput : Symbol → Bool
  | .terminal _ | .endOfInput => true
  | _ => false

/-- The number of a non-terminal. -/
def nonterminal? : Symbol → Option NonterminalId
  | .nonterminal id => some id
  | _ => none

/-- Which sets a symbol has. A terminal has its FIRST set, a non-terminal all sets. -/
def owns : Symbol → SetKind → Bool
  | .terminal _, .first => true
  | .nonterminal _, _ => true
  | _, _ => false

/-- The place of a kind of symbols in the order of symbols. -/
def rank : Symbol → Nat
  | .terminal _ => 0
  | .nonterminal _ => 1
  | .epsilon => 2
  | .endOfInput => 3

/-- The number of a symbol among those of its kind. -/
def number : Symbol → Nat
  | .terminal id | .nonterminal id => id
  | _ => 0

/-- The order of symbols: terminals, non-terminals, the empty string, the end of input, each kind
by number. -/
def before (x y : Symbol) : Bool :=
  x.rank < y.rank || (x.rank == y.rank && x.number < y.number)

/-- Puts a symbol into a list in the order of symbols, once. -/
def insertSorted (x : Symbol) : List Symbol → List Symbol
  | [] => [x]
  | y :: ys => if x = y then y :: ys else if x.before y then x :: y :: ys
    else y :: insertSorted x ys

end Symbol

end ShiftReduce
