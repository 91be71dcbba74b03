import ShiftReduce.Failure

/-!
# Grammars

A grammar has numbered terminals, non-terminals and rules. Rule 0 leads from the augmented start
symbol, non-terminal 0, to the first non-terminal of the source, non-terminal 1, and the end of
input. Symbols and rules refer to each other: a non-terminal knows the rules it heads, and every
symbol knows the rules whose bodies mention it.
-/

namespace ShiftReduce

/-- A terminal and the rules that mention it. -/
structure Terminal where
  name : String
  uses : List RuleId := []
  deriving DecidableEq

/-- A non-terminal, the place of its first mention, the rules it heads and the rules whose bodies
mention it. -/
structure Nonterminal where
  name : String
  firstUse : Location
  rules : List RuleId := []
  uses : List RuleId := []
  deriving DecidableEq

/-- A rule with its head and its body. -/
structure Rule where
  head : NonterminalId
  body : List Symbol
  deriving DecidableEq

namespace Rule

/-- The length of a rule is that of its body. -/
def length (rule : Rule) : Nat := rule.body.length

/-- Whether the body of a rule is empty. -/
def isEpsilon (rule : Rule) : Bool := rule.body.isEmpty

end Rule

/-- A grammar: its symbols and its rules. -/
structure Grammar where
  terminals : Array Terminal := #[]
  nonterminals : Array Nonterminal := #[]
  rules : Array Rule := #[]
  deriving DecidableEq

/-- The name of the empty string. -/
def epsilonName : String := "ε"

/-- The name of the end of input. -/
def endOfInputName : String := "$"

/-- The rule from the augmented start symbol. -/
def augmentedRule : RuleId := 0

/-- Sizes of a grammar. -/
structure GrammarStats where
  terminals : Nat
  nonterminals : Nat
  rules : Nat
  epsilonRules : Nat
  longestName : Nat
  totalNameLength : Nat
  deriving DecidableEq

namespace Grammar

/-- The augmented start symbol. -/
def start : NonterminalId := 0

/-- The first non-terminal of the source. -/
def sourceStart : NonterminalId := 1

/-- The rule with a given number. -/
def rule (g : Grammar) (id : RuleId) : Except Failure Rule :=
  entry g.rules id

/-- The rules headed by a non-terminal, in ascending order. -/
def rulesFor (g : Grammar) (id : NonterminalId) : Except Failure (List RuleId) := do
  return (← entry g.nonterminals id).rules

/-- The terminals of a grammar in order. -/
def terminalSymbols (g : Grammar) : List Symbol :=
  (List.range g.terminals.size).map .terminal

/-- The non-terminals of a grammar in order. -/
def nonterminalSymbols (g : Grammar) : List Symbol :=
  (List.range g.nonterminals.size).map .nonterminal

/-- The symbols that a parse table has a column for: the terminals, the end of input and the
non-terminals. -/
def columns (g : Grammar) : List Symbol :=
  g.terminalSymbols ++ .endOfInput :: g.nonterminalSymbols

/-- Every terminal of the grammar has a column, and no other one has. -/
@[simp]
theorem terminal_mem_columns {g : Grammar} {t : TerminalId} :
    .terminal t ∈ g.columns ↔ t < g.terminals.size := by
  simp [columns, terminalSymbols, nonterminalSymbols]

/-- Every non-terminal of the grammar has a column, and no other one has. -/
@[simp]
theorem nonterminal_mem_columns {g : Grammar} {n : NonterminalId} :
    .nonterminal n ∈ g.columns ↔ n < g.nonterminals.size := by
  simp [columns, terminalSymbols, nonterminalSymbols]

/-- The end of input has a column. -/
@[simp]
theorem endOfInput_mem_columns (g : Grammar) : .endOfInput ∈ g.columns := by
  simp [columns]

/-- The empty string has no column. -/
@[simp]
theorem epsilon_not_mem_columns (g : Grammar) : .epsilon ∉ g.columns := by
  simp [columns, terminalSymbols, nonterminalSymbols]

/-- The name of a symbol of the grammar. -/
def name? (g : Grammar) : Symbol → Option String
  | .terminal id => g.terminals[id]?.map (·.name)
  | .nonterminal id => g.nonterminals[id]?.map (·.name)
  | .epsilon => some epsilonName
  | .endOfInput => some endOfInputName

/-- The name of a symbol; a symbol of another grammar may have none. -/
def name (g : Grammar) (symbol : Symbol) : String :=
  (g.name? symbol).getD ""

/-- The terminal with a given name. No other terminal has it. -/
def findTerminal? (g : Grammar) (name : String) : Option TerminalId :=
  g.terminals.findIdx? (·.name == name)

/-- The non-terminal with a given name. No other non-terminal has it. -/
def findNonterminal? (g : Grammar) (name : String) : Option NonterminalId :=
  g.nonterminals.findIdx? (·.name == name)

/-- The symbol with a given name. The end of input comes before non-terminals and these before
terminals. -/
def find? (g : Grammar) (name : String) : Option Symbol :=
  if name = endOfInputName then some .endOfInput
  else match g.findNonterminal? name with
    | some id => some (.nonterminal id)
    | none => (g.findTerminal? name).map .terminal

/-- A rule as `A -> x y`, and a rule with an empty body as `A -> ε`. -/
def ruleText (g : Grammar) (rule : Rule) : String :=
  let body := if rule.body.isEmpty then [epsilonName] else rule.body.map g.name
  body.foldl (fun text name => text ++ " " ++ name) (g.name (.nonterminal rule.head) ++ " ->")

/-- The lengths of all names, in characters. -/
def nameLengths (g : Grammar) : List Nat :=
  (g.terminals.toList.map (·.name.length)) ++ (g.nonterminals.toList.map (·.name.length))

/-- The sizes of a grammar. -/
def stats (g : Grammar) : GrammarStats where
  terminals := g.terminals.size
  nonterminals := g.nonterminals.size
  rules := g.rules.size
  epsilonRules := g.rules.toList.countP (·.isEpsilon)
  longestName := g.nameLengths.foldl Nat.max 0
  totalNameLength := g.nameLengths.foldl (· + ·) 0

end Grammar

end ShiftReduce
