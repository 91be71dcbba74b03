import ShiftReduce.Grammar.Basic
import ShiftReduce.SetFamily

/-!
# FIRST and FOLLOW

FIRST of a string of symbols holds the symbols that can start what it derives, and the empty
string if it derives that. FOLLOW of a non-terminal holds the symbols that can come after it. Both
are found by passes over the rules until a pass changes nothing. The elements of a set are in the
order in which they were found.
-/

namespace ShiftReduce

/-- Makes passes until one changes nothing, at most `fuel` of them, and counts them. -/
def passes {α : Type} [DecidableEq α] (pass : α → Except Failure α) :
    (fuel : Nat) → α → Except Failure (Nat × α)
  | 0, a => return (0, a)
  | fuel + 1, a => do
    let b ← pass a
    if b = a then return (1, a)
    let (count, c) ← passes pass fuel b
    return (count + 1, c)

/-- Puts elements at the end of a set that the family has. -/
def SetFamily.extend (family : SetFamily Symbol) (set : Nat) (xs : List Symbol) :
    Except Failure (SetFamily Symbol) :=
  if set < family.size then .ok (family.insertAll set xs) else .error .dangling

/-- The FIRST sets of the terminals and of the non-terminals. -/
structure FirstSets where
  terminals : SetFamily Symbol
  nonterminals : SetFamily Symbol
  deriving DecidableEq

namespace FirstSets

/-- FIRST sets in which only those of terminals are known. -/
def start (g : Grammar) : FirstSets where
  terminals := ⟨(g.terminalSymbols.map ([·])).toArray⟩
  nonterminals := .ofSize g.nonterminals.size

/-- The FIRST set of a terminal or a non-terminal. -/
def get (sets : FirstSets) : Symbol → Except Failure (List Symbol)
  | .terminal t => entry sets.terminals.sets t
  | .nonterminal n => entry sets.nonterminals.sets n
  | symbol => .error (.mismatch (.noSet symbol .first))

/-- FIRST of one symbol. The end of input starts with itself. -/
def ofSymbol (sets : FirstSets) : Symbol → Except Failure (List Symbol)
  | .endOfInput => .ok [.endOfInput]
  | symbol => sets.get symbol

/-- FIRST of a string of symbols added to what is known already. -/
def addSequence (sets : FirstSets) (known : List Symbol) :
    List Symbol → Except Failure (List Symbol)
  | [] => .ok (known ++ [.epsilon])
  | symbol :: symbols => do
    let firsts ← sets.ofSymbol symbol
    let known := (firsts.filter (· != .epsilon)).foldl pushUnique known
    if firsts.contains .epsilon then sets.addSequence known symbols else return known

/-- FIRST of a string of symbols. The empty string comes last. -/
def ofSequence (sets : FirstSets) (symbols : List Symbol) : Except Failure (List Symbol) :=
  sets.addSequence [] symbols

/-- Adds FIRST of the body of a rule to FIRST of its head. -/
def addRule (sets : FirstSets) (rule : Rule) : Except Failure FirstSets := do
  let firsts ← sets.ofSequence rule.body
  return { sets with nonterminals := ← sets.nonterminals.extend rule.head firsts }

/-- Adds to the FIRST sets what every rule asks for. -/
def pass (g : Grammar) (sets : FirstSets) : Except Failure FirstSets :=
  g.rules.toList.foldlM addRule sets

end FirstSets

/-- More passes than elements that all sets together can hold. -/
def Grammar.passBound (g : Grammar) : Nat :=
  g.nonterminals.size * (g.terminals.size + 2) + 1

namespace FollowSets

/-- FOLLOW sets in which the end of input follows the start symbols. -/
def start (g : Grammar) : Except Failure (SetFamily Symbol) := do
  let follows ← (SetFamily.ofSize g.nonterminals.size).extend Grammar.start [.endOfInput]
  follows.extend Grammar.sourceStart [.endOfInput]

/-- Adds to FOLLOW of a non-terminal what comes after an occurrence of it in a rule with the given
head: FIRST of the rest of the body, and FOLLOW of the head if the rest can vanish. -/
def addOccurrence (firsts : FirstSets) (head n : NonterminalId) (rest : List Symbol)
    (follows : SetFamily Symbol) : Except Failure (SetFamily Symbol) := do
  let suffix ← firsts.ofSequence rest
  let follows ← follows.extend n (suffix.filter (· != .epsilon))
  if suffix.contains .epsilon then
    follows.extend n (← entry follows.sets head)
  else
    return follows

/-- Goes through the occurrences of non-terminals in a body. -/
def addBody (firsts : FirstSets) (head : NonterminalId) :
    List Symbol → SetFamily Symbol → Except Failure (SetFamily Symbol)
  | [], follows => return follows
  | .nonterminal n :: rest, follows => do
    addBody firsts head rest (← addOccurrence firsts head n rest follows)
  | _ :: rest, follows => addBody firsts head rest follows

/-- Adds to the FOLLOW sets what every rule asks for. -/
def pass (g : Grammar) (firsts : FirstSets) (follows : SetFamily Symbol) :
    Except Failure (SetFamily Symbol) :=
  g.rules.toList.foldlM (fun follows rule => addBody firsts rule.head rule.body follows) follows

end FollowSets

/-- The FIRST and FOLLOW sets of a grammar, and the number of passes that found them. -/
structure Lookahead where
  firsts : FirstSets
  follows : SetFamily Symbol
  firstPasses : Nat
  followPasses : Nat
  deriving DecidableEq

namespace Lookahead

/-- The FIRST and FOLLOW sets of a grammar. -/
def compute (g : Grammar) : Except Failure Lookahead := do
  let (firstPasses, firsts) ← passes (FirstSets.pass g) g.passBound (.start g)
  let (followPasses, follows) ←
    passes (FollowSets.pass g firsts) g.passBound (← FollowSets.start g)
  return { firsts, follows, firstPasses, followPasses }

/-- The FIRST set of a symbol that has one. -/
def first (sets : Lookahead) (symbol : Symbol) : Except Failure (List Symbol) :=
  sets.firsts.get symbol

/-- The FOLLOW set of a symbol that has one. -/
def follow (sets : Lookahead) : Symbol → Except Failure (List Symbol)
  | .nonterminal n => entry sets.follows.sets n
  | symbol => .error (.mismatch (.noSet symbol .follow))

/-- Whether a non-terminal derives the empty string. -/
def nullable (sets : Lookahead) (n : NonterminalId) : Except Failure Bool := do
  return (← entry sets.firsts.nonterminals.sets n).contains .epsilon

/-- FIRST of a string of symbols. -/
def firstOfSequence (sets : Lookahead) (symbols : List Symbol) :
    Except Failure (List Symbol) :=
  sets.firsts.ofSequence symbols

end Lookahead

end ShiftReduce
