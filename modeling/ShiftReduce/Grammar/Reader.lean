import ShiftReduce.Grammar.Basic
import ShiftReduce.SetFamily
import ShiftReduce.Token.Stream

/-!
# Reading a grammar

A grammar is written in groups `head -> alternative | alternative ;`. The reader goes through the
tokens once. It numbers symbols when they are first mentioned and adds a rule at the end of each
alternative. The first identifier also brings the augmented start symbol and rule 0. Whether every
non-terminal has a rule is known only after the last token.
-/

namespace ShiftReduce

/-- How a grammar is read. -/
structure ReadOptions where
  /-- The name of the augmented start symbol, which the source may not use. -/
  startName : String := "S'"
  /-- Whether the names of terminals keep their quotes. -/
  keepQuotes : Bool := false
  bounds : Bounds := .unbounded
  deriving DecidableEq

namespace Grammar

/-- Fails if there is no room for a symbol with the given name. -/
def allowSymbol (g : Grammar) (bounds : Bounds) (name : String) : Except Failure Unit := do
  bounds.allow .nameLength name.length
  bounds.allow .symbols (g.terminals.size + g.nonterminals.size + 1)

/-- Adds a terminal, which gets the next number. -/
def addTerminal (g : Grammar) (bounds : Bounds) (name : String) : Except Failure Grammar := do
  g.allowSymbol bounds name
  return { g with terminals := g.terminals.push { name } }

/-- Adds a non-terminal, which gets the next number. -/
def addNonterminal (g : Grammar) (bounds : Bounds) (name : String) (place : Location) :
    Except Failure Grammar := do
  g.allowSymbol bounds name
  return { g with nonterminals := g.nonterminals.push { name, firstUse := place } }

/-- Notes that a rule mentions a symbol in its body. -/
def noteUse (rule : RuleId) (g : Grammar) : Symbol → Except Failure Grammar
  | .terminal id => do
    let terminals ← update g.terminals id fun t => { t with uses := pushUnique t.uses rule }
    return { g with terminals }
  | .nonterminal id => do
    let nonterminals ← update g.nonterminals id fun n => { n with uses := pushUnique n.uses rule }
    return { g with nonterminals }
  | .epsilon | .endOfInput => return g

/-- Notes that a non-terminal heads a rule. -/
def noteHead (g : Grammar) (rule : RuleId) (head : NonterminalId) : Except Failure Grammar := do
  let nonterminals ← update g.nonterminals head fun n =>
    { n with rules := pushUnique n.rules rule }
  return { g with nonterminals }

/-- Adds a rule, which gets the next number. -/
def addRule (g : Grammar) (bounds : Bounds) (rule : Rule) : Except Failure Grammar := do
  let id := g.rules.size
  bounds.allow .rules (id + 1)
  let g ← rule.body.foldlM (noteUse id) (← g.noteHead id rule.head)
  return { g with rules := g.rules.push rule }

/-- The non-terminal that an identifier names, with the grammar that has it. -/
def internNonterminal (g : Grammar) (options : ReadOptions) (name : String) (place : Location) :
    Except Failure (NonterminalId × Grammar) := do
  if name = options.startName then
    throw (.grammar place (.reservedName name))
  match g.findNonterminal? name with
  | some id => return (id, g)
  | none =>
    if g.nonterminals.isEmpty then
      let g ← g.addNonterminal options.bounds options.startName place
      let g ← g.addNonterminal options.bounds name place
      let g ← g.addRule options.bounds ⟨start, [.nonterminal sourceStart, .endOfInput]⟩
      return (sourceStart, g)
    else
      return (g.nonterminals.size, ← g.addNonterminal options.bounds name place)

/-- The symbol that a quoted string names, with the grammar that has it. The text `$` is the end
of input. -/
def internTerminal (g : Grammar) (options : ReadOptions) (quote : Quote) (text : String) :
    Except Failure (Symbol × Grammar) := do
  if text = endOfInputName then
    return (.endOfInput, g)
  let name := if options.keepQuotes then quote.wrap text else text
  match g.findTerminal? name with
  | some id => return (.terminal id, g)
  | none => return (.terminal g.terminals.size, ← g.addTerminal options.bounds name)

end Grammar

namespace Reader

/-- A group that is being read: its head and its current alternative. -/
structure Group where
  head : NonterminalId
  name : String
  /-- The symbols of the alternative read so far, the latest first. -/
  read : List Symbol := []
  /-- Whether an alternative of the group was empty. -/
  sawEmpty : Bool := false
  deriving DecidableEq

/-- What the reader waits for. -/
inductive Phase where
  | head
  | arrow (group : Group)
  | alternative (group : Group)
  deriving DecidableEq

/-- The expectation of a phase. -/
def Phase.expectation : Phase → Expectation
  | .head => .head
  | .arrow _ => .arrow
  | .alternative _ => .alternative

end Reader

/-- A reader in the middle of a source. -/
structure Reader where
  grammar : Grammar := {}
  phase : Reader.Phase := .head
  deriving DecidableEq

namespace Reader

/-- Ends the current alternative at a place and adds its rule. A group may have one empty
alternative. -/
def endAlternative (options : ReadOptions) (g : Grammar) (group : Group) (place : Location) :
    Except Failure (Grammar × Group) := do
  if group.read.isEmpty && group.sawEmpty then
    throw (.grammar place (.duplicateEpsilon group.name))
  let g ← g.addRule options.bounds ⟨group.head, group.read.reverse⟩
  return (g, { group with read := [], sawEmpty := group.sawEmpty || group.read.isEmpty })

/-- Reads a token where a head is expected. -/
def readHead (options : ReadOptions) (g : Grammar) (token : Token) : Except Failure Reader :=
  match token.kind with
  | .identifier name => do
    let (head, grammar) ← g.internNonterminal options name token.location
    return { grammar, phase := .arrow { head, name } }
  | .quoted _ text => throw (.grammar token.location (.terminalOnLeft text))
  | kind => throw (.grammar token.location (.unexpected .head kind))

/-- Reads a token where an arrow is expected. -/
def readArrow (g : Grammar) (group : Group) (token : Token) : Except Failure Reader :=
  match token.kind with
  | .arrow _ => return { grammar := g, phase := .alternative group }
  | kind => throw (.grammar token.location (.unexpected .arrow kind))

/-- Reads a token inside an alternative. -/
def readAlternative (options : ReadOptions) (g : Grammar) (group : Group) (token : Token) :
    Except Failure Reader :=
  match token.kind with
  | .identifier name => do
    let (id, grammar) ← g.internNonterminal options name token.location
    let read := .nonterminal id :: group.read
    return { grammar, phase := .alternative { group with read } }
  | .quoted quote text => do
    let (symbol, grammar) ← g.internTerminal options quote text
    let read := symbol :: group.read
    return { grammar, phase := .alternative { group with read } }
  | .delimiter '|' => do
    let (grammar, group) ← endAlternative options g group token.location
    return { grammar, phase := .alternative group }
  | .delimiter ';' => do
    let (grammar, _) ← endAlternative options g group token.location
    return { grammar, phase := .head }
  | kind => throw (.grammar token.location (.unexpected .alternative kind))

/-- Reads one token. A piece of text that is no token is refused in every phase. -/
def read (options : ReadOptions) (reader : Reader) (token : Token) : Except Failure Reader :=
  match token.kind, reader.phase with
  | .invalid fault, _ => throw (.grammar token.location (.lex fault))
  | _, .head => readHead options reader.grammar token
  | _, .arrow group => readArrow reader.grammar group token
  | _, .alternative group => readAlternative options reader.grammar group token

/-- The grammar, when the end of the source is at the given place. -/
def finish (reader : Reader) (place : Location) : Except Failure Grammar :=
  match reader.phase with
  | .head =>
    if reader.grammar.nonterminals.isEmpty then
      throw (.grammar place .emptyGrammar)
    else match reader.grammar.nonterminals.find? (·.rules.isEmpty) with
      | some n => throw (.grammar n.firstUse (.undefinedNonterminal n.name))
      | none => return reader.grammar
  | phase => throw (.grammar place (.unexpected phase.expectation .endOfFile))

/-- Reads tokens up to the first end of file. The end of the list is an end of file too. -/
def readAll (options : ReadOptions) (reader : Reader) : List Token → Except Failure Grammar
  | [] => reader.finish Token.eof.location
  | token :: tokens =>
    if token.isEof then reader.finish token.location
    else do
      let reader ← reader.read options token
      reader.readAll options tokens

end Reader

/-- Takes at most `count` tokens from a stream, up to the first end of file, which is included. -/
def TokenStream.take {σ : Type} [TokenStream σ] : Nat → σ → List Token
  | 0, _ => []
  | count + 1, stream =>
    let (token, stream) := TokenStream.advance stream
    if token.isEof then [token] else token :: TokenStream.take count stream

namespace Grammar

/-- The grammar that a list of tokens spells. -/
def ofTokens (options : ReadOptions) (tokens : List Token) : Except Failure Grammar :=
  Reader.readAll options {} tokens

/-- The grammar that a stream of tokens spells. -/
def ofStream {σ : Type} [TokenStream σ] (options : ReadOptions) (stream : σ) :
    Except Failure Grammar :=
  ofTokens options (TokenStream.take (TokenStream.remaining stream + 1) stream)

/-- The grammar that a source spells. -/
def ofSource (options : ReadOptions) (source : String) : Except Failure Grammar :=
  ofStream options (Scanner.ofSource source)

end Grammar

end ShiftReduce
