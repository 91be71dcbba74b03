import ShiftReduce.Bounds
import ShiftReduce.Symbol
import ShiftReduce.Token

/-!
# Failures

Why a grammar cannot be read or its tables cannot be built. Conflicts in the tables are no
failures: they are part of the tables.
-/

namespace ShiftReduce

/-- The kinds of parse tables. -/
inductive TableKind where
  | lr0
  | slr1
  /-- The LR(0) actions that look-ahead removes. -/
  | diff
  deriving DecidableEq

/-- The kind of a table as messages name it. -/
def TableKind.text : TableKind → String
  | .lr0 => "Lr0"
  | .slr1 => "Slr1"
  | .diff => "Diff"

/-- What the reader of a grammar can wait for. -/
inductive Expectation where
  | head
  | arrow
  | alternative
  deriving DecidableEq

/-- The wording of an expectation. -/
def Expectation.text : Expectation → String
  | .head => "a lefthand non-terminal"
  | .arrow => "`->` or `:=`"
  | .alternative => "a righthand symbol, `|` or `;`"

/-- What can be wrong with a grammar. -/
inductive GrammarFault where
  | terminalOnLeft (text : String)
  | reservedName (name : String)
  | duplicateEpsilon (head : String)
  | unexpected (expected : Expectation) (found : Token.Kind)
  | lex (fault : LexFault)
  | emptyGrammar
  | undefinedNonterminal (name : String)
  deriving DecidableEq

/-- The wording of a fault in a grammar. -/
def GrammarFault.message : GrammarFault → String
  | .terminalOnLeft text =>
    "terminal " ++ text ++ " cannot appear on the lefthand side of a production"
  | .reservedName name => "`" ++ name ++ "` is reserved for the augmented start symbol"
  | .duplicateEpsilon head =>
    "more than one epsilon production in the group for `" ++ head ++ "`"
  | .unexpected expected found =>
    "expected " ++ expected.text ++ ", found " ++ found.describe
  | .lex fault => fault.message
  | .emptyGrammar => "grammar contains no productions"
  | .undefinedNonterminal name => "non-terminal `" ++ name ++ "` is used but never defined"

/-- Requests that do not fit together, such as an item of one grammar used with another. -/
inductive Mismatch where
  | noItem (rule : RuleId) (dot : Nat)
  | noState (item : Nat)
  | noStartItem
  | noSet (symbol : Symbol) (kind : SetKind)
  | noColumn (symbol : Symbol)
  | noRow (state : Nat)
  | noAction (symbol : Symbol)
  | diffKinds (first second : TableKind)
  | diffShapes
  deriving DecidableEq

/-- The wording of a mismatch. -/
def Mismatch.message : Mismatch → String
  | .noItem rule dot =>
    "no item for rule " ++ toString rule ++ " with dot at " ++ toString dot
  | .noState item => "item " ++ toString item ++ " has no NFA state"
  | .noStartItem => "augmented rule has no start item"
  | .noSet symbol kind => symbol.describe ++ " cannot own a " ++ kind.text ++ " set"
  | .noColumn symbol => symbol.describe ++ " has no column in the parse table"
  | .noRow state => "state " ++ toString state ++ " has no row in the parse table"
  | .noAction symbol => "DFA transition on " ++ symbol.describe
  | .diffKinds first second =>
    "diff needs an LR(0) and an SLR(1) table, got " ++ first.text ++ " and " ++ second.text
  | .diffShapes => "LR(0) and SLR(1) tables have different shapes"

/-- Why a request fails. -/
inductive Failure where
  /-- The grammar is faulty at a place. -/
  | grammar (location : Location) (fault : GrammarFault)
  /-- A store would grow past its bound. -/
  | full (store : Store) (bound : Nat)
  /-- The request does not fit what was built before. -/
  | mismatch (cause : Mismatch)
  /-- The request names an entry that does not exist. -/
  | dangling
  deriving DecidableEq

/-- The wording of a failure. -/
def Failure.message : Failure → String
  | .grammar location fault => location.text ++ ": " ++ fault.message
  | .full store bound =>
    "capacity exceeded: more than " ++ toString bound ++ " " ++ store.text
  | .mismatch cause => "internal error: " ++ cause.message
  | .dangling => "no such entry"

/-- A step that may fail, as a request that neither reads nor changes the state. -/
def liftStep {σ α : Type} (step : Except Failure α) : EStateM Failure σ α := fun state =>
  match step with
  | .ok a => .ok a state
  | .error failure => .error failure state

/-- Fails if a store with `needed` entries would be past its bound. -/
def Bounds.allow (bounds : Bounds) (store : Store) (needed : Nat) : Except Failure Unit :=
  match bounds.bound store with
  | some bound => if bound < needed then .error (.full store bound) else .ok ()
  | none => .ok ()

/-- The entry of a store with a given number. -/
def entry {α : Type} (store : Array α) (id : Nat) : Except Failure α :=
  match store[id]? with
  | some a => .ok a
  | none => .error .dangling

/-- A store with one of its entries changed. -/
def update {α : Type} (store : Array α) (id : Nat) (change : α → α) : Except Failure (Array α) :=
  if id < store.size then .ok (store.modify id change) else .error .dangling

end ShiftReduce
