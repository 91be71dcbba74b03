import ShiftReduce.Compilation
import ShiftReduce.Report.Diagram
import ShiftReduce.Report.Json
import ShiftReduce.Report.Layout

/-!
# Command line

The program reads one grammar file and prints its tables as text or JSON, or one of its automata as
a diagram. Options are long words with their value after an equals sign or in the next word. A word
that starts with a hyphen is an option, not a value, unless it is a single hyphen or stands after
the word `--`.
-/

namespace ShiftReduce.CommandLine

/-- The automata that can be printed. -/
inductive AutomatonChoice where
  | nfa
  | dfa
  deriving DecidableEq

/-- What the words of a command line ask for. An option that was not given is `none` or `false`. -/
structure Request where
  file : Option String := none
  tables : Option (List TableKind) := none
  automaton : Option AutomatonChoice := none
  startName : Option String := none
  json : Bool := false
  keepQuotes : Bool := false
  fixedCapacity : Bool := false
  verbosity : Nat := 0
  deriving DecidableEq

/-- The options without a value. -/
inductive Flag where
  | json
  | keepQuotes
  | fixedCapacity
  | verbose
  deriving DecidableEq

/-- The options with a value. -/
inductive Setting where
  | table
  | dot
  | startName
  deriving DecidableEq

/-- The flag with a given name. -/
def flag? : String → Option Flag
  | "json" => some .json
  | "keep-quotes" => some .keepQuotes
  | "fixed-capacity" => some .fixedCapacity
  | "verbose" => some .verbose
  | _ => none

/-- The setting with a given name. -/
def setting? : String → Option Setting
  | "table" => some .table
  | "dot" => some .dot
  | "start-name" => some .startName
  | _ => none

/-- The tables that a value names. -/
def tables? : String → Option (List TableKind)
  | "lr0" => some [.lr0]
  | "slr1" => some [.slr1]
  | "diff" => some [.diff]
  | "all" => some [.lr0, .slr1, .diff]
  | _ => none

/-- The automaton that a value names. -/
def automaton? : String → Option AutomatonChoice
  | "nfa" => some .nfa
  | "dfa" => some .dfa
  | _ => none

namespace Request

/-- Sets a flag. Only the verbosity may be raised more than once. -/
def setFlag (request : Request) : Flag → Option Request
  | .json => if request.json then none else some { request with json := true }
  | .keepQuotes => if request.keepQuotes then none else some { request with keepQuotes := true }
  | .fixedCapacity =>
    if request.fixedCapacity then none else some { request with fixedCapacity := true }
  | .verbose => some { request with verbosity := request.verbosity + 1 }

/-- Gives a setting its value. A setting may be given once. -/
def setValue (request : Request) (setting : Setting) (value : String) : Option Request :=
  match setting with
  | .table => do
    let tables ← tables? value
    if request.tables.isSome then none else some { request with tables := some tables }
  | .dot => do
    let automaton ← automaton? value
    if request.automaton.isSome then none else some { request with automaton := some automaton }
  | .startName =>
    if request.startName.isSome then none else some { request with startName := some value }

/-- Sets the file. There is only one, and its name is not empty. -/
def setFile (request : Request) (file : String) : Option Request :=
  if request.file.isSome || file.isEmpty then none else some { request with file := some file }

/-- Takes the letters of a word such as `-vv`. -/
def setLetters (request : Request) : List Char → Option Request
  | [] => some request
  | 'v' :: letters => do (← request.setFlag .verbose).setLetters letters
  | _ => none

end Request

/-- A word of a command line. -/
inductive Word where
  /-- The word `--`, after which all words are files. -/
  | separator
  /-- A long option, with the value after an equals sign if there is one. -/
  | long (name : String) (value : Option String)
  /-- The letters after a single hyphen. -/
  | short (letters : List Char)
  | plain
  deriving DecidableEq

/-- What the form of a word says. -/
def Word.ofString (word : String) : Word :=
  match word.toList with
  | '-' :: '-' :: [] => .separator
  | '-' :: '-' :: name =>
    let value := match name.dropWhile (· != '=') with
      | _ :: value => some (String.ofList value)
      | [] => none
    .long (String.ofList (name.takeWhile (· != '='))) value
  | '-' :: c :: letters => .short (c :: letters)
  | _ => .plain

/-- Takes the words of a command line one after the other. `waiting` is a setting that was named
in the word before and still needs its value. -/
def parseWords (request : Request) (waiting : Option Setting) : List String → Option Request
  | [] => if waiting.isSome then none else some request
  | word :: words =>
    match Word.ofString word, waiting with
    | .plain, some setting => do parseWords (← request.setValue setting word) none words
    | .plain, none => do parseWords (← request.setFile word) none words
    | _, some _ => none
    | .separator, none => words.foldlM Request.setFile request
    | .short letters, none => do parseWords (← request.setLetters letters) none words
    | .long name value, none =>
      match flag? name, setting? name, value with
      | some flag, _, none => do parseWords (← request.setFlag flag) none words
      | none, some setting, none => parseWords request (some setting) words
      | none, some setting, some value => do
        parseWords (← request.setValue setting value) none words
      | _, _, _ => none

/-- What a command line asks for, if it is well formed and names a file. -/
def parse (words : List String) : Option Request := do
  let request ← parseWords {} none words
  if request.file.isSome then some request else none

/-- What a run of the program shows: its exit status and the two outputs. -/
structure Outcome where
  status : Nat
  output : String := ""
  message : String := ""
  deriving DecidableEq

/-- The words are not a command line of this program. -/
def Outcome.usage : Outcome := { status := 2 }

/-- The run ends with a message. -/
def Outcome.failed (message : String) : Outcome :=
  { status := 1, message := "error: " ++ message ++ "\n" }

/-- Why a file has no text. -/
inductive FileFault where
  | missing
  | notDirectory
  | isDirectory
  | nameTooLong
  | notText
  deriving DecidableEq

/-- The wording of a file fault. -/
def FileFault.message : FileFault → String
  | .missing => "No such file or directory (os error 2)"
  | .notDirectory => "Not a directory (os error 20)"
  | .isDirectory => "Is a directory (os error 21)"
  | .nameTooLong => "File name too long (os error 36)"
  | .notText => "stream did not contain valid UTF-8"

/-- The text of a file with the given content. -/
def decode (content : Except FileFault ByteArray) : Except FileFault String := do
  match String.fromUTF8? (← content) with
  | some text => return text
  | none => throw .notText

namespace Request

/-- How the grammar is to be read. -/
def options (request : Request) : ReadOptions where
  startName := request.startName.getD "S'"
  keepQuotes := request.keepQuotes
  bounds := if request.fixedCapacity then .fixed else .unbounded

/-- The rank up to which notes are shown: warnings, and one level more for each request. -/
def shownRank (request : Request) : Nat :=
  Level.warn.rank + request.verbosity

/-- The tables that are asked for. -/
def select (request : Request) (c : Compilation) : List Table :=
  (request.tables.getD [.lr0, .slr1, .diff]).map fun
    | .lr0 => c.lr0
    | .slr1 => c.slr1
    | .diff => c.diff

/-- What is printed for a compilation. A diagram goes before tables. -/
def report (request : Request) (c : Compilation) : Except Failure String :=
  match request.automaton with
  | some .nfa => do return (← Diagram.ofNfa c.grammar c.nfa).text ++ "\n"
  | some .dfa => do return (← Diagram.ofDfa c.grammar c.items c.dfa).text ++ "\n"
  | none =>
    let tables := request.select c
    if request.json then .ok ((JsonValue.ofTables c.grammar tables).text 0 ++ "\n")
    else .ok (String.join (tables.map (Layout.table c.grammar)))

/-- Carries out a request on the content of its file. -/
def run (request : Request) (content : Except FileFault ByteArray) : Outcome :=
  let file := request.file.getD ""
  match decode content with
  | .error fault => .failed ("cannot read " ++ file ++ ": " ++ fault.message)
  | .ok source =>
    match (do request.report (← compile request.options source) : Except Failure String) with
    | .ok output => { status := 0, output }
    | .error failure => .failed (file ++ ": " ++ failure.message)

end Request

/-- Carries out a command line. `content` gives the content of the files that can be read. -/
def run (words : List String) (content : String → Except FileFault ByteArray) : Outcome :=
  match parse words with
  | none => .usage
  | some request => request.run (content (request.file.getD ""))

end ShiftReduce.CommandLine
