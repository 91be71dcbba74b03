import ShiftReduce.CommandLine

/-!
# The program

Reads the file that the command line names, prints the report, and tells on the error output what
went wrong and, at the chosen verbosity, what was built.
-/

namespace ShiftReduce.CommandLine

/-- The fault that an error of the system stands for. -/
def FileFault.ofError : IO.Error → FileFault
  | .inappropriateType _ 20 _ => .notDirectory
  | .inappropriateType _ _ _ => .isDirectory
  | .invalidArgument _ 36 _ | .resourceExhausted _ 36 _ => .nameTooLong
  | _ => .missing

/-- The content of a file, if it can be read. -/
def readContent (file : String) : IO (Except FileFault ByteArray) := do
  try
    return .ok (← IO.FS.readBinFile file)
  catch error =>
    return .error (.ofError error)

/-- Prints the notes that a request asks for. -/
def printNotes (request : Request) (content : Except FileFault ByteArray) : IO Unit := do
  match decode content with
  | .error _ => return
  | .ok source =>
    for event in (journal request.options source).upTo request.shownRank do
      IO.eprintln ("[" ++ event.level.text ++ "] " ++ event.message)

/-- Carries out a command line and gives the exit status. -/
def execute (words : List String) : IO UInt32 := do
  match parse words with
  | none =>
    IO.eprintln "error: invalid command line"
    return Outcome.usage.status.toUInt32
  | some request =>
    let content ← readContent (request.file.getD "")
    printNotes request content
    let outcome := request.run content
    IO.print outcome.output
    IO.eprint outcome.message
    return outcome.status.toUInt32

end ShiftReduce.CommandLine

/-- The entry point of the program. -/
def main (words : List String) : IO UInt32 :=
  ShiftReduce.CommandLine.execute words
