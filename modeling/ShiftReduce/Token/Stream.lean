import ShiftReduce.Token.Lexer

/-!
# Streams of tokens

A reader of tokens takes them one by one and may look at the next one before it takes it. Both a
source text and a list of tokens give such a stream, and both go on with ends of file for ever.
-/

namespace ShiftReduce

/-- A stream of tokens with one token of look-ahead. -/
class TokenStream (σ : Type) where
  /-- Takes the next token. -/
  advance : σ → Token × σ
  /-- Looks at the next token and leaves it in the stream. -/
  peek : σ → Token × σ
  /-- No more tokens than this come before the first end of file. -/
  remaining : σ → Nat

/-- A source that is cut into tokens on demand. A token that was looked at is kept until it is
taken. -/
structure Scanner where
  lexer : Lexer
  ahead : Option Token := none
  deriving DecidableEq

namespace Scanner

/-- A scanner at the start of a source. -/
def ofSource (source : String) : Scanner :=
  { lexer := .ofSource source }

/-- Takes the next token. -/
def advance (scanner : Scanner) : Token × Scanner :=
  match scanner.ahead with
  | some token => (token, { scanner with ahead := none })
  | none =>
    let (token, lexer) := scanner.lexer.next
    (token, { lexer })

/-- Looks at the next token. -/
def peek (scanner : Scanner) : Token × Scanner :=
  let (token, rest) := scanner.advance
  (token, { rest with ahead := some token })

/-- Takes the next token unless it is the end of file. -/
def next (scanner : Scanner) : Option Token × Scanner :=
  let (token, scanner) := scanner.peek
  if token.isEof then (none, scanner)
  else
    let (token, scanner) := scanner.advance
    (some token, scanner)

/-- At most `count` tokens, without the end of file. -/
def toList : Nat → Scanner → List Token
  | 0, _ => []
  | count + 1, scanner =>
    match scanner.next with
    | (none, _) => []
    | (some token, scanner) => token :: toList count scanner

/-- Every token but the end of file consumes a character. -/
def remaining (scanner : Scanner) : Nat :=
  scanner.lexer.rest.length + 1

/-- A scanner is a stream that cuts tokens off its source. -/
instance : TokenStream Scanner where
  advance := advance
  peek := peek
  remaining := remaining

end Scanner

/-- Tokens that were made beforehand, the next one first. -/
structure TokenQueue where
  tokens : List Token
  deriving DecidableEq

namespace TokenQueue

/-- Takes the next token. An empty queue gives ends of file. -/
def advance (queue : TokenQueue) : Token × TokenQueue :=
  match queue.tokens with
  | [] => (.eof, queue)
  | token :: tokens => (token, ⟨tokens⟩)

/-- Looks at the next token. An empty queue then holds the end of file that was seen. -/
def peek (queue : TokenQueue) : Token × TokenQueue :=
  match queue.tokens with
  | [] => (.eof, ⟨[.eof]⟩)
  | token :: _ => (token, queue)

/-- How many tokens the queue holds. -/
def size (queue : TokenQueue) : Nat :=
  queue.tokens.length

/-- A queue is a stream of the tokens that it holds. -/
instance : TokenStream TokenQueue where
  advance := advance
  peek := peek
  remaining := size

end TokenQueue

end ShiftReduce
