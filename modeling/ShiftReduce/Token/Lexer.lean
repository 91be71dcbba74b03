import ShiftReduce.Text.Blank
import ShiftReduce.Token

/-!
# Cutting a text into tokens

Between tokens stand blanks, comments from `#` or `//` to the end of the line, and comments
between `/*` and the next `*/`. The lexer cuts one token at a time off the front of a text. A cut
keeps every character it consumes, so that the pieces of a text put together give the text back,
and the place of a token is the place after all the text before it.
-/

namespace ShiftReduce

/-- The text between two tokens, cut off the front of a text. -/
inductive Gap where
  /-- The gap ends and the rest of the text starts with a token or is empty. -/
  | closed (skipped rest : List Char)
  /-- After some text to skip, a block comment runs to the end of the text. -/
  | runaway (skipped comment : List Char)
  deriving DecidableEq

namespace Gap

/-- What a gap is in the middle of. -/
inductive Inside where
  | blanks
  | line
  /-- In a block comment, with the characters read since it was opened, the latest first. -/
  | block (read : List Char)

/-- Cuts the gap off the front of a text. `skipped` holds the characters of the gap read so far,
the latest first, without those of a block comment that is still open. -/
def scan : Inside → (skipped : List Char) → List Char → Gap
  | .blanks, skipped, [] => .closed skipped.reverse []
  | .blanks, skipped, '/' :: '/' :: cs => scan .line ('/' :: '/' :: skipped) cs
  | .blanks, skipped, '/' :: '*' :: cs => scan (.block ['*', '/']) skipped cs
  | .blanks, skipped, c :: cs =>
    if Text.isBlank c then scan .blanks (c :: skipped) cs
    else if c = '#' then scan .line (c :: skipped) cs
    else .closed skipped.reverse (c :: cs)
  | .line, skipped, [] => .closed skipped.reverse []
  | .line, skipped, c :: cs =>
    scan (if c = '\n' then .blanks else .line) (c :: skipped) cs
  | .block read, skipped, [] => .runaway skipped.reverse read.reverse
  | .block read, skipped, '*' :: '/' :: cs => scan .blanks ('/' :: '*' :: (read ++ skipped)) cs
  | .block read, skipped, c :: cs => scan (.block (c :: read)) skipped cs

/-- The gap in front of the first token of a text. -/
def ofText (text : List Char) : Gap :=
  scan .blanks [] text

end Gap

namespace Lexer

/-- Characters that start an identifier. -/
def isIdentifierStart (c : Char) : Bool :=
  c.isAlpha || c == '_'

/-- Characters that continue an identifier. -/
def isIdentifierRest (c : Char) : Bool :=
  c.isAlphanum || c == '_' || c == '\''

/-- ASCII punctuation. -/
def isPunctuation (c : Char) : Bool :=
  let code := c.toNat
  (0x21 ≤ code && code ≤ 0x2F) || (0x3A ≤ code && code ≤ 0x40) ||
    (0x5B ≤ code && code ≤ 0x60) || (0x7B ≤ code && code ≤ 0x7E)

/-- A quoted string after its opening quote: the text it stands for, if it is closed on its line,
the characters consumed, and the rest. -/
structure StringBody where
  text : Option (List Char)
  consumed : List Char
  rest : List Char
  deriving DecidableEq

/-- Puts characters before a string body, with what they stand for. -/
def StringBody.push (body : StringBody) (consumed : List Char) (c : Char) : StringBody :=
  { body with text := body.text.map (c :: ·), consumed := consumed ++ body.consumed }

/-- Reads a string up to its closing quote. A backslash takes the next character as it is. The
string does not go past the end of its line. -/
def StringBody.scan (quote : Char) : List Char → StringBody
  | [] => ⟨none, [], []⟩
  | ['\\'] => ⟨none, ['\\'], []⟩
  | '\\' :: c :: cs =>
    if c = '\n' then ⟨none, ['\\'], c :: cs⟩
    else (StringBody.scan quote cs).push ['\\', c] c
  | c :: cs =>
    if c = '\n' then ⟨none, [], c :: cs⟩
    else if c = quote then ⟨some [], [c], cs⟩
    else (StringBody.scan quote cs).push [c] c

/-- The next token of a text with the text around it. -/
structure Cut where
  /-- What stands before the token. -/
  skipped : List Char
  /-- The characters of the token. -/
  lexeme : List Char
  kind : Token.Kind
  /-- What stands after the token. -/
  rest : List Char
  deriving DecidableEq

/-- A string token, after its opening quote. -/
def Cut.ofString (skipped : List Char) (quote : Quote) (cs : List Char) : Cut :=
  let body := StringBody.scan quote.char cs
  let kind := match body.text with
    | some text => .quoted quote (String.ofList text)
    | none => .invalid .openString
  ⟨skipped, quote.char :: body.consumed, kind, body.rest⟩

/-- The token that starts with `c`, which is neither a blank nor the start of a comment. -/
def Cut.ofToken (skipped : List Char) (c : Char) (cs : List Char) : Cut :=
  if isIdentifierStart c then
    let name := c :: cs.takeWhile isIdentifierRest
    ⟨skipped, name, .identifier (String.ofList name), cs.dropWhile isIdentifierRest⟩
  else if c = Quote.single.char then .ofString skipped .single cs
  else if c = Quote.double.char then .ofString skipped .double cs
  else if c = '-' ∧ cs.head? = some '>' then
    ⟨skipped, ['-', '>'], .arrow .arrow, cs.tail⟩
  else if c = ':' ∧ cs.head? = some '=' then
    ⟨skipped, [':', '='], .arrow .assign, cs.tail⟩
  else if isPunctuation c then ⟨skipped, [c], .delimiter c, cs⟩
  else ⟨skipped, [c], .invalid (.stray c), cs⟩

/-- Cuts the first token off a text. -/
def Cut.ofText (text : List Char) : Cut :=
  match Gap.ofText text with
  | .runaway skipped comment => ⟨skipped, comment, .invalid .openComment, []⟩
  | .closed skipped [] => ⟨skipped, [], .endOfFile, []⟩
  | .closed skipped (c :: cs) => .ofToken skipped c cs

end Lexer

/-- A text that is being cut into tokens: what is left of it and where that starts. -/
structure Lexer where
  location : Location := .start
  rest : List Char
  deriving DecidableEq

namespace Lexer

/-- A lexer at the start of a source. -/
def ofSource (source : String) : Lexer :=
  { rest := source.toList }

/-- The next token. At the end of the text this is the end of file, again and again. -/
def next (lexer : Lexer) : Token × Lexer :=
  let cut := Cut.ofText lexer.rest
  let place := lexer.location.afterAll cut.skipped
  (⟨cut.kind, place⟩, ⟨place.afterAll cut.lexeme, cut.rest⟩)

end Lexer

end ShiftReduce
