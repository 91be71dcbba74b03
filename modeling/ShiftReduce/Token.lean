import ShiftReduce.Text.CharLiteral

/-!
# Tokens of the grammar notation

A grammar is written in identifiers, quoted strings, two spellings of the arrow and ASCII
punctuation. What cannot be read is a token too, so that a reader of tokens can say where the
text went wrong.
-/

namespace ShiftReduce

/-- A place in a text. Lines and columns of a text count from one; the place `0:0` belongs to
tokens that come from no text. -/
structure Location where
  line : Nat := 0
  column : Nat := 0
  deriving DecidableEq

/-- The place of the first character of a text. -/
def Location.start : Location := ⟨1, 1⟩

/-- The place after a character. -/
def Location.after (p : Location) (c : Char) : Location :=
  if c = '\n' then ⟨p.line + 1, 1⟩ else ⟨p.line, p.column + 1⟩

/-- The place after a piece of text. -/
def Location.afterAll (p : Location) (text : List Char) : Location :=
  text.foldl Location.after p

/-- The place after two texts is the place after the second one from the place after the first one.
-/
@[simp]
theorem Location.afterAll_append (p : Location) (u v : List Char) :
    p.afterAll (u ++ v) = (p.afterAll u).afterAll v :=
  List.foldl_append

/-- A place as `line:column`. -/
def Location.text (p : Location) : String :=
  toString p.line ++ ":" ++ toString p.column

/-- The two ways to quote a string. -/
inductive Quote where
  | single
  | double
  deriving DecidableEq

/-- The character that opens and closes a quoted string. -/
def Quote.char : Quote → Char
  | .single => '\''
  | .double => '"'

/-- A text between its quotes. -/
def Quote.wrap (quote : Quote) (text : String) : String :=
  quote.char.toString ++ text ++ quote.char.toString

/-- The two spellings of the sign between a head and its alternatives. -/
inductive Arrow where
  | arrow
  | assign
  deriving DecidableEq

/-- The text of an arrow. -/
def Arrow.text : Arrow → String
  | .arrow => "->"
  | .assign => ":="

/-- What can be wrong with a piece of text that is no token of the notation. -/
inductive LexFault where
  | openString
  | openComment
  | stray (c : Char)
  deriving DecidableEq

/-- The wording of a fault in the text. -/
def LexFault.message : LexFault → String
  | .openString => "unterminated string literal"
  | .openComment => "unterminated block comment"
  | .stray c => "unexpected character " ++ Text.charLiteral c

namespace Token

/-- What a token is, apart from its place. -/
inductive Kind where
  | identifier (name : String)
  | quoted (quote : Quote) (text : String)
  | arrow (spelling : Arrow)
  | delimiter (c : Char)
  | endOfFile
  | invalid (fault : LexFault)
  deriving DecidableEq

/-- How a message names a token. -/
def Kind.describe : Kind → String
  | .identifier name => "identifier `" ++ name ++ "`"
  | .quoted quote text => "string " ++ quote.wrap text
  | .arrow spelling => "`" ++ spelling.text ++ "`"
  | .delimiter c => "`" ++ c.toString ++ "`"
  | .endOfFile => "end of file"
  | .invalid fault => "lex error (" ++ fault.message ++ ")"

end Token

/-- A token and the place of its first character. -/
structure Token where
  kind : Token.Kind
  location : Location
  deriving DecidableEq

namespace Token

/-- The token that follows the last one of a list of tokens. -/
def eof : Token := ⟨.endOfFile, {}⟩

/-- Whether a token marks the end of its source. -/
def isEof (token : Token) : Bool :=
  token.kind = .endOfFile

end Token

end ShiftReduce
