import ShiftReduce.Proofs.Grammar.Verdict
import ShiftReduce.Proofs.Token.Cutting

/-!
# Streams of tokens are cursors

A cursor stands at a place of an endless sequence of tokens. To take a token moves it on, to look at
one does not. A scanner keeps a token that was looked at, and a queue that is empty gets one, but
the answers to their calls are those of a cursor over the tokens that are taken one after the other.
So a source is read in the same way whether its tokens are cut on demand or stand in a queue.
-/

namespace ShiftReduce

/-- The answers to a sequence of calls. -/
def answers {κ σ α : Type} (answer : κ → σ → α × σ) : List κ → σ → List α
  | [], _ => []
  | call :: calls, state => (answer call state).1 :: answers answer calls (answer call state).2

/-- If related states give the same answer to each call and stay related, they give the same
answers to every sequence of calls. -/
theorem answers_eq_of_simulation {κ σ τ α : Type} {answer : κ → σ → α × σ}
    {answer' : κ → τ → α × τ} (related : σ → τ → Prop)
    (hstep : ∀ call state state', related state state' →
      (answer call state).1 = (answer' call state').1 ∧
        related (answer call state).2 (answer' call state').2)
    (calls : List κ) {state : σ} {state' : τ} (h : related state state') :
    answers answer calls state = answers answer' calls state' := by
  induction calls generalizing state state' with
  | nil => rfl
  | cons call calls ih =>
    obtain ⟨hanswer, hrelated⟩ := hstep call state state' h
    rw [answers, answers, hanswer, ih hrelated]

/-- The calls that every stream of tokens answers. -/
inductive TokenStream.Call where
  | advance
  | peek
  deriving DecidableEq

/-- The answer of a stream. -/
def TokenStream.answer {σ : Type} [TokenStream σ] : Call → σ → Token × σ
  | .advance, stream => TokenStream.advance stream
  | .peek, stream => TokenStream.peek stream

/-- The calls that a scanner answers: those of a stream, and the one for a token that is not the end
of file. -/
inductive Scanner.Call where
  | stream (call : TokenStream.Call)
  | next
  deriving DecidableEq

/-- The answer of a scanner. -/
def Scanner.answer : Call → Scanner → Option Token × Scanner
  | .stream call, scanner => (TokenStream.answer call scanner).map some id
  | .next, scanner => scanner.next

/-- A place in an endless sequence of tokens. -/
structure Cursor where
  tokens : Nat → Token
  position : Nat := 0

namespace Cursor

/-- The token at the place of the cursor. -/
def token (cursor : Cursor) : Token := cursor.tokens cursor.position

/-- The cursor at the next place. -/
def moved (cursor : Cursor) : Cursor := { cursor with position := cursor.position + 1 }

/-- To take a token moves the cursor, and to look at it does not. -/
def answer : TokenStream.Call → Cursor → Token × Cursor
  | .advance, cursor => (cursor.token, cursor.moved)
  | .peek, cursor => (cursor.token, cursor)

/-- The end of file is no next token, and the cursor stays there. -/
def answerScanner : Scanner.Call → Cursor → Option Token × Cursor
  | .stream call, cursor => (cursor.answer call).map some id
  | .next, cursor =>
    if cursor.token.isEof then (none, cursor) else (some cursor.token, cursor.moved)

/-- The tokens from the place of the cursor on are the given ones. -/
def Shows (cursor : Cursor) (tokens : Nat → Token) : Prop :=
  ∀ n, tokens n = cursor.tokens (cursor.position + n)

/-- A cursor at the start shows all tokens. -/
theorem shows_self (tokens : Nat → Token) : Shows ⟨tokens, 0⟩ tokens :=
  fun n => by rw [Nat.zero_add]

/-- The first token that is shown is the one at the cursor. -/
theorem Shows.token {cursor : Cursor} {tokens : Nat → Token} (h : cursor.Shows tokens) :
    tokens 0 = cursor.token := h 0

/-- A cursor that has moved on shows the tokens from the next one on. -/
theorem Shows.moved {cursor : Cursor} {tokens : Nat → Token} (h : cursor.Shows tokens) :
    cursor.moved.Shows fun n => tokens (n + 1) := by
  intro n
  have hnext := h (n + 1)
  rwa [Nat.add_comm n 1, ← Nat.add_assoc, Nat.add_comm 1 n] at hnext

end Cursor

namespace Scanner

variable {scanner : Scanner} {cursor : Cursor} {count : Nat}

/-- After a token was taken none is kept. -/
theorem ahead_advance (scanner : Scanner) : scanner.advance.2.ahead = none := by
  unfold advance
  split <;> rfl

/-- A token that was looked at is the one that is taken next. -/
theorem advance_peek (scanner : Scanner) : scanner.peek.2.advance = scanner.advance := by
  have hahead := ahead_advance scanner
  simp only [peek]
  generalize scanner.advance = taken at hahead
  obtain ⟨token, rest⟩ := taken
  simp only [advance, ← hahead]

/-- To look at a token takes nothing away from the tokens to come. -/
theorem tokenAt_peek (scanner : Scanner) (n : Nat) :
    scanner.peek.2.tokenAt n = scanner.tokenAt n := by
  cases n with
  | zero => rw [tokenAt, tokenAt, advance_peek]
  | succ n => rw [tokenAt, tokenAt, advance_peek]

/-- A scanner answers the calls of a stream as a cursor over its tokens does. -/
theorem answer_stream (h : cursor.Shows (scanner.tokenAt ·)) (call : TokenStream.Call) :
    (TokenStream.answer call scanner).1 = (cursor.answer call).1 ∧
      (cursor.answer call).2.Shows ((TokenStream.answer call scanner).2.tokenAt ·) := by
  cases call with
  | advance => exact ⟨h.token, h.moved⟩
  | peek => exact ⟨h.token, fun n => (tokenAt_peek scanner n).trans (h n)⟩

/-- The next token is the one that is taken, unless this is the end of file, which stays. -/
theorem next_eq (scanner : Scanner) : scanner.next =
    if (scanner.tokenAt 0).isEof then (none, scanner.peek.2)
    else (some (scanner.tokenAt 0), scanner.advance.2) := by
  have hpeek : scanner.peek = (scanner.tokenAt 0, scanner.peek.2) := rfl
  unfold next
  rw [hpeek]
  simp only [advance_peek]
  rfl

/-- A scanner answers all its calls as a cursor over its tokens does. -/
theorem answer_simulates (call : Call) (scanner : Scanner) (cursor : Cursor)
    (h : cursor.Shows (scanner.tokenAt ·)) :
    (scanner.answer call).1 = (cursor.answerScanner call).1 ∧
      (cursor.answerScanner call).2.Shows ((scanner.answer call).2.tokenAt ·) := by
  cases call with
  | stream call =>
    obtain ⟨hanswer, hshows⟩ := answer_stream h call
    exact ⟨congrArg some hanswer, hshows⟩
  | next =>
    have htoken : scanner.tokenAt 0 = cursor.token := h.token
    simp only [answer, Cursor.answerScanner, next_eq, htoken]
    split
    · exact ⟨rfl, fun n => (tokenAt_peek scanner n).trans (h n)⟩
    · exact ⟨rfl, h.moved⟩

/-- The tokens of a source are followed by ends of file for ever, all at the end of the source. -/
theorem exists_count (source : String) : ∃ count ≤ source.length,
    (∀ n < count, ((ofSource source).tokenAt n).isEof = false) ∧
    ∀ n, count ≤ n → (ofSource source).tokenAt n = ⟨.endOfFile, .ofText source.toList⟩ := by
  obtain ⟨cutting, hcount, htokens⟩ := exists_cutting source.toList
  rw [String.length_toList] at hcount
  have htokenAt (n : Nat) : (ofSource source).tokenAt n = cutting.tokenAfter [] n := htokens [] n
  refine ⟨cutting.pieces.length, hcount, fun n hn => ?_, fun n hn => ?_⟩
  · have hpiece := List.getElem?_eq_getElem hn
    obtain ⟨before, after, hsplit⟩ := List.append_of_mem (List.mem_of_getElem? hpiece)
    have hkind := (cutting.fits before _ after hsplit).2.kind_ne_endOfFile
    rw [htokenAt, Lexer.Cutting.tokenAfter, hpiece]
    simpa [Token.isEof] using hkind
  · rw [htokenAt, Lexer.Cutting.tokenAfter, List.getElem?_eq_none hn]
    rfl

/-- What is taken from a scanner up to the first end of file. -/
theorem take_eq {fuel : Nat} (hcount : count < fuel)
    (hbefore : ∀ n < count, (scanner.tokenAt n).isEof = false)
    (hend : (scanner.tokenAt count).isEof = true) :
    TokenStream.take fuel scanner = (List.range (count + 1)).map (scanner.tokenAt ·) := by
  induction count generalizing scanner fuel with
  | zero =>
    obtain ⟨fuel, rfl⟩ := Nat.exists_eq_succ_of_ne_zero (Nat.ne_of_gt hcount)
    exact if_pos hend
  | succ count ih =>
    obtain ⟨fuel, rfl⟩ := Nat.exists_eq_succ_of_ne_zero (Nat.ne_of_gt (Nat.zero_lt_of_lt hcount))
    have hfirst : ¬ (scanner.tokenAt 0).isEof = true := by
      rw [hbefore 0 (Nat.succ_pos _)]
      exact Bool.false_ne_true
    have hrest := @ih scanner.advance.2 fuel (Nat.lt_of_succ_lt_succ hcount)
      (fun n hn => hbefore (n + 1) (Nat.succ_lt_succ hn)) hend
    rw [List.range_succ_eq_map, List.map_cons, List.map_map]
    exact (if_neg hfirst).trans (congrArg (List.cons _) hrest)

end Scanner

namespace TokenQueue

/-- A queue answers its calls as a cursor over its tokens does, with ends of file after them. An
empty queue that was looked at holds an end of file, which would have come anyway. -/
theorem answer_simulates (call : TokenStream.Call) (queue : TokenQueue) (cursor : Cursor)
    (h : cursor.Shows (queue.tokens.getD · .eof)) :
    (TokenStream.answer call queue).1 = (cursor.answer call).1 ∧
      (cursor.answer call).2.Shows ((TokenStream.answer call queue).2.tokens.getD · .eof) := by
  obtain ⟨tokens⟩ := queue
  cases call with
  | advance =>
    cases tokens with
    | nil => exact ⟨h.token, h.moved⟩
    | cons token tokens => exact ⟨h.token, h.moved⟩
  | peek =>
    cases tokens with
    | nil =>
      refine ⟨h.token, fun n => Eq.trans ?_ (h n)⟩
      cases n with
      | zero => rfl
      | succ n => rfl
    | cons token tokens => exact ⟨h.token, h⟩

end TokenQueue

namespace Grammar

/-- A source is read as the list of its tokens, with the first end of file last. -/
theorem ofSource_eq_ofTokens (options : ReadOptions) {source : String} {count : Nat}
    (hcount : count ≤ source.length)
    (hbefore : ∀ n < count, ((Scanner.ofSource source).tokenAt n).isEof = false)
    (hend : ((Scanner.ofSource source).tokenAt count).isEof = true) :
    ofSource options source =
      ofTokens options ((List.range (count + 1)).map ((Scanner.ofSource source).tokenAt ·)) := by
  have hfuel : count < source.toList.length + 1 + 1 := by
    rw [String.length_toList]
    omega
  exact congrArg (ofTokens options) (Scanner.take_eq hfuel hbefore hend)

end Grammar

/-- The tokens that are taken from a source one after the other are its tokens, which are no ends of
file, and then ends of file for ever, all at the end of the source. Whatever a scanner is asked for
in between, it answers as a cursor over these tokens does. Likewise a queue of tokens answers as a
cursor over them, with ends of file at no place after them. A source is read in the same way as a
queue of its tokens up to the first end of file, whatever the options are, and fails in the same
way. -/
theorem streams_are_cursors (source : String) :
    (∀ calls, answers Scanner.answer calls (.ofSource source) =
      answers Cursor.answerScanner calls ⟨((Scanner.ofSource source).tokenAt ·), 0⟩) ∧
    (∃ count, (∀ n < count, ((Scanner.ofSource source).tokenAt n).isEof = false) ∧
      (∀ n, count ≤ n →
        (Scanner.ofSource source).tokenAt n = ⟨.endOfFile, .ofText source.toList⟩) ∧
      ∀ options, Grammar.ofSource options source = Grammar.ofStream options
        (TokenQueue.mk ((List.range (count + 1)).map ((Scanner.ofSource source).tokenAt ·)))) ∧
    ∀ tokens calls, answers TokenStream.answer calls (TokenQueue.mk tokens) =
      answers Cursor.answer calls ⟨(tokens.getD · .eof), 0⟩ := by
  refine ⟨fun calls => ?_, ?_, fun tokens calls => ?_⟩
  · exact answers_eq_of_simulation (fun scanner cursor => cursor.Shows (scanner.tokenAt ·))
      Scanner.answer_simulates calls (Cursor.shows_self _)
  · obtain ⟨count, hcount, hbefore, hend⟩ := Scanner.exists_count source
    refine ⟨count, hbefore, hend, fun options => ?_⟩
    have heof : ((Scanner.ofSource source).tokenAt count).isEof = true := by
      rw [hend count (Nat.le_refl _)]
      rfl
    rw [Grammar.ofStream_queue, Grammar.ofSource_eq_ofTokens options hcount hbefore heof]
  · exact answers_eq_of_simulation (fun queue cursor => cursor.Shows (queue.tokens.getD · .eof))
      TokenQueue.answer_simulates calls (Cursor.shows_self _)

end ShiftReduce
