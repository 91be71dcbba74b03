import Mathlib.Data.List.Infix
import Mathlib.Data.List.TakeWhile
import ShiftReduce.Token.Stream

/-!
# A source is cut into tokens without loss

A source is a sequence of pieces, each with a token and the blanks and comments in front of it, and
blanks and comments at its end. What counts as a gap and what spells a token is said here in terms
of the text alone, together with the text that comes after, since identifiers and comments go as far
as they can. The scanner returns the tokens of the pieces in their order, each with the place that
the newlines before it and the characters since the last of them give, and ends of file for ever.
-/

namespace ShiftReduce

namespace Location

/-- The place after a text: one line for each newline, and one column for each character since the
last newline. -/
def ofText (text : List Char) : Location :=
  ⟨1 + text.count '\n', 1 + (text.reverse.takeWhile (· ≠ '\n')).length⟩

/-- Character by character, the place after a text is reached. -/
theorem afterAll_start (text : List Char) : start.afterAll text = ofText text := by
  induction text using List.reverseRecOn with
  | nil => rfl
  | append_singleton text c ih =>
    rw [afterAll_append, ih]
    by_cases hc : c = '\n'
    · simp [afterAll, after, ofText, hc]
      omega
    · simp [afterAll, after, ofText, hc]
      omega

/-- The place after a text and more of it is the place after both. -/
theorem afterAll_ofText (text more : List Char) :
    (ofText text).afterAll more = ofText (text ++ more) := by
  rw [← afterAll_start, ← afterAll_start, afterAll_append]

end Location

namespace Lexer

/-- The text goes on with a newline or is at its end. -/
def AtLineEnd (rest : List Char) : Prop := ∀ c ∈ rest.head?, c = '\n'

/-- The end of a block comment stands somewhere in a text. -/
def HasCommentEnd (text : List Char) : Prop := ['*', '/'] <:+: text

/-- A gap in front of the rest of a text: blanks, comments up to the end of the line, and block
comments up to the first `*/` after the opening `/*`. -/
inductive Trivia : List Char → List Char → Prop
  | nil (rest : List Char) : Trivia [] rest
  | blank {c : Char} {text rest : List Char} :
      Text.isBlank c = true → Trivia text rest → Trivia (c :: text) rest
  | line {sign body text rest : List Char} : sign = ['#'] ∨ sign = ['/', '/'] → '\n' ∉ body →
      AtLineEnd (text ++ rest) → Trivia text rest → Trivia (sign ++ body ++ text) rest
  | block {body text rest : List Char} : ¬ HasCommentEnd (body ++ ['*']) → Trivia text rest →
      Trivia ('/' :: '*' :: body ++ ['*', '/'] ++ text) rest

/-- What the characters between two quotes stand for: a backslash takes the next character as it
is, and other characters but the quote and the newline stand for themselves. -/
inductive Decodes (quote : Char) : List Char → List Char → Prop
  | nil : Decodes quote [] []
  | plain {c : Char} {body text : List Char} : c ≠ '\\' → c ≠ quote → c ≠ '\n' →
      Decodes quote body text → Decodes quote (c :: body) (c :: text)
  | escaped {c : Char} {body text : List Char} : c ≠ '\n' →
      Decodes quote body text → Decodes quote ('\\' :: c :: body) (c :: text)

/-- The characters after an opening quote that is not closed. The last one may be a backslash with
nothing to take. -/
def Unclosed (quote : Char) (body : List Char) : Prop :=
  ∃ front text, Decodes quote front text ∧ (body = front ∨ body = front ++ ['\\'])

/-- A character in front of the rest of a text opens a gap. -/
def OpensGap (c : Char) (rest : List Char) : Prop :=
  Text.isBlank c = true ∨ c = '#' ∨ c = '/' ∧ (rest.head? = some '/' ∨ rest.head? = some '*')

/-- A character in front of the rest of a text is not the start of a gap, an identifier, a string or
an arrow. -/
def StandsAlone (c : Char) (rest : List Char) : Prop :=
  ¬ OpensGap c rest ∧ isIdentifierStart c = false ∧ (∀ quote : Quote, c ≠ quote.char) ∧
    ∀ spelling : Arrow, ¬ spelling.text.toList <+: c :: rest

/-- What spells a token in front of the rest of a text. -/
inductive Spells : Token.Kind → List Char → List Char → Prop
  /-- The longest identifier. -/
  | identifier {c : Char} {cs rest : List Char} : isIdentifierStart c = true →
      (∀ d ∈ cs, isIdentifierRest d = true) → (∀ d ∈ rest.head?, isIdentifierRest d = false) →
      Spells (.identifier (String.ofList (c :: cs))) (c :: cs) rest
  | quoted {quote : Quote} {body text rest : List Char} : Decodes quote.char body text →
      Spells (.quoted quote (String.ofList text)) (quote.char :: body ++ [quote.char]) rest
  | arrow (spelling : Arrow) {rest : List Char} :
      Spells (.arrow spelling) spelling.text.toList rest
  | delimiter {c : Char} {rest : List Char} : isPunctuation c = true → StandsAlone c rest →
      Spells (.delimiter c) [c] rest
  | stray {c : Char} {rest : List Char} : isPunctuation c = false → StandsAlone c rest →
      Spells (.invalid (.stray c)) [c] rest
  /-- A string that is not closed goes up to the end of its line. -/
  | openString {quote : Quote} {body rest : List Char} : Unclosed quote.char body →
      AtLineEnd rest → Spells (.invalid .openString) (quote.char :: body) rest
  /-- A block comment that is not closed goes up to the end of the text. -/
  | openComment {body : List Char} : ¬ HasCommentEnd body →
      Spells (.invalid .openComment) ('/' :: '*' :: body) []

end Lexer

open Lexer

namespace Gap

variable {skipped text : List Char} {gap : Gap}

/-- What a gap should be that is cut off a text after some characters, the latest first, have been
skipped already. -/
def Correct (skipped text : List Char) : Gap → Prop
  | .closed all rest => ∃ trivia, all = skipped.reverse ++ trivia ∧ text = trivia ++ rest ∧
      Trivia trivia rest ∧ ∀ c cs, rest = c :: cs → ¬ OpensGap c cs
  | .runaway all comment => ∃ trivia body, all = skipped.reverse ++ trivia ∧
      comment = '/' :: '*' :: body ∧ text = trivia ++ comment ∧ Trivia trivia comment ∧
      ¬ HasCommentEnd body

/-- A piece of a gap in front of a correct gap. -/
theorem Correct.prepend {piece : List Char} (h : gap.Correct (piece.reverse ++ skipped) text)
    (hpiece : ∀ trivia rest, text = trivia ++ rest → Trivia trivia rest →
      Trivia (piece ++ trivia) rest) : gap.Correct skipped (piece ++ text) := by
  cases gap with
  | closed all rest =>
    obtain ⟨trivia, rfl, rfl, htrivia, hrest⟩ := h
    exact ⟨piece ++ trivia, by simp, by simp, hpiece trivia rest rfl htrivia, hrest⟩
  | runaway all comment =>
    obtain ⟨trivia, body, rfl, hcomment, rfl, htrivia, hopen⟩ := h
    exact ⟨piece ++ trivia, body, by simp, hcomment, by simp, hpiece trivia _ rfl htrivia, hopen⟩

/-- What a gap should be that is cut off in the middle of blanks, of a line or of a block. -/
def Inside.Correct (skipped text : List Char) (gap : Gap) : Inside → Prop
  | .blanks => gap.Correct skipped text
  | .line => ∃ body after, text = body ++ after ∧ '\n' ∉ body ∧ AtLineEnd after ∧
      gap.Correct (body.reverse ++ skipped) after
  | .block read => (∃ body after, text = body ++ '*' :: '/' :: after ∧
      ¬ HasCommentEnd (body ++ ['*']) ∧
      gap.Correct ('/' :: '*' :: (body.reverse ++ read ++ skipped)) after) ∨
    ¬ HasCommentEnd text ∧ gap = .runaway skipped.reverse (read.reverse ++ text)

/-- A blank in front of a gap. -/
theorem Correct.blank {c : Char} (h : gap.Correct (c :: skipped) text)
    (hc : Text.isBlank c = true) : gap.Correct skipped (c :: text) := by
  have hgap : gap.Correct ([c].reverse ++ skipped) text := h
  exact hgap.prepend fun _ _ _ htrivia => .blank hc htrivia

/-- The sign of a line comment in front of the rest of its line. -/
theorem Inside.Correct.line {sign : List Char} (hsign : sign = ['#'] ∨ sign = ['/', '/'])
    (h : Inside.line.Correct (sign.reverse ++ skipped) text gap) :
    gap.Correct skipped (sign ++ text) := by
  obtain ⟨body, after, rfl, hbody, hafter, hgap⟩ := h
  have hskipped : body.reverse ++ (sign.reverse ++ skipped) =
      (sign ++ body).reverse ++ skipped := by simp
  rw [hskipped] at hgap
  rw [← List.append_assoc]
  refine hgap.prepend fun trivia rest hsplit htrivia => .line hsign hbody ?_ htrivia
  rwa [← hsplit]

/-- The start of a block comment in front of the rest of it. -/
theorem Inside.Correct.block (h : (Inside.block ['*', '/']).Correct skipped text gap) :
    gap.Correct skipped ('/' :: '*' :: text) := by
  rcases h with ⟨body, after, rfl, hbody, hgap⟩ | ⟨hopen, rfl⟩
  · have hskipped : '/' :: '*' :: (body.reverse ++ ['*', '/'] ++ skipped) =
        ('/' :: '*' :: body ++ ['*', '/']).reverse ++ skipped := by simp
    have htext : '/' :: '*' :: (body ++ '*' :: '/' :: after) =
        '/' :: '*' :: body ++ ['*', '/'] ++ after := by simp
    rw [hskipped] at hgap
    rw [htext]
    exact hgap.prepend fun trivia rest _ htrivia => .block hbody htrivia
  · exact ⟨[], text, (List.append_nil _).symm, rfl, rfl, .nil _, hopen⟩

/-- A character that does not start the end of a comment. -/
theorem not_hasCommentEnd_cons {c : Char} {cs : List Char}
    (hc : ∀ tail, c = '*' → cs = '/' :: tail → False) (h : ¬ HasCommentEnd cs) :
    ¬ HasCommentEnd (c :: cs) := by
  intro hend
  rcases List.infix_cons_iff.1 hend with ⟨tail, hprefix⟩ | hinfix
  · obtain ⟨hstar, hslash⟩ := List.cons.inj hprefix
    exact hc tail hstar.symm hslash.symm
  · exact h hinfix

/-- A character of a block comment that does not start its end. -/
theorem Inside.Correct.read {c : Char} {read : List Char}
    (hc : ∀ tail, c = '*' → text = '/' :: tail → False)
    (h : (Inside.block (c :: read)).Correct skipped text gap) :
    (Inside.block read).Correct skipped (c :: text) gap := by
  rcases h with ⟨body, after, rfl, hbody, hgap⟩ | ⟨hopen, rfl⟩
  · refine .inl ⟨c :: body, after, rfl, ?_, by simpa using hgap⟩
    -- A slash after the star would be the first character of the rest, and `hc` excludes it.
    refine not_hasCommentEnd_cons (fun tail hstar hslash => ?_) hbody
    cases body with
    | nil => simp at hslash
    | cons d body =>
      obtain ⟨rfl, -⟩ := List.cons.inj hslash
      exact hc _ hstar rfl
  · exact .inr ⟨not_hasCommentEnd_cons hc hopen, by simp⟩

/-- The scan of a gap does what it should in each of its states. -/
theorem scan_correct (inside : Inside) (skipped text : List Char) :
    inside.Correct skipped text (scan inside skipped text) := by
  fun_induction scan inside skipped text with
  | case1 skipped => exact ⟨[], (List.append_nil _).symm, rfl, .nil _, by simp⟩
  | case2 skipped cs ih => exact Inside.Correct.line (.inr rfl) ih
  | case3 skipped cs ih => exact Inside.Correct.block ih
  | case4 skipped c cs _ _ hblank ih => exact Correct.blank ih hblank
  | case5 skipped cs _ _ _ ih => exact Inside.Correct.line (.inl rfl) ih
  | case6 skipped c cs hline hblock hblank hsign =>
    refine ⟨[], (List.append_nil _).symm, rfl, .nil _, fun c' cs' hcs => ?_⟩
    obtain ⟨rfl, rfl⟩ := List.cons.inj hcs
    rintro (h | h | ⟨hc, h | h⟩)
    · exact hblank h
    · exact hsign h
    · obtain ⟨tail, htail⟩ := List.head?_eq_some_iff.1 h
      exact hline tail hc htail
    · obtain ⟨tail, htail⟩ := List.head?_eq_some_iff.1 h
      exact hblock tail hc htail
  | case7 skipped =>
    exact ⟨[], [], rfl, by simp, by simp [AtLineEnd], [], by simp, rfl, .nil _, by simp⟩
  | case8 skipped c cs ih =>
    by_cases hc : c = '\n'
    · rw [if_pos hc] at ih ⊢
      refine ⟨[], c :: cs, rfl, by simp, by simp [AtLineEnd, hc], Correct.blank ih ?_⟩
      rw [hc]
      rfl
    · rw [if_neg hc] at ih ⊢
      obtain ⟨body, after, rfl, hbody, hafter, hgap⟩ := ih
      exact ⟨c :: body, after, rfl, by simp [hbody, Ne.symm hc], hafter, by simpa using hgap⟩
  | case9 read skipped => exact .inr ⟨by simp [HasCommentEnd], by simp⟩
  | case10 read skipped cs ih =>
    exact .inl ⟨[], cs, rfl, by simp [HasCommentEnd, List.infix_cons_iff], ih⟩
  | case11 read skipped c cs hc ih => exact ih.read hc

end Gap

namespace Lexer

variable {quote : Char}

/-- What a string should be whose characters after the opening quote are given. -/
def StringBody.Correct (quote : Char) (cs : List Char) (body : StringBody) : Prop :=
  cs = body.consumed ++ body.rest ∧ match body.text with
    | some text => ∃ inner, body.consumed = inner ++ [quote] ∧ Decodes quote inner text
    | none => Unclosed quote body.consumed ∧ AtLineEnd body.rest

/-- Characters that stand for one character, in front of a correct rest of a string. -/
theorem StringBody.Correct.push {body : StringBody} {cs : List Char} (h : body.Correct quote cs)
    (piece : List Char) (c : Char) (hpiece : ∀ inner text, Decodes quote inner text →
      Decodes quote (piece ++ inner) (c :: text)) :
    (body.push piece c).Correct quote (piece ++ cs) := by
  obtain ⟨text, consumed, rest⟩ := body
  obtain ⟨rfl, hbody⟩ := h
  refine ⟨(List.append_assoc _ _ _).symm, ?_⟩
  cases text with
  | some text =>
    obtain ⟨inner, rfl, hinner⟩ := hbody
    exact ⟨piece ++ inner, (List.append_assoc _ _ _).symm, hpiece inner text hinner⟩
  | none =>
    obtain ⟨⟨front, text, hfront, hconsumed⟩, hrest⟩ := hbody
    refine ⟨⟨piece ++ front, c :: text, hpiece front text hfront, ?_⟩, hrest⟩
    rcases hconsumed with rfl | rfl
    · exact .inl rfl
    · exact .inr (List.append_assoc _ _ _).symm

/-- The scan of a string does what it should. -/
theorem StringBody.scan_correct (quote : Char) (cs : List Char) :
    (StringBody.scan quote cs).Correct quote cs := by
  fun_induction StringBody.scan quote cs with
  | case1 => exact ⟨rfl, ⟨[], [], .nil, .inl rfl⟩, by simp [AtLineEnd]⟩
  | case2 => exact ⟨rfl, ⟨[], [], .nil, .inr rfl⟩, by simp [AtLineEnd]⟩
  | case3 cs => exact ⟨rfl, ⟨[], [], .nil, .inr rfl⟩, by simp [AtLineEnd]⟩
  | case4 c cs hline ih => exact ih.push ['\\', c] c fun _ _ hinner => .escaped hline hinner
  | case5 cs => exact ⟨rfl, ⟨[], [], .nil, .inl rfl⟩, by simp [AtLineEnd]⟩
  | case6 cs => exact ⟨rfl, [], rfl, .nil⟩
  | case7 c cs hlast hnext hline hquote ih =>
    have hescape : c ≠ '\\' := by
      rintro rfl
      cases cs with
      | nil => exact hlast rfl rfl
      | cons d cs => exact hnext d cs rfl rfl
    exact ih.push [c] c fun _ _ hinner => .plain hescape hquote hline hinner

/-- What a cut should be whose token starts the given text. -/
structure Cut.Correct (skipped text : List Char) (cut : Cut) : Prop where
  skipped_eq : cut.skipped = skipped
  text_eq : text = cut.lexeme ++ cut.rest
  spells : Spells cut.kind cut.lexeme cut.rest

/-- A string is cut off with its quotes, closed or not. -/
theorem Cut.ofString_correct (skipped : List Char) (quote : Quote) (cs : List Char) :
    (Cut.ofString skipped quote cs).Correct skipped (quote.char :: cs) := by
  have hbody := StringBody.scan_correct quote.char cs
  unfold Cut.ofString
  generalize StringBody.scan quote.char cs = body at hbody ⊢
  obtain ⟨text, consumed, rest⟩ := body
  obtain ⟨rfl, hbody⟩ := hbody
  refine ⟨rfl, rfl, ?_⟩
  cases text with
  | some text =>
    obtain ⟨inner, rfl, hinner⟩ := hbody
    exact .quoted hinner
  | none => exact .openString hbody.1 hbody.2

/-- An arrow is not at the front of a text unless its two characters are. -/
theorem not_arrow_of_head {spelling : Arrow} {first second c : Char} {cs : List Char}
    (hspelling : spelling.text.toList = [first, second])
    (hcs : ¬ (c = first ∧ cs.head? = some second)) : ¬ spelling.text.toList <+: c :: cs := by
  rintro ⟨tail, htail⟩
  rw [hspelling] at htail
  obtain ⟨hfirst, hrest⟩ := List.cons.inj htail
  exact hcs ⟨hfirst.symm, by rw [← hrest]; rfl⟩

/-- The token that starts with a character that opens no gap. -/
theorem Cut.ofToken_correct (skipped : List Char) {c : Char} {cs : List Char}
    (hgap : ¬ OpensGap c cs) : (Cut.ofToken skipped c cs).Correct skipped (c :: cs) := by
  unfold Cut.ofToken
  by_cases hidentifier : isIdentifierStart c = true
  · rw [if_pos hidentifier]
    refine ⟨rfl, ?_, .identifier hidentifier (fun d hd => List.mem_takeWhile_imp hd) ?_⟩
    · exact congrArg (c :: ·) List.takeWhile_append_dropWhile.symm
    · intro d hd
      rw [← List.find?_not_eq_head?_dropWhile] at hd
      simpa using List.find?_some hd
  rw [if_neg hidentifier]
  by_cases hsingle : c = Quote.single.char
  · rw [if_pos hsingle, hsingle]
    exact ofString_correct skipped .single cs
  rw [if_neg hsingle]
  by_cases hdouble : c = Quote.double.char
  · rw [if_pos hdouble, hdouble]
    exact ofString_correct skipped .double cs
  rw [if_neg hdouble]
  by_cases harrow : c = '-' ∧ cs.head? = some '>'
  · rw [if_pos harrow]
    obtain ⟨rfl, hnext⟩ := harrow
    obtain ⟨tail, rfl⟩ := List.head?_eq_some_iff.1 hnext
    exact ⟨rfl, rfl, .arrow .arrow⟩
  rw [if_neg harrow]
  by_cases hassign : c = ':' ∧ cs.head? = some '='
  · rw [if_pos hassign]
    obtain ⟨rfl, hnext⟩ := hassign
    obtain ⟨tail, rfl⟩ := List.head?_eq_some_iff.1 hnext
    exact ⟨rfl, rfl, .arrow .assign⟩
  rw [if_neg hassign]
  have halone : StandsAlone c cs := by
    refine ⟨hgap, Bool.eq_false_iff.2 hidentifier, fun quote => ?_, fun spelling => ?_⟩
    · cases quote with
      | single => exact hsingle
      | double => exact hdouble
    · cases spelling with
      | arrow => exact not_arrow_of_head rfl harrow
      | assign => exact not_arrow_of_head rfl hassign
  by_cases hpunctuation : isPunctuation c = true
  · rw [if_pos hpunctuation]
    exact ⟨rfl, rfl, .delimiter hpunctuation halone⟩
  · rw [if_neg hpunctuation]
    exact ⟨rfl, rfl, .stray (Bool.eq_false_iff.2 hpunctuation) halone⟩

/-- What is cut off a text: a gap and the first token, or a gap and the end of file. -/
theorem Cut.ofText_cases (text : List Char) :
    (Cut.ofText text = ⟨text, [], .endOfFile, []⟩ ∧ Trivia text []) ∨
    ∃ trivia rest, text = trivia ++ rest ∧ Trivia trivia rest ∧
      (Cut.ofText text).Correct trivia rest := by
  have hgap : (Gap.ofText text).Correct [] text := Gap.scan_correct .blanks [] text
  unfold Cut.ofText
  cases hscan : Gap.ofText text with
  | runaway skipped comment =>
    rw [hscan] at hgap
    obtain ⟨trivia, body, hskipped, rfl, htext, htrivia, hopen⟩ := hgap
    exact .inr ⟨trivia, _, htext, htrivia, hskipped, (List.append_nil _).symm, .openComment hopen⟩
  | closed skipped rest =>
    rw [hscan] at hgap
    obtain ⟨trivia, hskipped, htext, htrivia, hrest⟩ := hgap
    obtain rfl : skipped = trivia := hskipped
    cases rest with
    | nil =>
      rw [List.append_nil] at htext
      rw [htext]
      exact .inl ⟨rfl, htrivia⟩
    | cons c cs =>
      exact .inr ⟨skipped, c :: cs, htext, htrivia, ofToken_correct skipped (hrest c cs rfl)⟩

/-- A token has a character. -/
theorem Spells.lexeme_ne_nil {kind : Token.Kind} {lexeme rest : List Char}
    (h : Spells kind lexeme rest) : lexeme ≠ [] := by
  cases h with
  | arrow spelling => cases spelling <;> simp [Arrow.text]
  | _ => simp

/-- The end of file is not spelled. -/
theorem Spells.kind_ne_endOfFile {kind : Token.Kind} {lexeme rest : List Char}
    (h : Spells kind lexeme rest) : kind ≠ .endOfFile := by
  cases h <;> simp

/-- A token of a text with the gap in front of it. -/
structure Piece where
  trivia : List Char
  lexeme : List Char
  kind : Token.Kind

/-- The text of a piece. -/
def Piece.text (piece : Piece) : List Char := piece.trivia ++ piece.lexeme

/-- The text of pieces and of what comes after them. -/
def textOf (pieces : List Piece) (trailing : List Char) : List Char :=
  pieces.flatMap Piece.text ++ trailing

/-- The text of pieces is that of the first one and then that of the others. -/
theorem textOf_cons (piece : Piece) (pieces : List Piece) (trailing : List Char) :
    textOf (piece :: pieces) trailing =
      piece.trivia ++ (piece.lexeme ++ textOf pieces trailing) := by
  simp [textOf, Piece.text]

/-- A text as a sequence of tokens with gaps between them. -/
structure Cutting (text : List Char) where
  pieces : List Piece
  trailing : List Char
  text_eq : text = textOf pieces trailing
  /-- Each token is spelled by its piece, in front of the pieces that come after it. -/
  fits : ∀ before piece after, pieces = before ++ piece :: after →
    Trivia piece.trivia (piece.lexeme ++ textOf after trailing) ∧
      Spells piece.kind piece.lexeme (textOf after trailing)
  trailing_trivia : Trivia trailing []

namespace Cutting

/-- A text that is only a gap has no pieces. -/
def gap {text : List Char} (h : Trivia text []) : Cutting text where
  pieces := []
  trailing := text
  text_eq := rfl
  fits := by simp
  trailing_trivia := h

/-- A text that starts with a token has one more piece than the rest. -/
def cons {rest : List Char} (trivia lexeme : List Char) (kind : Token.Kind)
    (htrivia : Trivia trivia (lexeme ++ rest)) (hspells : Spells kind lexeme rest)
    (cutting : Cutting rest) : Cutting (trivia ++ (lexeme ++ rest)) where
  pieces := ⟨trivia, lexeme, kind⟩ :: cutting.pieces
  trailing := cutting.trailing
  text_eq := by rw [textOf_cons, ← cutting.text_eq]
  fits before piece after hsplit := by
    cases before with
    | nil =>
      obtain ⟨rfl, rfl⟩ := List.cons.inj hsplit
      rw [← cutting.text_eq]
      exact ⟨htrivia, hspells⟩
    | cons first before =>
      obtain ⟨-, hsplit⟩ := List.cons.inj hsplit
      exact cutting.fits before piece after hsplit
  trailing_trivia := cutting.trailing_trivia

/-- The token with a given number, in a text that comes after another one. -/
def tokenAfter {text : List Char} (cutting : Cutting text) (before : List Char) (n : Nat) : Token :=
  match cutting.pieces[n]? with
  | some piece => ⟨piece.kind, .ofText (before ++ textOf (cutting.pieces.take n) piece.trivia)⟩
  | none => ⟨.endOfFile, .ofText (before ++ text)⟩

/-- A token after the first one is a token of the rest, further on in the text. -/
theorem tokenAfter_cons_succ {rest : List Char} (trivia lexeme : List Char) (kind : Token.Kind)
    (htrivia : Trivia trivia (lexeme ++ rest)) (hspells : Spells kind lexeme rest)
    (cutting : Cutting rest) (before : List Char) (n : Nat) :
    (cons trivia lexeme kind htrivia hspells cutting).tokenAfter before (n + 1) =
      cutting.tokenAfter (before ++ trivia ++ lexeme) n := by
  simp only [tokenAfter, cons, List.getElem?_cons_succ, List.take_succ_cons, textOf_cons,
    List.append_assoc]

end Cutting

end Lexer

namespace Scanner

/-- The token that comes after `n` others. -/
def tokenAt : Nat → Scanner → Token
  | 0, scanner => scanner.advance.1
  | n + 1, scanner => scanner.advance.2.tokenAt n

/-- What the scanner returns and how it goes on, after some text before. -/
theorem advance_eq (before text : List Char) :
    advance { lexer := ⟨.ofText before, text⟩ } =
      (⟨(Cut.ofText text).kind, .ofText (before ++ (Cut.ofText text).skipped)⟩,
        { lexer := ⟨.ofText (before ++ (Cut.ofText text).skipped ++ (Cut.ofText text).lexeme),
          (Cut.ofText text).rest⟩ }) := by
  simp only [advance, Lexer.next, Location.afterAll_ofText]

/-- At the end of the text the scanner returns ends of file for ever. -/
theorem tokenAt_nil (place : Location) (n : Nat) :
    tokenAt n { lexer := ⟨place, []⟩ } = ⟨.endOfFile, place⟩ := by
  induction n with
  | zero => rfl
  | succ n ih => exact ih

/-- Every text can be cut in such a way that the scanner returns the tokens of the pieces. Each
token takes a character at least, so the induction is on the length of the text. -/
theorem exists_cutting (text : List Char) : ∃ cutting : Cutting text,
    cutting.pieces.length ≤ text.length ∧ ∀ before n,
      tokenAt n { lexer := ⟨.ofText before, text⟩ } = cutting.tokenAfter before n := by
  induction hlength : text.length using Nat.strong_induction_on generalizing text with
  | h length ih =>
    rcases Cut.ofText_cases text with ⟨hcut, htrivia⟩ | ⟨trivia, rest, rfl, htrivia, hcut⟩
    · refine ⟨.gap htrivia, Nat.zero_le _, fun before n => ?_⟩
      have hadvance := advance_eq before text
      rw [hcut, List.append_nil] at hadvance
      cases n with
      | zero => rw [tokenAt, hadvance]; rfl
      | succ n => rw [tokenAt, hadvance, tokenAt_nil]; rfl
    · have hadvance (before : List Char) := advance_eq before (trivia ++ rest)
      generalize Cut.ofText (trivia ++ rest) = cut at hcut hadvance
      obtain ⟨skipped, lexeme, kind, after⟩ := cut
      obtain ⟨hskipped, htext, hspells⟩ := hcut
      obtain rfl : skipped = trivia := hskipped
      obtain rfl : rest = lexeme ++ after := htext
      have hpos : 0 < lexeme.length := List.length_pos_iff.2 hspells.lexeme_ne_nil
      simp only [List.length_append] at hlength
      obtain ⟨cutting, hcount, htokens⟩ := ih after.length (by omega) after rfl
      refine ⟨.cons skipped lexeme kind htrivia hspells cutting, ?_, fun before n => ?_⟩
      · simp only [Cutting.cons, List.length_cons]
        omega
      · cases n with
        | zero =>
          rw [tokenAt, hadvance]
          rfl
        | succ n => rw [tokenAt, hadvance, htokens, Cutting.tokenAfter_cons_succ]

/-- Every source is a sequence of pieces, each a gap and the spelling of a token, and of a gap at
its end. There are not more pieces than characters. The scanner returns the tokens of the pieces in
their order, each with the place that the text before it gives, and after them ends of file for
ever, with the place at the end of the source. -/
theorem cuts_source (source : String) : ∃ cutting : Cutting source.toList,
    cutting.pieces.length ≤ source.length ∧
    (∀ piece ∈ cutting.pieces, piece.kind ≠ .endOfFile) ∧
    ∀ n, (ofSource source).tokenAt n = match cutting.pieces[n]? with
      | some piece => ⟨piece.kind, .ofText (textOf (cutting.pieces.take n) piece.trivia)⟩
      | none => ⟨.endOfFile, .ofText source.toList⟩ := by
  obtain ⟨cutting, hcount, htokens⟩ := exists_cutting source.toList
  rw [String.length_toList] at hcount
  refine ⟨cutting, hcount, fun piece hpiece => ?_, fun n => htokens [] n⟩
  obtain ⟨before, after, hsplit⟩ := List.append_of_mem hpiece
  exact (cutting.fits before piece after hsplit).2.kind_ne_endOfFile

end Scanner

end ShiftReduce
