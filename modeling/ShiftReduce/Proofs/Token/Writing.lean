import ShiftReduce.Proofs.Token.Cutting

/-!
# Tokens that are written can be read back

A token is written by its spelling, where a string has a backslash before each backslash and each
quote of its own kind. Between tokens stand separators, which start with a blank and may hold
comments. A spelling in front of a separator or of the end of the text spells its token, and the
scanner finds every gap and every spelling. So it returns the tokens that were written, whatever
the separators are.
-/

namespace ShiftReduce

open Lexer

namespace Gap

variable {skipped rest body read : List Char} {c : Char}

/-- A character between comments that opens no comment with the one after it. -/
theorem scan_blanks_cons (hline : ∀ tail, c = '/' → rest = '/' :: tail → False)
    (hblock : ∀ tail, c = '/' → rest = '*' :: tail → False) :
    scan .blanks skipped (c :: rest) =
      if Text.isBlank c then scan .blanks (c :: skipped) rest
      else if c = '#' then scan .line (c :: skipped) rest
      else .closed skipped.reverse (c :: rest) := by
  rw [scan.eq_def]
  split
  all_goals grind

/-- A character of a line comment. -/
theorem scan_line_cons : scan .line skipped (c :: rest) =
    scan (if c = '\n' then .blanks else .line) (c :: skipped) rest := rfl

/-- A character of a block comment that does not start its end. -/
theorem scan_block_cons (hend : ∀ tail, c = '*' → rest = '/' :: tail → False) :
    scan (.block read) skipped (c :: rest) = scan (.block (c :: read)) skipped rest := by
  rw [scan.eq_def]
  split
  all_goals grind

/-- A line comment is skipped up to the end of its line. -/
theorem scan_line (hbody : '\n' ∉ body) (hrest : AtLineEnd rest) :
    scan .line skipped (body ++ rest) = scan .blanks (body.reverse ++ skipped) rest := by
  induction body generalizing skipped with
  | nil =>
    cases rest with
    | nil => rfl
    | cons c cs =>
      obtain rfl : c = '\n' := hrest c rfl
      rfl
  | cons c body ih =>
    obtain ⟨hc, hbody⟩ := List.ne_and_not_mem_of_not_mem_cons hbody
    rw [List.cons_append, scan_line_cons, if_neg (Ne.symm hc), ih hbody]
    simp

/-- A block comment is skipped up to its end. -/
theorem scan_block (hbody : ¬ HasCommentEnd (body ++ ['*'])) :
    scan (.block read) skipped (body ++ '*' :: '/' :: rest) =
      scan .blanks ('/' :: '*' :: (body.reverse ++ read ++ skipped)) rest := by
  induction body generalizing read with
  | nil => rfl
  | cons c body ih =>
    -- A star in the body is not in front of a slash, also if it is the last character.
    have hc : ∀ tail, c = '*' → body ++ '*' :: '/' :: rest = '/' :: tail → False := by
      rintro tail rfl htail
      cases body with
      | nil => simp at htail
      | cons d body =>
        obtain ⟨rfl, -⟩ := List.cons.inj htail
        exact hbody ⟨[], body ++ ['*'], rfl⟩
    have hrest : ¬ HasCommentEnd (body ++ ['*']) := fun hend =>
      hbody (hend.trans (List.suffix_cons c _).isInfix)
    rw [List.cons_append, scan_block_cons hc, ih hrest]
    simp

/-- A character that opens no gap ends the gap before it. -/
theorem scan_of_not_opensGap (hc : ¬ OpensGap c rest) :
    scan .blanks skipped (c :: rest) = .closed skipped.reverse (c :: rest) := by
  rw [scan_blanks_cons, if_neg fun h => hc (.inl h), if_neg fun h => hc (.inr (.inl h))]
  · rintro tail rfl rfl
    exact hc (.inr (.inr ⟨rfl, .inl rfl⟩))
  · rintro tail rfl rfl
    exact hc (.inr (.inr ⟨rfl, .inr rfl⟩))

/-- A gap is skipped, whatever comes after it. -/
theorem scan_trivia {trivia : List Char} (h : Trivia trivia rest) (skipped : List Char) :
    scan .blanks skipped (trivia ++ rest) = scan .blanks (trivia.reverse ++ skipped) rest := by
  induction h generalizing skipped with
  | nil rest => rfl
  | @blank c text rest hc _ ih =>
    rw [List.cons_append, scan_blanks_cons, if_pos hc, ih]
    · simp
    · rintro tail rfl
      cases hc
    · rintro tail rfl
      cases hc
  | @line sign body text rest hsign hbody hend _ ih =>
    have hline : scan .blanks skipped (sign ++ (body ++ (text ++ rest))) =
        scan .line (sign.reverse ++ skipped) (body ++ (text ++ rest)) := by
      rcases hsign with rfl | rfl
      · rfl
      · rfl
    rw [List.append_assoc, List.append_assoc, hline, scan_line hbody hend, ih]
    simp
  | @block body text rest hbody _ ih =>
    have htext : '/' :: '*' :: body ++ ['*', '/'] ++ text ++ rest =
        '/' :: '*' :: (body ++ '*' :: '/' :: (text ++ rest)) := by simp
    have hblock : scan .blanks skipped ('/' :: '*' :: (body ++ '*' :: '/' :: (text ++ rest))) =
        scan (.block ['*', '/']) skipped (body ++ '*' :: '/' :: (text ++ rest)) := rfl
    rw [htext, hblock, scan_block hbody, ih]
    simp

end Gap

namespace Lexer

variable {quote : Char} {body text lexeme rest : List Char} {kind : Token.Kind}

/-- The characters of a string are read one after the other up to any point of it. -/
theorem StringBody.scan_append (h : Decodes quote body text) (rest : List Char) :
    StringBody.scan quote (body ++ rest) =
      ⟨(StringBody.scan quote rest).text.map (text ++ ·),
        body ++ (StringBody.scan quote rest).consumed, (StringBody.scan quote rest).rest⟩ := by
  induction h with
  | nil => simp
  | @plain c body text hescape hquote hline _ ih =>
    rw [List.cons_append, StringBody.scan, if_neg hline, if_neg hquote, ih]
    · simp [StringBody.push, Function.comp_def]
    · rintro rfl
      exact absurd rfl hescape
    · rintro d cs rfl
      exact absurd rfl hescape
  | @escaped c body text hline _ ih =>
    rw [List.cons_append, List.cons_append, StringBody.scan, if_neg hline, ih]
    simp [StringBody.push, Function.comp_def]

/-- A string is closed by its quote. -/
theorem StringBody.scan_quote (quote : Quote) (rest : List Char) :
    StringBody.scan quote.char (quote.char :: rest) = ⟨some [], [quote.char], rest⟩ := by
  cases quote with
  | single => rfl
  | double => rfl

/-- A string does not go past the end of its line, also after a backslash. -/
theorem StringBody.scan_atLineEnd (hrest : AtLineEnd rest) :
    StringBody.scan quote rest = ⟨none, [], rest⟩ ∧
      StringBody.scan quote ('\\' :: rest) = ⟨none, ['\\'], rest⟩ := by
  cases rest with
  | nil => exact ⟨rfl, rfl⟩
  | cons c cs =>
    obtain rfl : c = '\n' := hrest c rfl
    exact ⟨rfl, rfl⟩

/-- The characters that start an identifier, by their codes: letters and the underscore. -/
theorem isIdentifierStart_iff {c : Char} : isIdentifierStart c = true ↔
    65 ≤ c.toNat ∧ c.toNat ≤ 90 ∨ 97 ≤ c.toNat ∧ c.toNat ≤ 122 ∨ c = '_' := by
  delta isIdentifierStart Char.isAlpha Char.isUpper Char.isLower
  simp only [Bool.or_eq_true, Bool.and_eq_true, decide_eq_true_eq, beq_iff_eq, ge_iff_le,
    UInt32.le_iff_toNat_le, or_assoc]
  rfl

/-- An identifier goes on with the characters that start one, digits and single quotes. -/
theorem isIdentifierRest_iff {c : Char} : isIdentifierRest c = true ↔
    isIdentifierStart c = true ∨ 48 ≤ c.toNat ∧ c.toNat ≤ 57 ∨ c = '\'' := by
  have hcode : c.val.toNat = c.toNat := rfl
  delta isIdentifierRest isIdentifierStart Char.isAlphanum Char.isDigit
  simp only [Bool.or_eq_true, Bool.and_eq_true, decide_eq_true_eq, beq_iff_eq, ge_iff_le,
    UInt32.le_iff_toNat_le]
  grind

/-- No character of an identifier is blank. -/
theorem isIdentifierRest_of_isBlank {c : Char} (hc : Text.isBlank c = true) :
    isIdentifierRest c = false := by
  rw [Bool.eq_false_iff, Ne, isIdentifierRest_iff, isIdentifierStart_iff]
  simp only [Text.isBlank, Bool.or_eq_true, Bool.and_eq_true, decide_eq_true_eq,
    beq_iff_eq] at hc
  rintro ((hcode | hcode | rfl) | hcode | rfl)
  · omega
  · omega
  · simp at hc
  · omega
  · simp at hc

/-- An identifier opens no gap. -/
theorem not_opensGap_of_isIdentifierStart {c : Char} (hc : isIdentifierStart c = true) :
    ¬ OpensGap c rest := by
  rintro (hblank | rfl | ⟨rfl, -⟩)
  · have hrest := isIdentifierRest_of_isBlank hblank
    rw [isIdentifierRest_iff.2 (.inl hc)] at hrest
    cases hrest
  · exact absurd hc (by decide)
  · exact absurd hc (by decide)

/-- A quote opens a string. -/
theorem Cut.ofToken_quote (skipped : List Char) (quote : Quote) (cs : List Char) :
    Cut.ofToken skipped quote.char cs = .ofString skipped quote cs := by
  cases quote with
  | single => rfl
  | double => rfl

/-- A character that stands alone is punctuation or a stray character. -/
theorem Cut.ofToken_of_standsAlone {c : Char} (skipped : List Char) (h : StandsAlone c rest) :
    Cut.ofToken skipped c rest = if isPunctuation c then ⟨skipped, [c], .delimiter c, rest⟩
      else ⟨skipped, [c], .invalid (.stray c), rest⟩ := by
  obtain ⟨-, hidentifier, hquotes, harrows⟩ := h
  have harrow : ¬ (c = '-' ∧ rest.head? = some '>') := by
    rintro ⟨rfl, hnext⟩
    obtain ⟨tail, rfl⟩ := List.head?_eq_some_iff.1 hnext
    exact harrows .arrow ⟨tail, rfl⟩
  have hassign : ¬ (c = ':' ∧ rest.head? = some '=') := by
    rintro ⟨rfl, hnext⟩
    obtain ⟨tail, rfl⟩ := List.head?_eq_some_iff.1 hnext
    exact harrows .assign ⟨tail, rfl⟩
  rw [Cut.ofToken, if_neg (Bool.eq_false_iff.1 hidentifier), if_neg (hquotes .single),
    if_neg (hquotes .double), if_neg harrow, if_neg hassign]

/-- After a gap comes the token that the next character starts. -/
theorem Cut.ofText_of_not_opensGap {c : Char} {trivia : List Char}
    (htrivia : Trivia trivia (c :: rest)) (hc : ¬ OpensGap c rest) :
    Cut.ofText (trivia ++ c :: rest) = .ofToken trivia c rest := by
  simp only [Cut.ofText, Gap.ofText, Gap.scan_trivia htrivia, Gap.scan_of_not_opensGap hc,
    List.append_nil, List.reverse_reverse]

/-- The first token of a text is the one that is spelled after its gap. -/
theorem Cut.ofText_of_spells {trivia : List Char} (htrivia : Trivia trivia (lexeme ++ rest))
    (h : Spells kind lexeme rest) :
    Cut.ofText (trivia ++ (lexeme ++ rest)) = ⟨trivia, lexeme, kind, rest⟩ := by
  cases h with
  | @identifier c cs rest hc hcs hrest =>
    have hend : rest.takeWhile isIdentifierRest = [] ∧ rest.dropWhile isIdentifierRest = rest := by
      cases rest with
      | nil => exact ⟨rfl, rfl⟩
      | cons d rest => simp [hrest d rfl]
    rw [List.cons_append] at htrivia ⊢
    rw [ofText_of_not_opensGap htrivia (not_opensGap_of_isIdentifierStart hc), Cut.ofToken,
      if_pos hc, List.takeWhile_append_of_pos hcs, List.dropWhile_append_of_pos hcs, hend.1,
      hend.2, List.append_nil]
  | @quoted quote body text rest hbody =>
    have hgap : ¬ OpensGap quote.char (body ++ quote.char :: rest) := by
      cases quote <;> simp [OpensGap, Quote.char, Text.isBlank]
    rw [List.append_assoc, List.cons_append] at htrivia ⊢
    rw [List.singleton_append] at htrivia ⊢
    rw [ofText_of_not_opensGap htrivia hgap, ofToken_quote, Cut.ofString,
      StringBody.scan_append hbody, StringBody.scan_quote]
    simp
  | arrow spelling =>
    cases spelling with
    | arrow =>
      have htext : Arrow.arrow.text.toList = ['-', '>'] := rfl
      rw [htext] at htrivia ⊢
      exact ofText_of_not_opensGap htrivia (by simp [OpensGap, Text.isBlank])
    | assign =>
      have htext : Arrow.assign.text.toList = [':', '='] := rfl
      rw [htext] at htrivia ⊢
      exact ofText_of_not_opensGap htrivia (by simp [OpensGap, Text.isBlank])
  | @delimiter c rest hpunctuation halone =>
    rw [List.singleton_append] at htrivia ⊢
    rw [ofText_of_not_opensGap htrivia halone.1, ofToken_of_standsAlone trivia halone,
      if_pos hpunctuation]
  | @stray c rest hpunctuation halone =>
    rw [List.singleton_append] at htrivia ⊢
    rw [ofText_of_not_opensGap htrivia halone.1, ofToken_of_standsAlone trivia halone,
      if_neg (Bool.eq_false_iff.1 hpunctuation)]
  | @openString quote body rest hbody hrest =>
    have hgap : ¬ OpensGap quote.char (body ++ rest) := by
      cases quote <;> simp [OpensGap, Quote.char, Text.isBlank]
    obtain ⟨front, text, hfront, hbody⟩ := hbody
    obtain ⟨hend, hescape⟩ := @StringBody.scan_atLineEnd quote.char rest hrest
    rw [List.cons_append] at htrivia ⊢
    rw [ofText_of_not_opensGap htrivia hgap, ofToken_quote, Cut.ofString]
    rcases hbody with rfl | rfl
    · simp [StringBody.scan_append hfront, hend]
    · simp [StringBody.scan_append hfront, hescape]
  | @openComment body hbody =>
    have hscan := Gap.scan_correct (.block ['*', '/']) trivia.reverse body
    rcases hscan with ⟨inner, after, rfl, -, -⟩ | ⟨-, hscan⟩
    · exact absurd ⟨inner, after, by simp⟩ hbody
    · have hblock : Gap.scan .blanks trivia.reverse ('/' :: '*' :: body) =
          Gap.scan (.block ['*', '/']) trivia.reverse body := rfl
      rw [List.append_nil] at htrivia ⊢
      simp only [Cut.ofText, Gap.ofText, Gap.scan_trivia htrivia, List.append_nil, hblock, hscan,
        List.reverse_reverse]
      rfl

/-- A text that is only a gap has no token. -/
theorem Cut.ofText_of_trivia (h : Trivia text []) :
    Cut.ofText text = ⟨text, [], .endOfFile, []⟩ := by
  have hend : Gap.scan .blanks text.reverse [] = .closed text.reverse.reverse [] := rfl
  have hscan := Gap.scan_trivia h []
  rw [List.append_nil, List.append_nil, hend, List.reverse_reverse] at hscan
  simp only [Cut.ofText, Gap.ofText, hscan]

/-- Blanks and finished comments: a line comment comes with the newline at its end, and a block
comment is closed. -/
inductive Filler : List Char → Prop
  | nil : Filler []
  | blank {c : Char} {text : List Char} : Text.isBlank c = true → Filler text → Filler (c :: text)
  | line {sign body text : List Char} : sign = ['#'] ∨ sign = ['/', '/'] → '\n' ∉ body →
      Filler text → Filler (sign ++ body ++ '\n' :: text)
  | block {body text : List Char} : ¬ HasCommentEnd body → Filler text →
      Filler ('/' :: '*' :: body ++ ['*', '/'] ++ text)

/-- What may stand between two tokens: a blank, and after it blanks and finished comments. -/
def Separator (text : List Char) : Prop :=
  Filler text ∧ ∃ c ∈ text.head?, Text.isBlank c = true

/-- The characters of a text between quotes: a backslash stands before each backslash and each
quote. -/
def escape (quote : Char) (text : List Char) : List Char :=
  text.flatMap fun c => if c = '\\' ∨ c = quote then ['\\', c] else [c]

/-- Finished comments stay comments in front of every text. -/
theorem Filler.trivia (h : Filler text) (rest : List Char) : Trivia text rest := by
  induction h with
  | nil => exact .nil rest
  | blank hc _ ih => exact .blank hc ih
  | @line sign body text hsign hbody _ ih =>
    exact .line hsign hbody (by simp [AtLineEnd]) (.blank rfl ih)
  | @block body text hbody _ ih =>
    refine .block (fun hend => hbody ?_) ih
    -- The star at the end is not followed by a slash, so the end of the comment is before it.
    rcases List.infix_concat_iff.1 hend with hsuffix | hinfix
    · obtain ⟨before, heq⟩ := hsuffix
      have hlast := congrArg List.getLast? heq
      simp at hlast
    · exact hinfix

/-- The characters of a text between quotes stand for the text. -/
theorem decodes_escape (h : '\n' ∉ text) : Decodes quote (escape quote text) text := by
  induction text with
  | nil => exact .nil
  | cons c text ih =>
    obtain ⟨hc, htext⟩ := List.ne_and_not_mem_of_not_mem_cons h
    by_cases hspecial : c = '\\' ∨ c = quote
    · simpa [escape, hspecial] using Decodes.escaped (Ne.symm hc) (ih htext)
    · have hplain := not_or.1 hspecial
      simpa [escape, hspecial] using Decodes.plain hplain.1 hplain.2 (Ne.symm hc) (ih htext)

end Lexer

namespace Token.Kind

/-- The tokens that can be written. -/
def Writable : Token.Kind → Prop
  | .identifier name => ∃ c cs, name.toList = c :: cs ∧ isIdentifierStart c = true ∧
      ∀ d ∈ cs, isIdentifierRest d = true
  | .quoted _ text => '\n' ∉ text.toList
  | .arrow _ => True
  | .delimiter c => isPunctuation c = true ∧ c ∉ ['\'', '"', '#', '_']
  | .endOfFile => False
  | .invalid _ => False

/-- How a token is written. -/
def spelling : Token.Kind → List Char
  | .identifier name => name.toList
  | .quoted quote text => quote.char :: escape quote.char text.toList ++ [quote.char]
  | .arrow spelling => spelling.text.toList
  | .delimiter c => [c]
  | .endOfFile => []
  | .invalid _ => []

end Token.Kind

namespace Lexer

variable {kind : Token.Kind} {kinds : List Token.Kind} {leading text rest : List Char}

/-- The rest of a text starts with a blank or is empty. -/
def AtGap (rest : List Char) : Prop := ∀ c ∈ rest.head?, Text.isBlank c = true

/-- A delimiter that can be written stands alone in front of a gap. -/
theorem standsAlone_of_atGap {c : Char} (hc : isPunctuation c = true)
    (hspecial : c ∉ ['\'', '"', '#', '_']) (hrest : AtGap rest) : StandsAlone c rest := by
  simp only [List.mem_cons, List.not_mem_nil, or_false, not_or] at hspecial
  obtain ⟨hsingle, hdouble, hsign, hunderscore⟩ := hspecial
  have hnext : ∀ d, Text.isBlank d = false → rest.head? ≠ some d := by
    intro d hd hhead
    exact absurd (hrest d hhead) (Bool.eq_false_iff.1 hd)
  simp only [isPunctuation, Bool.or_eq_true, Bool.and_eq_true, decide_eq_true_eq] at hc
  refine ⟨?_, ?_, fun quote => ?_, fun spelling => ?_⟩
  · rintro (hblank | hopens | ⟨-, hslash | hstar⟩)
    · simp only [Text.isBlank, Bool.or_eq_true, Bool.and_eq_true, decide_eq_true_eq,
        beq_iff_eq] at hblank
      omega
    · exact hsign hopens
    · exact hnext '/' rfl hslash
    · exact hnext '*' rfl hstar
  · rw [Bool.eq_false_iff, Ne, isIdentifierStart_iff]
    rintro (hcode | hcode | hstart)
    · omega
    · omega
    · exact hunderscore hstart
  · cases quote with
    | single => exact hsingle
    | double => exact hdouble
  · cases spelling with
    | arrow => exact not_arrow_of_head rfl fun h => hnext '>' rfl h.2
    | assign => exact not_arrow_of_head rfl fun h => hnext '=' rfl h.2

/-- The way a token is written spells it in front of a gap. -/
theorem spells_of_writable (hkind : kind.Writable) (hrest : AtGap rest) :
    Spells kind kind.spelling rest := by
  cases kind with
  | identifier name =>
    obtain ⟨c, cs, hname, hc, hcs⟩ := hkind
    have hspells : Spells (.identifier (String.ofList (c :: cs))) (c :: cs) rest :=
      .identifier hc hcs fun d hd => isIdentifierRest_of_isBlank (hrest d hd)
    rwa [← hname, String.ofList_toList] at hspells
  | quoted quote text =>
    have hspells : Spells (.quoted quote (String.ofList text.toList))
        (quote.char :: escape quote.char text.toList ++ [quote.char]) rest :=
      .quoted (decodes_escape hkind)
    rwa [String.ofList_toList] at hspells
  | arrow spelling => exact .arrow spelling
  | delimiter c => exact .delimiter hkind.1 (standsAlone_of_atGap hkind.1 hkind.2 hrest)
  | endOfFile => exact hkind.elim
  | invalid fault => exact hkind.elim

/-- Tokens written one after the other, each with a separator after it, which may be missing after
the last one. -/
inductive Written : List Token.Kind → List Char → Prop
  | nil : Written [] []
  | cons {kind : Token.Kind} {kinds : List Token.Kind} {gap text : List Char} : kind.Writable →
      Separator gap ∨ gap = [] ∧ kinds = [] → Written kinds text →
      Written (kind :: kinds) (kind.spelling ++ (gap ++ text))

/-- A text with the given tokens: they are written one after the other with separators between
them, and there may be a separator at either end. -/
def Writing (kinds : List Token.Kind) (text : List Char) : Prop :=
  ∃ leading written, (leading = [] ∨ Separator leading) ∧ Written kinds written ∧
    text = leading ++ written

end Lexer

namespace Scanner

variable {kinds : List Token.Kind} {leading text : List Char}

/-- The next token is the one that `advance` returns, unless this is the end of file. -/
theorem next_of_advance {scanner : Scanner} {token : Token} {lexer : Lexer}
    (h : scanner.advance = (token, { lexer })) : scanner.next =
      if token.isEof then (none, { lexer, ahead := some token }) else (some token, { lexer }) := by
  simp only [next, peek, h]
  rfl

/-- The scanner returns the tokens that are written after a gap, and then ends of file. -/
theorem tokens_of_written (h : Written kinds text) (hleading : Filler leading)
    (before : List Char) :
    (∀ n, (tokenAt n { lexer := ⟨.ofText before, leading ++ text⟩ }).kind =
      kinds.getD n .endOfFile) ∧
    ∀ count, kinds.length ≤ count →
      (toList count { lexer := ⟨.ofText before, leading ++ text⟩ }).map (·.kind) = kinds := by
  induction h generalizing leading before with
  | nil =>
    have hadvance := advance_eq before (leading ++ [])
    rw [List.append_nil] at hadvance ⊢
    rw [Cut.ofText_of_trivia (hleading.trivia [])] at hadvance
    refine ⟨fun n => ?_, fun count _ => ?_⟩
    · cases n with
      | zero => rw [tokenAt, hadvance]; rfl
      | succ n => rw [tokenAt, hadvance, tokenAt_nil]; rfl
    · cases count with
      | zero => rfl
      | succ count => rw [toList, next_of_advance hadvance]; rfl
  | @cons kind kinds gap text hkind hgap hwritten ih =>
    -- What stands after the token starts with a blank, or the token is the last one of the text.
    have hrest : AtGap (gap ++ text) ∧ Filler gap := by
      rcases hgap with ⟨hfiller, c, hc, hblank⟩ | ⟨rfl, rfl⟩
      · refine ⟨fun d hd => ?_, hfiller⟩
        obtain ⟨tail, rfl⟩ := List.head?_eq_some_iff.1 hc
        obtain rfl : c = d := Option.some.inj hd
        exact hblank
      · cases hwritten
        exact ⟨by simp [AtGap], .nil⟩
    have hspells := spells_of_writable hkind hrest.1
    have hadvance := advance_eq before (leading ++ (kind.spelling ++ (gap ++ text)))
    rw [Cut.ofText_of_spells (hleading.trivia _) hspells] at hadvance
    obtain ⟨htokens, hlist⟩ := ih hrest.2 (before ++ leading ++ kind.spelling)
    refine ⟨fun n => ?_, fun count hcount => ?_⟩
    · cases n with
      | zero => rw [tokenAt, hadvance]; rfl
      | succ n => rw [tokenAt, hadvance, htokens]; rfl
    · cases count with
      | zero => simp at hcount
      | succ count =>
        have hkindEof : ¬ (⟨kind, .ofText (before ++ leading)⟩ : Token).isEof = true := by
          simpa [Token.isEof] using hspells.kind_ne_endOfFile
        rw [toList, next_of_advance hadvance, if_neg hkindEof]
        rw [List.length_cons, Nat.add_le_add_iff_right] at hcount
        simp only [List.map_cons, hlist count hcount]

/-- A text in which tokens are written with any separators between them, and perhaps at its ends, is
cut into these tokens. They are what the scanner returns one after the other, with ends of file
after them, and what it lists if it may go on long enough. -/
theorem reads_back {source : String} (h : Writing kinds source.toList) :
    (∀ n, ((ofSource source).tokenAt n).kind = kinds.getD n .endOfFile) ∧
    ∀ count, kinds.length ≤ count →
      ((ofSource source).toList count).map (·.kind) = kinds := by
  obtain ⟨leading, written, hleading, hwritten, hsource⟩ := h
  have hfiller : Filler leading := by
    rcases hleading with rfl | hseparator
    · exact .nil
    · exact hseparator.1
  have htokens := tokens_of_written hwritten hfiller []
  rw [← hsource] at htokens
  exact htokens

/-- The tokens are a name that ends with a quote, a string that holds the start of a comment, its
own quote and a backslash, a slash that starts no comment, and an arrow. They are read back from a
text with comments at its ends and between them, which hold quotes and an arrow. -/
theorem reads_back_of_quotes_and_comments :
    Writing [.identifier "a'", .quoted .single "/*'\\", .delimiter '/', .arrow .assign]
      " # it's\na' '/*\\'\\\\' /*->*/ / :=\t//\"\n".toList ∧
    ((ofSource " # it's\na' '/*\\'\\\\' /*->*/ / :=\t//\"\n").toList 9).map (·.kind) =
      [.identifier "a'", .quoted .single "/*'\\", .delimiter '/', .arrow .assign] := by
  have hblank : Filler " ".toList := .blank rfl .nil
  have hhash : Filler " # it's\n".toList :=
    .blank rfl (@Filler.line ['#'] " it's".toList [] (.inl rfl) (by decide) .nil)
  have hblock : Filler " /*->*/ ".toList :=
    .blank rfl (@Filler.block "->".toList " ".toList (by unfold HasCommentEnd; decide) hblank)
  have hslashes : Filler "\t//\"\n".toList :=
    .blank rfl (@Filler.line ['/', '/'] "\"".toList [] (.inr rfl) (by decide) .nil)
  have hname : Token.Kind.Writable (.identifier "a'") := by
    refine ⟨'a', ['\''], rfl, rfl, fun d hd => ?_⟩
    rw [List.mem_singleton.1 hd]
    rfl
  have hstring : Token.Kind.Writable (.quoted .single "/*'\\") := by
    show '\n' ∉ "/*'\\".toList
    decide
  have hslash : Token.Kind.Writable (.delimiter '/') := ⟨rfl, by decide⟩
  have hassign : Token.Kind.Writable (.arrow .assign) := trivial
  have hwritten := Written.cons hname (.inl ⟨hblank, ' ', rfl, rfl⟩)
    (.cons hstring (.inl ⟨hblock, ' ', rfl, rfl⟩)
      (.cons hslash (.inl ⟨hblank, ' ', rfl, rfl⟩)
        (.cons hassign (.inl ⟨hslashes, '\t', rfl, rfl⟩) .nil)))
  have hwriting : Writing [.identifier "a'", .quoted .single "/*'\\", .delimiter '/',
      .arrow .assign] " # it's\na' '/*\\'\\\\' /*->*/ / :=\t//\"\n".toList :=
    ⟨_, _, .inr ⟨hhash, ' ', rfl, rfl⟩, hwritten, by decide⟩
  exact ⟨hwriting, (reads_back hwriting).2 9 (by decide)⟩

end Scanner

end ShiftReduce
