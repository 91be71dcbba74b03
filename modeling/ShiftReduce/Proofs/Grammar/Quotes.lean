import Mathlib.Data.List.Sort
import Mathlib.Data.Set.Function
import ShiftReduce.Proofs.Grammar.References
import ShiftReduce.Proofs.Grammar.Verdict

/-!
# Quotes in the names of terminals

The names of terminals may keep their quotes. Then a text in single quotes and the same text in
double quotes are two terminals, and otherwise they are one. Apart from that the two ways to read a
source lead to the same result: what is refused does not depend on quotes, non-terminals are
numbered by their identifiers, and the rules differ in the numbers of their terminals only. These
numbers are the same as well as long as no text is written in both ways.
-/

namespace ShiftReduce

/-- A text without its quotes. -/
def Quote.unwrap (name : String) : String := String.ofList name.toList.tail.dropLast

/-- A wrapped text is the text between two quotes. -/
theorem Quote.toList_wrap (quote : Quote) (text : String) :
    (quote.wrap text).toList = quote.char :: (text.toList ++ [quote.char]) := by
  simp [wrap]

/-- To take the quotes from a wrapped text gives the text back. -/
@[simp]
theorem Quote.unwrap_wrap (quote : Quote) (text : String) : unwrap (quote.wrap text) = text := by
  simp [unwrap, toList_wrap]

/-- The quotes can be seen. -/
theorem Quote.eq_of_wrap_eq {quote other : Quote} {text : String}
    (h : quote.wrap text = other.wrap text) : quote = other := by
  have hchar := congrArg (·.toList.head?) h
  simp only [toList_wrap, List.head?_cons, Option.some.injEq] at hchar
  cases quote <;> cases other <;> simp_all [char]

namespace Written

section Lists

variable {α β : Type} [BEq α] [LawfulBEq α] [BEq β] [LawfulBEq β] {f : α → β} {xs : List α} {x : α}

/-- To insert an image is to insert the element, if images of different elements differ here. -/
theorem pushUnique_map (h : f x ∈ xs.map f ↔ x ∈ xs) :
    pushUnique (xs.map f) (f x) = (pushUnique xs x).map f := by
  by_cases hx : x ∈ xs
  · rw [pushUnique_of_mem hx, pushUnique_of_mem (h.2 hx)]
  · rw [pushUnique_of_notMem hx, pushUnique_of_notMem fun hfx => hx (h.1 hfx), List.map_append]
    rfl

/-- A map that keeps different elements apart keeps their first occurrences. -/
theorem eraseDups_map (h : Set.InjOn f {x | x ∈ xs}) :
    (xs.map f).eraseDups = xs.eraseDups.map f := by
  induction xs using List.reverseRecOn with
  | nil => rfl
  | append_singleton xs x ih =>
    have hxs : Set.InjOn f {x | x ∈ xs} := h.mono fun y hy => List.mem_append_left _ hy
    rw [List.map_append, List.map_singleton, eraseDups_concat, eraseDups_concat, ih hxs]
    refine pushUnique_map ⟨fun hfx => ?_, List.mem_map_of_mem⟩
    obtain ⟨y, hy, hyx⟩ := List.mem_map.1 hfx
    have hmem : y ∈ xs ++ [x] := List.mem_append_left _ (List.mem_eraseDups.1 hy)
    rwa [← h hmem (by simp) hyx]

/-- A map that keeps different elements apart keeps their places. -/
theorem idxOf_map (h : Set.InjOn f {x | x ∈ xs}) (hx : x ∈ xs) :
    (xs.map f).idxOf (f x) = xs.idxOf x := by
  induction xs with
  | nil => rfl
  | cons y ys ih =>
    by_cases hyx : y = x
    · rw [hyx, List.map_cons, List.idxOf_cons_self, List.idxOf_cons_self]
    · have hne : f y ≠ f x := fun heq => hyx (h List.mem_cons_self hx heq)
      have hys : x ∈ ys := (List.mem_cons.1 hx).resolve_left (Ne.symm hyx)
      rw [List.map_cons, List.idxOf_cons_ne _ hne, List.idxOf_cons_ne _ hyx,
        ih (h.mono fun z hz => List.mem_cons_of_mem _ hz) hys]

end Lists

variable {startName text : String} {options : ReadOptions} {tokens : List Token}
  {groups : List Group} {quote : Quote}

/-- A mention stands in an alternative. -/
def Mentioned (groups : List Group) (mention : Mention) : Prop :=
  ∃ group ∈ groups, ∃ mentions ∈ group.alternatives, mention ∈ mentions

/-- The only mention whose token is a quoted text is that of the text. -/
@[simp]
theorem Mention.kind_eq_quoted {mention : Mention} :
    mention.kind = .quoted quote text ↔ mention = .quoted quote text := by
  cases mention <;> simp [Mention.kind]

/-- A quoted text is a token of the groups if an alternative mentions it. -/
theorem quoted_mem_kindsOf :
    .quoted quote text ∈ kindsOf groups ↔ Mentioned groups (.quoted quote text) := by
  simp only [kindsOf, Mentioned, List.mem_flatMap]
  refine exists_congr fun group => and_congr_right fun _ => ?_
  simp only [Group.kinds, Group.opening, Group.alternatives, List.mem_append, List.mem_cons,
    List.mem_flatMap, List.mem_map, Mention.kind_eq_quoted, exists_eq_right, reduceCtorEq, false_or,
    or_false, List.not_mem_nil]
  constructor
  · rintro (⟨mentions, hmem, htext⟩ | htext)
    · exact ⟨mentions, .inl hmem, htext⟩
    · exact ⟨group.last, .inr rfl, htext⟩
  · rintro ⟨mentions, hmem | rfl, htext⟩
    · exact .inl ⟨mentions, hmem, htext⟩
    · exact .inr htext

/-- The names of the terminals are those of the quoted texts other than `$`. -/
theorem mem_terminalNames (hkinds : kindsOf groups = tokens.map (·.kind)) {name : String} :
    name ∈ terminalNames options tokens ↔ ∃ quote text, Mentioned groups (.quoted quote text) ∧
      text ≠ endOfInputName ∧ display options quote text = name := by
  simp only [← quoted_mem_kindsOf, hkinds, terminalNames, List.mem_eraseDups, List.mem_filterMap,
    List.mem_map]
  constructor
  · rintro ⟨token, htoken, hname⟩
    cases hkind : token.kind with
    | quoted quote text =>
      rw [hkind, terminal?] at hname
      split at hname
      · cases hname
      · rename_i htext
        exact ⟨quote, text, ⟨token, htoken, hkind⟩, htext, Option.some.inj hname⟩
    | _ => simp [hkind, terminal?] at hname
  · rintro ⟨quote, text, ⟨token, htoken, hkind⟩, htext, rfl⟩
    exact ⟨token, htoken, by rw [hkind, terminal?, if_neg htext]⟩

/-- The terminals whose names have lost their quotes, in the order of the tokens. -/
theorem filterMap_terminal? (startName : String) (tokens : List Token) :
    tokens.filterMap (terminal? { startName } ·.kind) =
      (tokens.filterMap (terminal? { startName, keepQuotes := true } ·.kind)).map Quote.unwrap := by
  rw [List.map_filterMap]
  congr 1
  funext token
  cases token.kind with
  | quoted quote text =>
    simp only [terminal?]
    split
    · rfl
    · exact congrArg some (quote.unwrap_wrap text).symm
  | _ => rfl

/-- No text other than `$` stands in both kinds of quotes. -/
def Unmixed (groups : List Group) : Prop :=
  ∀ text, text ≠ endOfInputName →
    ¬ (Mentioned groups (.quoted .single text) ∧ Mentioned groups (.quoted .double text))

/-- Wherever a text other than `$` is mentioned, it stands in the same quotes. -/
theorem Unmixed.quote_eq {other : Quote} (h : Unmixed groups) (htext : text ≠ endOfInputName)
    (hquote : Mentioned groups (.quoted quote text))
    (hother : Mentioned groups (.quoted other text)) : quote = other := by
  cases quote <;> cases other
  · rfl
  · exact absurd ⟨hquote, hother⟩ (h text htext)
  · exact absurd ⟨hother, hquote⟩ (h text htext)
  · rfl

/-- Where no text is in both kinds of quotes, terminals differ by their texts. -/
theorem Unmixed.injOn_unwrap (h : Unmixed groups)
    (hkinds : kindsOf groups = tokens.map (·.kind)) :
    Set.InjOn Quote.unwrap
      {name | name ∈ terminalNames { startName, keepQuotes := true } tokens} := by
  intro name hname name' hname' heq
  obtain ⟨quote, text, hquote, htext, rfl⟩ := (mem_terminalNames hkinds).1 hname
  obtain ⟨quote', text', hquote', -, rfl⟩ := (mem_terminalNames hkinds).1 hname'
  have htexts : text = text' := by
    rw [← quote.unwrap_wrap text, ← quote'.unwrap_wrap text']
    exact heq
  subst htexts
  rw [h.quote_eq htext hquote hquote']

/-- Where no text is in both kinds of quotes, the terminals are numbered by their texts. -/
theorem Unmixed.terminalNames_eq (h : Unmixed groups)
    (hkinds : kindsOf groups = tokens.map (·.kind)) :
    terminalNames { startName } tokens =
      (terminalNames { startName, keepQuotes := true } tokens).map Quote.unwrap := by
  rw [terminalNames, filterMap_terminal?, terminalNames]
  refine eraseDups_map fun name hname name' hname' heq => ?_
  exact h.injOn_unwrap hkinds (List.mem_eraseDups.2 hname) (List.mem_eraseDups.2 hname') heq

end Written

/-- The same symbol with another number if it is a terminal. -/
def Symbol.mapTerminal (f : TerminalId → TerminalId) : Symbol → Symbol
  | .terminal t => .terminal (f t)
  | .nonterminal n => .nonterminal n
  | .epsilon => .epsilon
  | .endOfInput => .endOfInput

/-- The same rule with other numbers for its terminals. -/
def Rule.mapTerminals (f : TerminalId → TerminalId) (rule : Rule) : Rule :=
  { rule with body := rule.body.map (·.mapTerminal f) }

/-- Non-terminals stay where they are. -/
theorem Rule.nonterminal_mem_mapTerminals {f : TerminalId → TerminalId} {rule : Rule}
    {n : NonterminalId} :
    .nonterminal n ∈ (rule.mapTerminals f).body ↔ .nonterminal n ∈ rule.body := by
  simp only [mapTerminals, List.mem_map]
  constructor
  · rintro ⟨X, hX, heq⟩
    cases X <;> cases heq
    exact hX
  · exact fun hn => ⟨_, hn, rfl⟩

namespace Written

variable {startName text : String} {tokens : List Token} {groups : List Group} {quote : Quote}
  {mention : Mention}

/-- The number that a terminal with quotes has without them. -/
def unquoted (startName : String) (tokens : List Token) (t : TerminalId) : TerminalId :=
  (terminalNames { startName } tokens).idxOf
    (Quote.unwrap ((terminalNames { startName, keepQuotes := true } tokens).getD t ""))

/-- The name of a terminal with quotes is a text in quotes, and without them it is this text. -/
theorem getElem?_unquoted (hkinds : kindsOf groups = tokens.map (·.kind)) {t : TerminalId}
    (ht : t < (terminalNames { startName, keepQuotes := true } tokens).length) :
    ∃ (quote : Quote) (text : String),
      (terminalNames { startName, keepQuotes := true } tokens)[t]? = some (quote.wrap text) ∧
      (terminalNames { startName } tokens)[unquoted startName tokens t]? = some text := by
  obtain ⟨quote, text, hquoted, htext, hname⟩ := (mem_terminalNames hkinds).1 (List.getElem_mem ht)
  have hget : (terminalNames { startName, keepQuotes := true } tokens)[t]? =
      some (quote.wrap text) := by
    rw [List.getElem?_eq_getElem ht, ← hname]
    rfl
  have hmem : text ∈ terminalNames { startName } tokens :=
    (mem_terminalNames hkinds).2 ⟨quote, text, hquoted, htext, rfl⟩
  refine ⟨quote, text, hget, ?_⟩
  rw [unquoted, List.getD_eq_getElem?_getD, hget, Option.getD_some, Quote.unwrap_wrap]
  exact List.getElem?_idxOf hmem

/-- A quoted text other than `$` stands for the terminal with its name. -/
theorem symbol_of_ne (options : ReadOptions) (tokens : List Token)
    (htext : text ≠ endOfInputName) : Mention.symbol options tokens (.quoted quote text) =
      .terminal ((terminalNames options tokens).idxOf (display options quote text)) :=
  if_neg htext

/-- A mention stands for the same symbol without quotes, up to the number of a terminal. -/
theorem symbol_unquoted (hkinds : kindsOf groups = tokens.map (·.kind))
    (hmention : Mentioned groups mention) : mention.symbol { startName } tokens =
      (mention.symbol { startName, keepQuotes := true } tokens).mapTerminal
        (unquoted startName tokens) := by
  cases mention with
  | named name => rfl
  | quoted quote text =>
    by_cases htext : text = endOfInputName
    · rw [htext]
      rfl
    · have hmem : quote.wrap text ∈ terminalNames { startName, keepQuotes := true } tokens :=
        (mem_terminalNames hkinds).2 ⟨quote, text, hmention, htext, rfl⟩
      have hname : (terminalNames { startName, keepQuotes := true } tokens).getD
          ((terminalNames { startName, keepQuotes := true } tokens).idxOf (quote.wrap text)) "" =
            quote.wrap text := by
        rw [List.getD_eq_getElem?_getD, List.getElem?_idxOf hmem, Option.getD_some]
      have hid : unquoted startName tokens
          ((terminalNames { startName, keepQuotes := true } tokens).idxOf (quote.wrap text)) =
            (terminalNames { startName } tokens).idxOf text := by
        rw [unquoted, hname, Quote.unwrap_wrap]
      rw [symbol_of_ne _ _ htext, symbol_of_ne _ _ htext]
      exact congrArg Symbol.terminal hid.symm

/-- The alternatives of a source with the heads of their groups. -/
def alternativesOf (groups : List Group) : List (String × List Mention) :=
  groups.flatMap fun group => group.alternatives.map (group.head, ·)

/-- The rules are the augmented one and those of the alternatives in order. -/
theorem rulesOf_eq (options : ReadOptions) (tokens : List Token) (groups : List Group) :
    rulesOf options tokens groups =
      ⟨Grammar.start, [.nonterminal Grammar.sourceStart, .endOfInput]⟩ ::
        (alternativesOf groups).map fun alternative =>
          ruleOf options tokens alternative.1 alternative.2 := by
  simp [rulesOf, alternativesOf, List.map_flatMap, Function.comp_def]

/-- What is mentioned stands in one of the alternatives. -/
theorem mentioned_iff :
    Mentioned groups mention ↔ ∃ alternative ∈ alternativesOf groups, mention ∈ alternative.2 := by
  simp only [Mentioned, alternativesOf, List.mem_flatMap, List.mem_map]
  constructor
  · rintro ⟨group, hgroup, mentions, hmentions, hmem⟩
    exact ⟨_, ⟨group, hgroup, mentions, hmentions, rfl⟩, hmem⟩
  · rintro ⟨_, ⟨group, hgroup, mentions, hmentions, rfl⟩, hmem⟩
    exact ⟨group, hgroup, mentions, hmentions, hmem⟩

/-- The rules are the same without quotes, up to the numbers of terminals. -/
theorem rulesOf_unquoted (hkinds : kindsOf groups = tokens.map (·.kind)) :
    rulesOf { startName } tokens groups =
      (rulesOf { startName, keepQuotes := true } tokens groups).map
        (·.mapTerminals (unquoted startName tokens)) := by
  rw [rulesOf_eq, rulesOf_eq, List.map_cons, List.map_map]
  refine congrArg _ (List.map_congr_left fun alternative halternative => ?_)
  simp only [Function.comp_apply, ruleOf, Rule.mapTerminals, List.map_map]
  refine congrArg (Rule.mk _) (List.map_congr_left fun mention hmention => ?_)
  exact symbol_unquoted hkinds (mentioned_iff.2 ⟨alternative, halternative, hmention⟩)

/-- The rules do not depend on quotes if and only if no mention stands for another symbol. -/
theorem rulesOf_eq_iff : rulesOf { startName } tokens groups =
      rulesOf { startName, keepQuotes := true } tokens groups ↔
    ∀ mention, Mentioned groups mention → mention.symbol { startName } tokens =
      mention.symbol { startName, keepQuotes := true } tokens := by
  have hnames : nonterminalNames { startName } tokens =
    nonterminalNames { startName, keepQuotes := true } tokens := rfl
  simp only [rulesOf_eq, List.cons.injEq, true_and, List.map_inj_left, ruleOf, hnames,
    Rule.mk.injEq, mentioned_iff]
  constructor
  · rintro h mention ⟨alternative, halternative, hmention⟩
    exact h alternative halternative mention hmention
  · exact fun h alternative halternative mention hmention =>
      h mention ⟨alternative, halternative, hmention⟩

/-- The rules do not depend on quotes if and only if no text is in both kinds of quotes. -/
theorem rulesOf_eq_iff_unmixed (hkinds : kindsOf groups = tokens.map (·.kind)) :
    rulesOf { startName } tokens groups =
      rulesOf { startName, keepQuotes := true } tokens groups ↔ Unmixed groups := by
  rw [rulesOf_eq_iff]
  constructor
  · rintro h text htext ⟨hsingle, hdouble⟩
    -- Without quotes both mentions are the same terminal, so with quotes they have the same name.
    have hsame := (h (.quoted .single text) hsingle).symm.trans (h (.quoted .double text) hdouble)
    have hmem : display { startName, keepQuotes := true } .single text ∈
        terminalNames { startName, keepQuotes := true } tokens :=
      (mem_terminalNames hkinds).2 ⟨.single, text, hsingle, htext, rfl⟩
    rw [symbol_of_ne _ _ htext, symbol_of_ne _ _ htext, Symbol.terminal.injEq,
      List.idxOf_inj hmem] at hsame
    cases Quote.eq_of_wrap_eq hsame
  · intro h mention hmention
    cases mention with
    | named name => rfl
    | quoted quote text =>
      by_cases htext : text = endOfInputName
      · rw [htext]
        rfl
      · have hmem : quote.wrap text ∈ terminalNames { startName, keepQuotes := true } tokens :=
          (mem_terminalNames hkinds).2 ⟨quote, text, hmention, htext, rfl⟩
        have hindex := idxOf_map (h.injOn_unwrap hkinds) hmem
        rw [← h.terminalNames_eq hkinds, Quote.unwrap_wrap] at hindex
        rw [symbol_of_ne _ _ htext, symbol_of_ne _ _ htext]
        exact congrArg Symbol.terminal hindex

end Written

namespace Grammar

open Written

variable {g g' : Grammar} {options : ReadOptions} {bounds : Bounds} {token : Token}
  {tokens : List Token} {groups : List Written.Group} {place : Location}

/-- Rules with corresponding properties are listed in the same way. -/
theorem Lists.eq_of_map {p q : Rule → Prop} {ids ids' : List RuleId} {change : Rule → Rule}
    (h : g.Lists p ids) (h' : g'.Lists q ids')
    (hrules : g.rules.toList = g'.rules.toList.map change)
    (hpq : ∀ rule, p (change rule) ↔ q rule) : ids = ids' := by
  refine h.ascending.eq_of_mem_iff h'.ascending fun id => ?_
  have hget : g.rules[id]? = (g'.rules[id]?).map change := by
    rw [← Array.getElem?_toList, hrules, List.getElem?_map, Array.getElem?_toList]
  simp [h.mem_iff, h'.mem_iff, hget, hpq]

/-- A move takes no mention away. -/
theorem Move.mentions_subset {now next : Grammar × List Symbol} (h : Move bounds now next) :
    now.1.mentions ⊆ next.1.mentions := by
  cases h with
  | terminal _ hok =>
    obtain ⟨-, -, hok⟩ := bind_eq_ok.1 hok
    obtain rfl := Except.ok.inj hok
    exact List.Subset.refl _
  | nonterminal _ hok =>
    rw [addNonterminal_eq hok]
    simp [mentions]
  | mention => exact List.Subset.refl _
  | rule _ hok =>
    rw [(addsRule_of_addRule hok).mentions_eq]
    exact List.Subset.refl _

/-- To read on takes no mention away. -/
theorem mentions_subset_of_moves {now next : Grammar × List Symbol}
    (h : Relation.ReflTransGen (Move bounds) now next) : now.1.mentions ⊆ next.1.mentions := by
  induction h with
  | refl => exact List.Subset.refl _
  | tail _ hmove ih => exact List.Subset.trans ih hmove.mentions_subset

/-- The first identifier brings the augmented start symbol to its own place. -/
theorem start_mem_of_internNonterminal {name : String} {id : NonterminalId}
    (hok : internNonterminal {} options name place = .ok (id, g)) :
    (options.startName, place) ∈ g.mentions := by
  obtain ⟨-, ⟨hfind, -⟩ | ⟨-, -, g₁, g₂, hg₁, hg₂, hrule⟩ | ⟨hempty, -⟩⟩ :=
    internNonterminal_cases hok
  · simp [findNonterminal?] at hfind
  · rw [(addsRule_of_addRule hrule).mentions_eq, addNonterminal_eq hg₂, addNonterminal_eq hg₁]
    simp [mentions]
  · exact absurd rfl hempty

/-- The augmented start symbol is at the place of the first token. -/
theorem firstUse_start (hok : ofTokens options (token :: tokens) = .ok g)
    (hmem : (options.startName, place) ∈ g.mentions) : place = token.location := by
  have hnodup := (tracked_ofTokens hok).names_nodup
  have hsound : Reader.Sound options {} := .inl rfl
  rw [ofTokens, Reader.readAll] at hok
  split at hok
  · cases hok
  · obtain ⟨next, hread, hok⟩ := bind_eq_ok.1 hok
    have hstart : (options.startName, token.location) ∈ next.grammar.mentions := by
      unfold Reader.read at hread
      split at hread
      · cases hread
      · unfold Reader.readHead at hread
        split at hread
        · obtain ⟨⟨head, g₁⟩, hintern, hread⟩ := bind_eq_ok.1 hread
          obtain rfl := Except.ok.inj hread
          exact start_mem_of_internNonterminal hintern
        · cases hread
        · cases hread
      · rename_i hphase _
        cases hphase
      · rename_i hphase _
        cases hphase
    have hmoves := (hsound.read hread).moves_readAll hok
    have hfirst := mentions_subset_of_moves hmoves hstart
    exact congrArg Prod.snd (List.inj_on_of_nodup_map hnodup hmem hfirst rfl)

/-- The names of non-terminals and their places are those of the tokens, whatever happens to the
quotes. -/
theorem mentions_eq_of_knows {options' : ReadOptions} {done : List Token}
    (hstart : options.startName = options'.startName) (hok : ofTokens options tokens = .ok g)
    (hok' : ofTokens options' tokens = .ok g') (h : g.Knows options done)
    (h' : g'.Knows options' done) : g.mentions = g'.mentions := by
  have hnames : g.mentions.map Prod.fst = g'.mentions.map Prod.fst := by
    rw [h.nonterminals_eq, h'.nonterminals_eq, nonterminalNames, nonterminalNames, hstart]
  have hplace {name : String} {place place' : Location} (hmem : (name, place) ∈ g.mentions)
      (hmem' : (name, place') ∈ g'.mentions) : place = place' := by
    by_cases hname : name = options.startName
    · subst hname
      cases tokens with
      | nil => cases hok
      | cons token tokens =>
        rw [hstart] at hmem'
        rw [firstUse_start hok hmem, firstUse_start hok' hmem']
    · have hfirst := h.firstUse_eq name place hmem hname
      rw [h'.firstUse_eq name place' hmem' (hstart ▸ hname)] at hfirst
      exact (Option.some.inj hfirst).symm
  have hlength : g.mentions.length = g'.mentions.length := by
    simpa using congrArg List.length hnames
  refine List.ext_getElem hlength fun i hi hi' => ?_
  have hname : g.mentions[i].1 = g'.mentions[i].1 := by
    have hget := List.getElem_of_eq hnames (by simpa using hi)
    simpa using hget
  exact Prod.ext hname (hplace (List.getElem_mem hi) (hname ▸ List.getElem_mem hi'))

/-- Rules that differ in their terminals only make no difference to the non-terminals. -/
theorem nonterminals_eq_of_map {f : TerminalId → TerminalId} (h : g.Tracked [])
    (h' : g'.Tracked []) (hmentions : g.mentions = g'.mentions)
    (hrules : g.rules.toList = g'.rules.toList.map (·.mapTerminals f)) :
    g.nonterminals = g'.nonterminals := by
  have hsize : g.nonterminals.size = g'.nonterminals.size := by
    simpa [mentions] using congrArg List.length hmentions
  refine Array.ext hsize fun n hn hn' => ?_
  have hnt := Array.getElem?_eq_getElem hn
  have hnt' := Array.getElem?_eq_getElem hn'
  have hmention : (g.nonterminals[n].name, g.nonterminals[n].firstUse) =
      (g'.nonterminals[n].name, g'.nonterminals[n].firstUse) := by
    have hget := congrArg (·[n]?) hmentions
    simpa [mentions, hnt, hnt'] using hget
  have hheads : g.nonterminals[n].rules = g'.nonterminals[n].rules :=
    (h.lists hnt).eq_of_map (h'.lists hnt') hrules fun rule => Iff.rfl
  have huses : g.nonterminals[n].uses = g'.nonterminals[n].uses := by
    have hlists := h.uses_listed (show g.uses? (.nonterminal n) = _ by rw [uses?, hnt]; rfl)
    have hlists' := h'.uses_listed (show g'.uses? (.nonterminal n) = _ by rw [uses?, hnt']; rfl)
    exact hlists.eq_of_map hlists' hrules fun rule => Rule.nonterminal_mem_mapTerminals
  obtain ⟨hname, hplace⟩ := Prod.mk.inj hmention
  calc g.nonterminals[n] = ⟨g.nonterminals[n].name, g.nonterminals[n].firstUse,
        g.nonterminals[n].rules, g.nonterminals[n].uses⟩ := rfl
    _ = g'.nonterminals[n] := by rw [hname, hplace, hheads, huses]

/-- The grammars differ in the names of their terminals only, and their sizes in the lengths of
names only. -/
structure SameButNames (g g' : Grammar) : Prop where
  nonterminals_eq : g.nonterminals = g'.nonterminals
  rules_eq : g.rules = g'.rules
  uses_eq : g.terminals.map (·.uses) = g'.terminals.map (·.uses)
  stats_eq : g.stats = { g'.stats with
    longestName := g.stats.longestName, totalNameLength := g.stats.totalNameLength }

/-- The rules determine which rules mention a terminal. -/
theorem sameButNames_of_rules (h : g.Tracked []) (h' : g'.Tracked [])
    (hnonterminals : g.nonterminals = g'.nonterminals) (hrules : g.rules = g'.rules)
    (hsize : g.terminals.size = g'.terminals.size) : g.SameButNames g' := by
  refine ⟨hnonterminals, hrules, Array.ext (by simpa using hsize) fun t ht ht' => ?_, ?_⟩
  · rw [Array.size_map] at ht ht'
    have hlists : g.Lists (.terminal t ∈ ·.body) g.terminals[t].uses :=
      h.uses_listed (by rw [uses?, Array.getElem?_eq_getElem ht, Option.map_some])
    have hlists' : g'.Lists (.terminal t ∈ ·.body) g'.terminals[t].uses :=
      h'.uses_listed (by rw [uses?, Array.getElem?_eq_getElem ht', Option.map_some])
    have hsame : g.rules.toList = g'.rules.toList.map id := by rw [hrules, List.map_id]
    simpa using hlists.eq_of_map hlists' hsame fun rule => Iff.rfl
  · simp [stats, hnonterminals, hrules, hsize]

/-- The terminals of a grammar whose names have quotes are numbered as those of their texts in a
grammar whose names have none. -/
structure Unquotes (f : TerminalId → TerminalId) (kept stripped : Grammar) : Prop where
  terminal_name : ∀ t < kept.terminals.size, ∃ (quote : Quote) (text : String),
    kept.name? (.terminal t) = some (quote.wrap text) ∧
      stripped.name? (.terminal (f t)) = some text
  rules_eq : stripped.rules.toList = kept.rules.toList.map (·.mapTerminals f)

/-- The name of a terminal is the one at its place among the names. -/
theorem Knows.name?_terminal {done : List Token} (h : g.Knows options done) (t : TerminalId) :
    g.name? (.terminal t) = (terminalNames options done)[t]? := by
  rw [← h.terminals_eq, name?, displays, List.getElem?_map, Array.getElem?_toList]

/-- Without bounds a source is read with and without quotes in the names of its terminals, or it is
refused with the same failure. If it is read, both grammars have the same non-terminals, with the
same lists of rules, and the same heads of rules, and to take the quotes from the names of terminals
turns the rules of one grammar into those of the other. The grammars differ in the names of
terminals only if and only if no text other than `$` stands in both kinds of quotes. -/
theorem quotes_only_rename {σ : Type} [TokenStream σ] (startName : String) (stream : σ) :
    (∃ failure, ofStream { startName } stream = .error failure ∧
      ofStream { startName, keepQuotes := true } stream = .error failure) ∨
    ∃ groups stripped kept,
      Source startName ((Token.beforeEnd (TokenStream.take (TokenStream.remaining stream + 1)
        stream)).map (·.kind)) groups ∧
      ofStream { startName } stream = .ok stripped ∧
      ofStream { startName, keepQuotes := true } stream = .ok kept ∧
      stripped.nonterminals = kept.nonterminals ∧
      stripped.rules.map (·.head) = kept.rules.map (·.head) ∧
      (∃ f, Unquotes f kept stripped) ∧
      (stripped.SameButNames kept ↔ Unmixed groups) := by
  simp only [ofStream]
  generalize TokenStream.take (TokenStream.remaining stream + 1) stream = tokens
  rcases exists_source_or_offence startName (Token.kind_endOf tokens)
    Token.kind_ne_of_mem_beforeEnd with ⟨groups, hsource⟩ | ⟨failure, hoffence⟩
  · right
    obtain ⟨stripped, hstripped, hknows, hrules⟩ :=
      ofTokens_ok_of_source { startName } rfl hsource
    obtain ⟨kept, hkept, hknows', hrules'⟩ :=
      ofTokens_ok_of_source { startName, keepQuotes := true } rfl hsource
    have hsame : stripped.rules.toList =
        kept.rules.toList.map (·.mapTerminals (unquoted startName (Token.beforeEnd tokens))) := by
      rw [hrules, hrules', rulesOf_unquoted hsource.kinds_eq]
    have hnonterminals : stripped.nonterminals = kept.nonterminals :=
      nonterminals_eq_of_map (tracked_ofTokens hstripped) (tracked_ofTokens hkept)
        (mentions_eq_of_knows (by rfl) hstripped hkept hknows hknows') hsame
    refine ⟨groups, stripped, kept, hsource, hstripped, hkept, hnonterminals, ?_,
      ⟨unquoted startName (Token.beforeEnd tokens), fun t ht => ?_, hsame⟩, ?_⟩
    · rw [← Array.toList_inj, Array.toList_map, Array.toList_map, hsame, List.map_map]
      rfl
    · rw [hknows.name?_terminal, hknows'.name?_terminal]
      rw [hknows'.size_terminals] at ht
      exact getElem?_unquoted hsource.kinds_eq ht
    · have hunmixed : stripped.rules = kept.rules ↔ Unmixed groups := by
        rw [← Array.toList_inj, hrules, hrules', rulesOf_eq_iff_unmixed hsource.kinds_eq]
      refine ⟨fun h => hunmixed.1 h.rules_eq, fun h => ?_⟩
      have hsize : stripped.terminals.size = kept.terminals.size := by
        rw [hknows.size_terminals, hknows'.size_terminals, h.terminalNames_eq hsource.kinds_eq,
          List.length_map]
      exact sameButNames_of_rules (tracked_ofTokens hstripped) (tracked_ofTokens hkept)
        hnonterminals (hunmixed.2 h) hsize
  · left
    exact ⟨failure, ofTokens_error_of_offence { startName } rfl hoffence,
      ofTokens_error_of_offence { startName, keepQuotes := true } rfl hoffence⟩

/-- Both ways to read succeed. For the rules `S -> 'a' | "b"` the grammars differ in the names of
terminals only. For the rules `S -> 'a' | "a"` the texts are one terminal without their quotes and
two terminals with them, so that the rules differ too. -/
theorem quotes_only_rename_of_two_kinds :
    (∃ stripped kept, ofSource {} "S -> 'a' | \"b\" ;" = .ok stripped ∧
      ofSource { keepQuotes := true } "S -> 'a' | \"b\" ;" = .ok kept ∧
      stripped.displays = ["a", "b"] ∧ kept.displays = ["'a'", "\"b\""] ∧
      stripped.SameButNames kept) ∧
    ∃ stripped kept, ofSource {} "S -> 'a' | \"a\" ;" = .ok stripped ∧
      ofSource { keepQuotes := true } "S -> 'a' | \"a\" ;" = .ok kept ∧
      stripped.displays = ["a"] ∧ kept.displays = ["'a'", "\"a\""] ∧
      (∃ f, Unquotes f kept stripped) ∧ ¬ stripped.SameButNames kept := by
  -- The theorem for a source whose tokens and names are known.
  have hboth (source : String) (kinds : List Token.Kind) (names quoted : List String)
      (hkinds : (Token.beforeEnd (TokenStream.take
        (TokenStream.remaining (Scanner.ofSource source) + 1) (Scanner.ofSource source))).map
          (·.kind) = kinds)
      (hnames : (ofSource {} source).toOption.map displays = some names)
      (hquoted : (ofSource { keepQuotes := true } source).toOption.map displays = some quoted) :
      ∃ groups stripped kept, kindsOf groups = kinds ∧ ofSource {} source = .ok stripped ∧
        ofSource { keepQuotes := true } source = .ok kept ∧ stripped.displays = names ∧
        kept.displays = quoted ∧ (∃ f, Unquotes f kept stripped) ∧
        (stripped.SameButNames kept ↔ Unmixed groups) := by
    obtain ⟨stripped, hstripped, rfl⟩ := Option.map_eq_some_iff.1 hnames
    obtain ⟨kept, hkept, rfl⟩ := Option.map_eq_some_iff.1 hquoted
    rcases quotes_only_rename "S'" (Scanner.ofSource source) with ⟨failure, hfails, -⟩ |
      ⟨groups, g, g', hsource, hg, hg', -, -, hunquotes, hsame⟩
    · cases hfails.symm.trans (eq_ok_of_toOption hstripped)
    · cases hg.symm.trans (eq_ok_of_toOption hstripped)
      cases hg'.symm.trans (eq_ok_of_toOption hkept)
      exact ⟨groups, stripped, kept, hsource.kinds_eq.trans hkinds, hg, hg', rfl, rfl, hunquotes,
        hsame⟩
  constructor
  · obtain ⟨groups, stripped, kept, hkinds, hstripped, hkept, hnames, hquoted, -, hsame⟩ :=
      hboth "S -> 'a' | \"b\" ;" [.identifier "S", .arrow .arrow, .quoted .single "a",
        .delimiter '|', .quoted .double "b", .delimiter ';'] ["a", "b"] ["'a'", "\"b\""]
        (by decide +kernel) (by decide +kernel) (by decide +kernel)
    refine ⟨stripped, kept, hstripped, hkept, hnames, hquoted, hsame.2 fun text _ hmixed => ?_⟩
    have htexts : text = "a" ∧ text = "b" := by
      simpa [← quoted_mem_kindsOf, hkinds] using hmixed
    exact absurd (htexts.1.symm.trans htexts.2) (by decide)
  · obtain ⟨groups, stripped, kept, hkinds, hstripped, hkept, hnames, hquoted, hunquotes, hsame⟩ :=
      hboth "S -> 'a' | \"a\" ;" [.identifier "S", .arrow .arrow, .quoted .single "a",
        .delimiter '|', .quoted .double "a", .delimiter ';'] ["a"] ["'a'", "\"a\""]
        (by decide +kernel) (by decide +kernel) (by decide +kernel)
    refine ⟨stripped, kept, hstripped, hkept, hnames, hquoted, hunquotes, fun hnames => ?_⟩
    refine hsame.1 hnames "a" (by decide) ?_
    simp [← quoted_mem_kindsOf, hkinds]

end Grammar

end ShiftReduce
