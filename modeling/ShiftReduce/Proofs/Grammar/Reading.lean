import Mathlib.Data.List.Basic
import Mathlib.Data.List.Induction
import Mathlib.Data.List.Nodup
import ShiftReduce.Proofs.Grammar.WellFormed
import ShiftReduce.Proofs.Grammar.Written
import ShiftReduce.Proofs.SetFamily

/-!
# How tokens are read

A reader without bounds goes through a source from place to place. At each place its grammar has the
names mentioned so far, numbered in the order of their first occurrences, and the rules of the
alternatives that have ended, and its phase is that of the place. A token that can stand at the
place is read. Any other token is refused, with the fault of the place at the location of the token.
-/

namespace ShiftReduce

namespace Written

/-- To take each element of a list once is to insert them one after the other. -/
theorem eraseDups_eq_foldl {α : Type} [BEq α] [LawfulBEq α] (xs : List α) :
    xs.eraseDups = xs.foldl pushUnique [] := by
  induction xs using List.reverseRecOn with
  | nil => rfl
  | append_singleton xs x ih =>
    rw [List.eraseDups_append, List.foldl_append, ih, List.foldl_cons, List.foldl_nil, pushUnique]
    have hmem : (xs.foldl pushUnique []).contains x = xs.contains x := by
      rw [Bool.eq_iff_iff, List.contains_iff_mem, List.contains_iff_mem, mem_foldl_pushUnique]
      simp
    rw [hmem]
    by_cases hx : x ∈ xs
    · simp [List.removeAll, hx]
    · simp [List.removeAll, hx, List.eraseDups_cons]

/-- An element that is new comes last, and one that is not changes nothing. -/
theorem eraseDups_concat {α : Type} [BEq α] [LawfulBEq α] (xs : List α) (x : α) :
    (xs ++ [x]).eraseDups = pushUnique xs.eraseDups x := by
  rw [eraseDups_eq_foldl, eraseDups_eq_foldl, List.foldl_append]
  rfl

/-- Every element is taken once. -/
theorem nodup_eraseDups {α : Type} [BEq α] [LawfulBEq α] (xs : List α) : xs.eraseDups.Nodup := by
  rw [eraseDups_eq_foldl]
  exact nodup_foldl_pushUnique List.nodup_nil

variable {options : ReadOptions} {tokens done : List Token} {token : Token} {name : String}

/-- The names mentioned so far come first among all names. -/
theorem prefix_nonterminalNames (h : done <+: tokens) :
    nonterminalNames options done <+: nonterminalNames options tokens := by
  obtain ⟨rest, rfl⟩ := h
  rw [nonterminalNames, nonterminalNames, List.filterMap_append, List.eraseDups_append]
  exact ⟨_, List.cons_append⟩

/-- The terminals mentioned so far come first among all terminals. -/
theorem prefix_terminalNames (h : done <+: tokens) :
    terminalNames options done <+: terminalNames options tokens := by
  obtain ⟨rest, rfl⟩ := h
  rw [terminalNames, terminalNames, List.filterMap_append, List.eraseDups_append]
  exact List.prefix_append _ _

/-- One more identifier is the last name if it is new. -/
theorem nonterminalNames_concat (hname : name ≠ options.startName)
    (h : identifier? token.kind = some name) : nonterminalNames options (done ++ [token]) =
      pushUnique (nonterminalNames options done) name := by
  have hnames : nonterminalNames options (done ++ [token]) =
      options.startName :: pushUnique (done.filterMap (identifier? ·.kind)).eraseDups name := by
    simp only [nonterminalNames, List.filterMap_append, List.filterMap_cons, h, List.filterMap_nil,
      eraseDups_concat]
  rw [hnames, nonterminalNames, pushUnique, pushUnique]
  by_cases hmem : name ∈ (done.filterMap (identifier? ·.kind)).eraseDups
  · simp [hmem]
  · simp [hmem, hname]

/-- A token that is no identifier mentions no non-terminal. -/
theorem nonterminalNames_concat_other (h : identifier? token.kind = none) :
    nonterminalNames options (done ++ [token]) = nonterminalNames options done := by
  simp [nonterminalNames, List.filterMap_append, h]

/-- One more terminal is the last one if it is new. -/
theorem terminalNames_concat (h : terminal? options token.kind = some name) :
    terminalNames options (done ++ [token]) = pushUnique (terminalNames options done) name := by
  simp only [terminalNames, List.filterMap_append, List.filterMap_cons, h, List.filterMap_nil,
    eraseDups_concat]

/-- A token for no terminal mentions none. -/
theorem terminalNames_concat_other (h : terminal? options token.kind = none) :
    terminalNames options (done ++ [token]) = terminalNames options done := by
  simp [terminalNames, List.filterMap_append, h]

/-- A quoted text stands for the same symbol in the whole source as in its beginning. -/
theorem symbol_quoted {quote : Quote} {text : String} (hpart : done ++ [token] <+: tokens)
    (hkind : token.kind = .quoted quote text) :
    Mention.symbol options (done ++ [token]) (.quoted quote text) =
      Mention.symbol options tokens (.quoted quote text) := by
  simp only [Mention.symbol]
  by_cases htext : text = endOfInputName
  · rw [if_pos htext, if_pos htext]
  · have hmem : display options quote text ∈ terminalNames options (done ++ [token]) := by
      refine List.mem_eraseDups.2 (List.mem_filterMap.2 ⟨token, by simp, ?_⟩)
      rw [hkind]
      exact if_neg htext
    rw [if_neg htext, if_neg htext, (prefix_terminalNames hpart).idxOf_eq_of_mem hmem]

/-- A look-up by a part of the entries finds the first entry with this part. -/
theorem findIdx?_eq {α : Type} {store : Array α} {part : α → String} {names : List String}
    (hnames : store.toList.map part = names) (name : String) :
    store.findIdx? (part · == name) =
      if name ∈ names then some (names.idxOf name) else none := by
  have hlist : store.findIdx? (part · == name) = names.findIdx? (· == name) := by
    rw [← hnames, List.findIdx?_map, ← List.findIdx?_toArray, Array.toArray_toList]
    rfl
  rw [hlist]
  split
  · rename_i hmem
    rw [List.findIdx?_eq_some_iff_findIdx_eq]
    exact ⟨List.idxOf_lt_length_iff.2 hmem, rfl⟩
  · rename_i hmem
    rw [List.findIdx?_eq_none_iff]
    intro other hother
    rw [beq_eq_false_iff_ne]
    rintro rfl
    exact hmem hother

/-- A name that is found nowhere is the name of no entry. -/
theorem not_mem_of_findIdx? {α : Type} {store : Array α} {part : α → String} {names : List String}
    {name : String} (hnames : store.toList.map part = names)
    (h : store.findIdx? (part · == name) = none) : name ∉ names := by
  rw [findIdx?_eq hnames] at h
  exact fun hmem => Option.some_ne_none _ ((if_pos hmem).symm.trans h)

end Written

namespace Grammar

open Written

/-- The grammar has the names that tokens mention, and knows where they are first mentioned. -/
structure Knows (options : ReadOptions) (done : List Token) (g : Grammar) : Prop where
  nonterminals_eq : g.mentions.map Prod.fst = nonterminalNames options done
  terminals_eq : g.displays = terminalNames options done
  firstUse_eq : ∀ name place, (name, place) ∈ g.mentions → name ≠ options.startName →
    (done.find? (identifier? ·.kind == some name)).map (·.location) = some place

variable {options : ReadOptions} {done tokens : List Token} {token : Token} {g g' : Grammar}
  {name : String} {rule : Rule}

namespace Knows

/-- A rule brings no new names. -/
theorem of_addsRule (h : g.Knows options done) (hadds : AddsRule g rule g') :
    g'.Knows options done := by
  refine ⟨?_, ?_, ?_⟩
  · rw [hadds.mentions_eq]
    exact h.nonterminals_eq
  · rw [hadds.displays_eq]
    exact h.terminals_eq
  · rw [hadds.mentions_eq]
    exact h.firstUse_eq

/-- The non-terminals have the names that identifiers give them, in this order. -/
theorem map_name (h : g.Knows options done) :
    g.nonterminals.toList.map (·.name) = nonterminalNames options done :=
  (map_fst_mentions g).symm.trans h.nonterminals_eq

/-- An identifier is found at its first occurrence among the names of non-terminals. -/
theorem findNonterminal?_eq (h : g.Knows options done) (name : String) :
    g.findNonterminal? name = if name ∈ nonterminalNames options done then
      some ((nonterminalNames options done).idxOf name) else none :=
  findIdx?_eq h.map_name name

/-- A text is found at its first occurrence among the names of terminals. -/
theorem findTerminal?_eq (h : g.Knows options done) (name : String) :
    g.findTerminal? name = if name ∈ terminalNames options done then
      some ((terminalNames options done).idxOf name) else none :=
  findIdx?_eq h.terminals_eq name

/-- There is a non-terminal for each name of one. -/
theorem size_nonterminals (h : g.Knows options done) :
    g.nonterminals.size = (nonterminalNames options done).length := by
  rw [← h.nonterminals_eq, List.length_map, mentions, List.length_map, Array.length_toList]

/-- There is a terminal for each name of one. -/
theorem size_terminals (h : g.Knows options done) :
    g.terminals.size = (terminalNames options done).length := by
  rw [← h.terminals_eq, displays, List.length_map, Array.length_toList]

/-- The first mention of a name stays the first one. -/
theorem firstUse_concat (h : g.Knows options done) {place : Location}
    (hmem : (name, place) ∈ g.mentions) (hname : name ≠ options.startName) :
    ((done ++ [token]).find? (identifier? ·.kind == some name)).map (·.location) = some place := by
  obtain ⟨first, hfirst, hplace⟩ := Option.map_eq_some_iff.1 (h.firstUse_eq name place hmem hname)
  rw [List.find?_append, hfirst]
  exact congrArg some hplace

/-- A token that mentions nothing new changes nothing. -/
theorem concat (h : g.Knows options done)
    (hnonterminals : nonterminalNames options (done ++ [token]) = nonterminalNames options done)
    (hterminals : terminalNames options (done ++ [token]) = terminalNames options done) :
    g.Knows options (done ++ [token]) :=
  ⟨h.nonterminals_eq.trans hnonterminals.symm, h.terminals_eq.trans hterminals.symm,
    fun _ _ hmem hname => h.firstUse_concat hmem hname⟩

/-- An arrow or a delimiter mentions nothing. -/
theorem concat_other (h : g.Knows options done) (hidentifier : identifier? token.kind = none)
    (hterminal : terminal? options token.kind = none) : g.Knows options (done ++ [token]) :=
  h.concat (nonterminalNames_concat_other hidentifier) (terminalNames_concat_other hterminal)

/-- A new identifier is the name of the next non-terminal, and it is mentioned here first. -/
theorem addNonterminal (h : g.Knows options done) (hkind : token.kind = .identifier name)
    (hname : name ≠ options.startName) (hnew : name ∉ nonterminalNames options done) :
    Knows options (done ++ [token])
      { g with nonterminals := g.nonterminals.push { name, firstUse := token.location } } := by
  have hidentifier : identifier? token.kind = some name := by rw [hkind]; rfl
  have hmentions : Grammar.mentions { g with
      nonterminals := g.nonterminals.push { name, firstUse := token.location } } =
        g.mentions ++ [(name, token.location)] := by
    simp [mentions]
  refine ⟨?_, ?_, fun other place hother hne => ?_⟩
  · rw [hmentions, List.map_append, h.nonterminals_eq, nonterminalNames_concat hname hidentifier,
      pushUnique_of_notMem hnew]
    rfl
  · rw [terminalNames_concat_other (by rw [hkind]; rfl)]
    exact h.terminals_eq
  · rw [hmentions] at hother
    rcases List.mem_append.1 hother with hold | hlast
    · exact h.firstUse_concat hold hne
    · obtain ⟨rfl, rfl⟩ := Prod.mk.inj (List.mem_singleton.1 hlast)
      have hnone : done.find? (identifier? ·.kind == some other) = none := by
        rw [List.find?_eq_none]
        intro earlier hearlier hfound
        refine hnew (List.mem_cons_of_mem _ (List.mem_eraseDups.2 ?_))
        exact List.mem_filterMap.2 ⟨earlier, hearlier, eq_of_beq hfound⟩
      rw [List.find?_append, hnone]
      simp [hkind, identifier?]

/-- An identifier that is not reserved gets the number of its first occurrence among the names. -/
theorem internNonterminal_ok (hfree : options.bounds = .unbounded) (h : g.Knows options done)
    (hkind : token.kind = .identifier name) (hname : name ≠ options.startName) :
    ∃ g', g.internNonterminal options name token.location =
        .ok ((nonterminalNames options (done ++ [token])).idxOf name, g') ∧
      g'.Knows options (done ++ [token]) ∧ g'.rules = g.rules := by
  have hnames : nonterminalNames options (done ++ [token]) = _ :=
    nonterminalNames_concat hname (by rw [hkind]; rfl)
  unfold internNonterminal
  rw [if_neg hname]
  by_cases hmem : name ∈ nonterminalNames options done
  · rw [pushUnique_of_mem hmem] at hnames
    refine ⟨g, ?_, h.concat hnames (terminalNames_concat_other (by rw [hkind]; rfl)), rfl⟩
    simp only [h.findNonterminal?_eq, if_pos hmem, hnames]
    rfl
  · have hempty : ¬ g.nonterminals.isEmpty = true := by
      rw [Array.isEmpty_iff_size_eq_zero, h.size_nonterminals]
      simp [nonterminalNames]
    have hindex :
        (nonterminalNames options (done ++ [token])).idxOf name = g.nonterminals.size := by
      rw [hnames, pushUnique_of_notMem hmem, List.idxOf_append_of_notMem hmem, h.size_nonterminals]
      simp
    refine ⟨_, ?_, h.addNonterminal hkind hname hmem, rfl⟩
    simp only [h.findNonterminal?_eq, if_neg hmem, if_neg hempty, hfree, hindex]
    rfl

/-- A new quoted text is the name of the next terminal. -/
theorem addTerminal (h : g.Knows options done)
    (hterminal : terminal? options token.kind = some name)
    (hidentifier : identifier? token.kind = none) (hnew : name ∉ terminalNames options done) :
    Knows options (done ++ [token]) { g with terminals := g.terminals.push { name } } := by
  refine ⟨?_, ?_, fun _ _ hother hne => h.firstUse_concat hother hne⟩
  · rw [nonterminalNames_concat_other hidentifier]
    exact h.nonterminals_eq
  · rw [terminalNames_concat hterminal, pushUnique_of_notMem hnew, ← h.terminals_eq]
    simp [displays]

/-- A quoted text gets the symbol that its mention stands for. -/
theorem internTerminal_ok (hfree : options.bounds = .unbounded) (h : g.Knows options done)
    {quote : Quote} {text : String} (hkind : token.kind = .quoted quote text) :
    ∃ g', g.internTerminal options quote text =
        .ok (Mention.symbol options (done ++ [token]) (.quoted quote text), g') ∧
      g'.Knows options (done ++ [token]) ∧ g'.rules = g.rules := by
  have hidentifier : identifier? token.kind = none := by rw [hkind]; rfl
  have hnonterminals : nonterminalNames options (done ++ [token]) = nonterminalNames options done :=
    nonterminalNames_concat_other hidentifier
  unfold internTerminal Mention.symbol
  by_cases htext : text = endOfInputName
  · have hterminals : terminalNames options (done ++ [token]) = terminalNames options done :=
      terminalNames_concat_other (by rw [hkind]; exact if_pos htext)
    refine ⟨g, ?_, h.concat hnonterminals hterminals, rfl⟩
    simp only [if_pos htext]
    rfl
  · have hterminal : terminal? options token.kind = some (display options quote text) := by
      rw [hkind]
      exact if_neg htext
    have hnames : terminalNames options (done ++ [token]) = _ := terminalNames_concat hterminal
    have hdisplay : (if options.keepQuotes = true then quote.wrap text else text) =
      display options quote text := rfl
    simp only [if_neg htext, hdisplay]
    generalize display options quote text = name at hnames hterminal
    by_cases hmem : name ∈ terminalNames options done
    · rw [pushUnique_of_mem hmem] at hnames
      refine ⟨g, ?_, h.concat hnonterminals hnames, rfl⟩
      simp only [h.findTerminal?_eq, if_pos hmem, hnames]
      rfl
    · have hindex : (terminalNames options (done ++ [token])).idxOf name = g.terminals.size := by
        rw [hnames, pushUnique_of_notMem hmem, List.idxOf_append_of_notMem hmem, h.size_terminals]
        simp
      refine ⟨_, ?_, h.addTerminal hterminal hidentifier hmem, rfl⟩
      simp only [h.findTerminal?_eq, if_neg hmem, hfree, hindex]
      rfl

end Knows

/-- The first identifier brings the reserved name and the augmented rule with it. -/
theorem internNonterminal_first (hfree : options.bounds = .unbounded)
    (hkind : token.kind = .identifier name) (hname : name ≠ options.startName) :
    ∃ g', internNonterminal {} options name token.location =
        .ok ((nonterminalNames options [token]).idxOf name, g') ∧
      g'.Knows options [token] ∧ g'.rules.toList = rulesOf options tokens [] := by
  have hnames : nonterminalNames options [token] = [options.startName, name] := by
    simp [nonterminalNames, hkind, identifier?, List.eraseDups_cons]
  have hterminals : terminalNames options [token] = [] := by
    simp [terminalNames, hkind, terminal?]
  have hindex : (nonterminalNames options [token]).idxOf name = sourceStart := by
    rw [hnames, List.idxOf_cons_ne _ hname.symm, List.idxOf_cons_self]
    rfl
  let g : Grammar := { nonterminals := #[{ name := options.startName, firstUse := token.location },
    { name, firstUse := token.location }] }
  have hknows : g.Knows options [token] := by
    refine ⟨hnames.symm, hterminals.symm, fun other place hother hne => ?_⟩
    simp only [g, mentions, List.map_cons, List.map_nil, List.mem_cons, Prod.mk.injEq,
      List.not_mem_nil, or_false] at hother
    rcases hother with ⟨rfl, -⟩ | ⟨rfl, rfl⟩
    · exact absurd rfl hne
    · simp [hkind, identifier?]
  have hbody : ∀ X ∈ [Symbol.nonterminal sourceStart, .endOfInput], X.In g := by
    intro X hX
    simp only [List.mem_cons, List.not_mem_nil, or_false] at hX
    rcases hX with rfl | rfl
    · exact ⟨by decide, Nat.lt_succ_self 1⟩
    · trivial
  have hhead : start < g.nonterminals.size := Nat.zero_lt_two
  obtain ⟨g', hadds, hadd⟩ :=
    exists_addRule ⟨start, [.nonterminal sourceStart, .endOfInput]⟩ hhead hbody
  refine ⟨g', ?_, hknows.of_addsRule hadds, ?_⟩
  · have hrule := hadd .unbounded
    rw [Bounds.allow_unbounded] at hrule
    have hfind : findNonterminal? {} name = none := by simp [findNonterminal?]
    unfold internNonterminal
    rw [if_neg hname, hindex, hfree]
    simp only [hfind]
    exact bind_eq_ok.2 ⟨_, rfl, bind_eq_ok.2 ⟨_, rfl, bind_eq_ok.2 ⟨g', hrule, rfl⟩⟩⟩
  · rw [hadds.rules_eq]
    rfl

end Grammar

namespace Written

/-- What a reader keeps of a group that it is inside of. -/
def Group.reading (options : ReadOptions) (tokens : List Token) (group : Group) : Reader.Group where
  head := (nonterminalNames options tokens).idxOf group.head
  name := group.head
  read := (group.last.map (·.symbol options tokens)).reverse
  sawEmpty := decide ([] ∈ group.ended)

/-- One more mention is the latest symbol that was read. -/
theorem Group.reading_mention (options : ReadOptions) (tokens : List Token) (group : Group)
    (mention : Mention) : (group.mention mention).reading options tokens =
      { group.reading options tokens with
        read := mention.symbol options tokens :: (group.reading options tokens).read } := by
  have hread : ((group.last ++ [mention]).map (·.symbol options tokens)).reverse =
      mention.symbol options tokens :: (group.last.map (·.symbol options tokens)).reverse := by
    simp
  exact congrArg (fun read => Reader.Group.mk _ _ read _) hread

/-- The phase of a reader at a place. -/
def Place.phase (options : ReadOptions) (tokens : List Token) : Place → Reader.Phase
  | .between _ => .head
  | .headed _ head => .arrow { head := (nonterminalNames options tokens).idxOf head, name := head }
  | .inside _ group => .alternative (group.reading options tokens)

/-- The rules that a reader has added at a place. -/
def Place.rules (options : ReadOptions) (tokens : List Token) : Place → List Rule
  | .between groups | .headed groups _ => rulesOf options tokens groups
  | .inside groups group =>
    rulesOf options tokens groups ++ group.ended.map (ruleOf options tokens group.head)

end Written

namespace Reader

open Written

/-- A reader of a source has gone through the tokens up to a place. -/
structure Reaches (options : ReadOptions) (tokens done : List Token) (place : Place)
    (reader : Reader) : Prop where
  follows : place.Follows options.startName (done.map (·.kind))
  sound : reader.Sound options
  phase_eq : reader.phase = place.phase options tokens
  start : done = [] → reader = {}
  contents : done ≠ [] → reader.grammar.Knows options done ∧
    reader.grammar.rules.toList = place.rules options tokens

variable {options : ReadOptions} {done tokens : List Token} {token : Token} {place after : Place}
  {reader : Reader}

/-- A bar ends the alternative and leaves the group open. -/
theorem read_bar (g : Grammar) (group : Reader.Group) (location : Location) :
    Reader.read options ⟨g, .alternative group⟩ ⟨.delimiter '|', location⟩ =
      endAlternative options g group location >>= fun ended =>
        .ok ⟨ended.1, .alternative ended.2⟩ := rfl

/-- A semicolon ends the alternative and the group. -/
theorem read_semicolon (g : Grammar) (group : Reader.Group) (location : Location) :
    Reader.read options ⟨g, .alternative group⟩ ⟨.delimiter ';', location⟩ =
      endAlternative options g group location >>= fun ended => .ok ⟨ended.1, .head⟩ := rfl

/-- The end of a second empty alternative is refused. -/
theorem endAlternative_refused {g : Grammar} {group : Written.Group} {location : Location}
    (h : group.RepeatsEmpty) : endAlternative options g (group.reading options tokens) location =
      .error (.grammar location (.duplicateEpsilon group.head)) := by
  obtain ⟨hlast, hempty⟩ := h
  simp [endAlternative, Group.reading, hlast, hempty]
  rfl

/-- The end of any other alternative adds its rule. -/
theorem endAlternative_ok (hfree : options.bounds = .unbounded) {g : Grammar}
    {group : Written.Group} (location : Location) (hfits : (group.reading options tokens).Fits g)
    (h : ¬ group.RepeatsEmpty) :
    ∃ g', g.AddsRule (ruleOf options tokens group.head group.last) g' ∧
      endAlternative options g (group.reading options tokens) location =
        .ok (g', group.endAlternative.reading options tokens) := by
  have hbody : ∀ X ∈ group.last.map (·.symbol options tokens), X.In g :=
    fun X hX => hfits.2 X (List.mem_reverse.2 hX)
  obtain ⟨g', hadds, hadd⟩ :=
    Grammar.exists_addRule (ruleOf options tokens group.head group.last) hfits.1.2 hbody
  have hrule : g.addRule options.bounds (ruleOf options tokens group.head group.last) = .ok g' := by
    rw [hadd, hfree, Bounds.allow_unbounded]
    rfl
  have hempty : ¬ ((group.reading options tokens).read.isEmpty &&
      (group.reading options tokens).sawEmpty) = true := by
    simpa [Group.reading, Group.RepeatsEmpty] using h
  have hsaw : decide ([] ∈ group.ended ++ [group.last]) = (decide ([] ∈ group.ended) ||
      (group.last.map (·.symbol options tokens)).reverse.isEmpty) := by
    rw [Bool.eq_iff_iff, decide_eq_true_eq, List.mem_append, List.mem_singleton, Bool.or_eq_true,
      decide_eq_true_eq, List.isEmpty_iff, List.reverse_eq_nil_iff, List.map_eq_nil_iff]
    exact or_congr Iff.rfl eq_comm
  have hreading : group.endAlternative.reading options tokens =
      { group.reading options tokens with
        read := []
        sawEmpty := (group.reading options tokens).sawEmpty ||
          (group.reading options tokens).read.isEmpty } := by
    change Reader.Group.mk _ _ _ (decide ([] ∈ group.ended ++ [group.last])) = _
    rw [hsaw]
    rfl
  refine ⟨g', hadds, ?_⟩
  unfold endAlternative
  rw [if_neg hempty, hreading]
  refine bind_eq_ok.2 ⟨g', ?_, rfl⟩
  simpa [Group.reading, ruleOf] using hrule

/-- At first nothing is read and nothing is known. -/
theorem reaches_start (options : ReadOptions) (tokens : List Token) :
    Reaches options tokens [] (.between []) {} :=
  ⟨Place.follows_start _, .inl rfl, rfl, fun _ => rfl, fun h => absurd rfl h⟩

/-- A token that cannot stand at the place is refused with the fault of the place. -/
theorem Reaches.read_refused (h : reader.Reaches options tokens done place)
    (hnext : place.next? options.startName token.kind = none) :
    reader.read options token = .error (.grammar token.location (place.fault token.kind)) := by
  obtain ⟨g, phase⟩ := reader
  obtain ⟨kind, location⟩ := token
  obtain rfl : phase = place.phase options tokens := h.phase_eq
  cases place with
  | between groups =>
    cases kind with
    | identifier name =>
      have hname : name = options.startName := by
        by_contra hne
        simp [Place.next?, hne] at hnext
      simp [Reader.read, Place.phase, readHead, Grammar.internNonterminal, hname, Place.fault]
      rfl
    | quoted quote text => rfl
    | arrow spelling => rfl
    | delimiter c => rfl
    | endOfFile => rfl
    | invalid fault => rfl
  | headed groups head =>
    cases kind with
    | identifier name => rfl
    | quoted quote text => rfl
    | arrow spelling => cases hnext
    | delimiter c => rfl
    | endOfFile => rfl
    | invalid fault => rfl
  | inside groups group =>
    cases kind with
    | identifier name =>
      have hname : name = options.startName := by
        by_contra hne
        simp [Place.next?, hne] at hnext
      simp [Reader.read, Place.phase, readAlternative, Grammar.internNonterminal, hname,
        Place.fault]
      rfl
    | quoted quote text => cases hnext
    | arrow spelling => rfl
    | delimiter c =>
      have hrepeats (hc : c = '|' ∨ c = ';') : group.RepeatsEmpty := by
        by_contra hnot
        rcases hc with rfl | rfl <;> simp [Place.next?, hnot] at hnext
      by_cases hbar : c = '|'
      · subst hbar
        rw [Place.phase, read_bar, endAlternative_refused (hrepeats (.inl rfl))]
        rfl
      · by_cases hsemicolon : c = ';'
        · subst hsemicolon
          rw [Place.phase, read_semicolon, endAlternative_refused (hrepeats (.inr rfl))]
          rfl
        · simp [Reader.read, Place.phase, readAlternative, Place.fault, hbar, hsemicolon]
          rfl
    | endOfFile => rfl
    | invalid fault => rfl

/-- An identifier that is not reserved gets its number, and the rules stay the same. The first one
brings the augmented rule. -/
theorem Reaches.internNonterminal_ok (hfree : options.bounds = .unbounded)
    (h : reader.Reaches options tokens done place) (hpart : done ++ [token] <+: tokens)
    {name : String} (hkind : token.kind = .identifier name) (hname : name ≠ options.startName) :
    ∃ g, reader.grammar.internNonterminal options name token.location =
        .ok ((nonterminalNames options tokens).idxOf name, g) ∧
      g.Knows options (done ++ [token]) ∧ g.rules.toList = place.rules options tokens := by
  have hmem : name ∈ nonterminalNames options (done ++ [token]) := by
    refine List.mem_cons_of_mem _ (List.mem_eraseDups.2 (List.mem_filterMap.2 ⟨token, by simp, ?_⟩))
    rw [hkind]
    rfl
  rw [← (prefix_nonterminalNames hpart).idxOf_eq_of_mem hmem]
  by_cases hdone : done = []
  · subst hdone
    obtain rfl := h.start rfl
    obtain ⟨g, hintern, hknows, hrules⟩ := Grammar.internNonterminal_first hfree hkind hname
    have hplace : Place.between [] = place := by simpa using h.follows.foldlM_eq
    exact ⟨g, hintern, hknows, hplace ▸ hrules⟩
  · obtain ⟨hknows, hrules⟩ := h.contents hdone
    obtain ⟨g, hintern, hknows, hsame⟩ := hknows.internNonterminal_ok hfree hkind hname
    exact ⟨g, hintern, hknows, by rw [hsame, hrules]⟩

/-- Inside of a group a reader has started, and its group has symbols of its grammar. -/
theorem Reaches.inside {groups : List Written.Group} {group : Written.Group}
    (h : reader.Reaches options tokens done (.inside groups group)) :
    done ≠ [] ∧ (group.reading options tokens).Fits reader.grammar := by
  have hphase : reader.phase = .alternative (group.reading options tokens) := h.phase_eq
  have hreader : reader ≠ {} := by
    rintro rfl
    cases hphase
  have hfits := (h.sound.resolve_left hreader).2
  rw [hphase] at hfits
  exact ⟨fun hdone => hreader (h.start hdone), hfits⟩

/-- Inside of a group the end of an alternative adds its rule, unless it is a second empty one. -/
theorem Reaches.endAlternative_ok {groups : List Written.Group} {group : Written.Group}
    (hfree : options.bounds = .unbounded)
    (h : reader.Reaches options tokens done (.inside groups group))
    (hrepeats : ¬ group.RepeatsEmpty) (location : Location) :
    ∃ g, endAlternative options reader.grammar (group.reading options tokens) location =
        .ok (g, group.endAlternative.reading options tokens) ∧ g.Knows options done ∧
      g.rules.toList = rulesOf options tokens (groups ++ [group]) := by
  obtain ⟨hdone, hfits⟩ := h.inside
  obtain ⟨hknows, hrules⟩ := h.contents hdone
  obtain ⟨g, hadds, hend⟩ := Reader.endAlternative_ok hfree location hfits hrepeats
  refine ⟨g, hend, hknows.of_addsRule hadds, ?_⟩
  rw [hadds.rules_eq, Array.toList_push, hrules]
  simp [Place.rules, rulesOf, Group.alternatives]

/-- A reader that read a token has reached the next place if it has its names, rules and phase. -/
theorem Reaches.next {next : Reader} (h : reader.Reaches options tokens done place)
    (hnext : place.next? options.startName token.kind = some after)
    (hread : reader.read options token = .ok next)
    (hphase : next.phase = after.phase options tokens)
    (hknows : next.grammar.Knows options (done ++ [token]))
    (hrules : next.grammar.rules.toList = after.rules options tokens) :
    next.Reaches options tokens (done ++ [token]) after := by
  refine ⟨?_, h.sound.read hread, hphase, by simp, fun _ => ⟨hknows, hrules⟩⟩
  rw [List.map_append]
  exact h.follows.next hnext

/-- A token that can stand at the place is read and leads to the next place. -/
theorem Reaches.read_ok (hfree : options.bounds = .unbounded)
    (h : reader.Reaches options tokens done place) (hpart : done ++ [token] <+: tokens)
    (hnext : place.next? options.startName token.kind = some after) :
    ∃ next, reader.read options token = .ok next ∧
      next.Reaches options tokens (done ++ [token]) after := by
  obtain ⟨g, phase⟩ := reader
  obtain ⟨kind, location⟩ := token
  obtain rfl : phase = place.phase options tokens := h.phase_eq
  cases Place.step_of_next? hnext with
  | @head groups name hname =>
    obtain ⟨g', hintern, hknows, hrules⟩ := h.internNonterminal_ok hfree hpart rfl hname
    have hread : Reader.read options ⟨g, .head⟩ ⟨.identifier name, location⟩ = .ok _ :=
      bind_eq_ok.2 ⟨_, hintern, rfl⟩
    exact ⟨_, hread, h.next hnext hread rfl hknows hrules⟩
  | arrow =>
    have hdone : done ≠ [] := fun hdone => by cases h.start hdone
    obtain ⟨hknows, hrules⟩ := h.contents hdone
    refine ⟨_, rfl, h.next hnext rfl rfl (hknows.concat_other rfl rfl) ?_⟩
    simpa [Place.rules] using hrules
  | @mention groups group mention hmention =>
    cases mention with
    | named name =>
      have hname : name ≠ options.startName := by simpa using hmention
      obtain ⟨g', hintern, hknows, hrules⟩ := h.internNonterminal_ok hfree hpart rfl hname
      have hread : Reader.read options ⟨g, .alternative (group.reading options tokens)⟩
          ⟨.identifier name, location⟩ = .ok _ := bind_eq_ok.2 ⟨_, hintern, rfl⟩
      refine ⟨_, hread, h.next hnext hread ?_ hknows hrules⟩
      rw [Place.phase, Group.reading_mention]
      rfl
    | quoted quote text =>
      obtain ⟨hknows, hrules⟩ := h.contents h.inside.1
      have hkind : (Token.mk (.quoted quote text) location).kind = .quoted quote text := rfl
      obtain ⟨g', hintern, hknows, hsame⟩ := hknows.internTerminal_ok hfree hkind
      rw [symbol_quoted hpart hkind] at hintern
      have hread : Reader.read options ⟨g, .alternative (group.reading options tokens)⟩
          ⟨.quoted quote text, location⟩ = .ok _ := bind_eq_ok.2 ⟨_, hintern, rfl⟩
      refine ⟨_, hread, h.next hnext hread ?_ hknows (hsame ▸ hrules)⟩
      rw [Place.phase, Group.reading_mention]
  | @bar groups group hrepeats =>
    obtain ⟨g', hend, hknows, hrules⟩ := h.endAlternative_ok hfree hrepeats location
    have hread : Reader.read options ⟨g, .alternative (group.reading options tokens)⟩
        ⟨.delimiter '|', location⟩ = .ok _ := bind_eq_ok.2 ⟨_, hend, rfl⟩
    refine ⟨_, hread, h.next hnext hread rfl (hknows.concat_other rfl rfl) (hrules.trans ?_)⟩
    simp [Place.rules, rulesOf, Group.endAlternative, Group.alternatives]
  | @semicolon groups group hrepeats =>
    obtain ⟨g', hend, hknows, hrules⟩ := h.endAlternative_ok hfree hrepeats location
    have hread : Reader.read options ⟨g, .alternative (group.reading options tokens)⟩
        ⟨.delimiter ';', location⟩ = .ok _ := bind_eq_ok.2 ⟨_, hend, rfl⟩
    exact ⟨_, hread, h.next hnext hread rfl (hknows.concat_other rfl rfl) hrules⟩

end Reader

end ShiftReduce
