import ShiftReduce.Proofs.Bounds.Curtail
import ShiftReduce.Proofs.Grammar.WellFormed

/-!
# Reading under bounds

A grammar takes room for its symbols, for its rules and for the longest name. Under bounds a source
is read as without bounds, up to the token where the grammar would pass a bound.
-/

namespace ShiftReduce

open Charged

/-- The same way to read, without bounds. -/
def ReadOptions.unbounded (options : ReadOptions) : ReadOptions :=
  { options with bounds := .unbounded }

/-- Bounds have nothing to do with the quotes of names. -/
theorem ReadOptions.keepQuotes_unbounded (options : ReadOptions) :
    options.unbounded.keepQuotes = options.keepQuotes := rfl

namespace Grammar

variable {g g' : Grammar} {bounds : Bounds} {options : ReadOptions}

/-- The room that a grammar takes. -/
instance : Charged Grammar where
  load g
    | .symbols => g.terminals.size + g.nonterminals.size
    | .rules => g.rules.size
    | .nameLength => g.stats.longestName
    | _ => 0
  under _ g := g

/-- A largest length is at most `n` if all lengths are. -/
theorem foldl_max_le_iff {xs : List Nat} {start n : Nat} :
    xs.foldl Nat.max start ≤ n ↔ start ≤ n ∧ ∀ x ∈ xs, x ≤ n := by
  induction xs generalizing start with
  | nil => simp
  | cons x xs ih =>
    rw [List.foldl_cons, ih, List.forall_mem_cons, ← and_assoc]
    exact and_congr_left fun _ => Nat.max_le

/-- The longest name is no longer than a length that bounds all names. -/
theorem longestName_le_iff {n : Nat} :
    g.stats.longestName ≤ n ↔ ∀ length ∈ g.nameLengths, length ≤ n := by
  simp [stats, foldl_max_le_iff]

/-- The names are those of the terminals and those of the non-terminals. -/
theorem nameLengths_eq (g : Grammar) :
    g.nameLengths = g.displays.map String.length ++ g.mentions.map (·.1.length) := by
  simp [nameLengths, displays, mentions, Function.comp_def]

/-- There is one name for each symbol. -/
theorem length_nameLengths (g : Grammar) :
    g.nameLengths.length = g.terminals.size + g.nonterminals.size := by
  simp [nameLengths]

/-- A symbol takes room for itself and for its name, wherever it stands among the symbols. -/
theorem curtails_addSymbol {name : String} (hrules : g'.rules = g.rules)
    (hnames : g'.nameLengths.Perm (name.length :: g.nameLengths)) :
    bounds.Curtails (load g) (do g.allowSymbol .unbounded name; return g')
      (do g.allowSymbol bounds name; return g') := by
  have hsize := hnames.length_eq
  rw [List.length_cons, length_nameLengths, length_nameLengths] at hsize
  have hlongest : g'.stats.longestName = max g.stats.longestName name.length := by
    refine eq_of_forall_ge_iff fun n => ?_
    rw [longestName_le_iff, Nat.max_le, longestName_le_iff]
    simp only [hnames.mem_iff, List.forall_mem_cons, and_comm]
  simp only [allowSymbol, bind_assoc]
  refine .allow_bind (.allow_bind (.pure g' ?_))
  funext store
  cases store <;> simp [load, Load.single, hrules, hsize, hlongest]

/-- The room that a grammar takes after one more rule. -/
theorem load_of_rule {rule : Rule} (h : AddsRule g rule g') :
    load g ⊔ .single .rules (g.rules.size + 1) = load g' := by
  have hlongest : g'.stats.longestName = g.stats.longestName :=
    eq_of_forall_ge_iff fun n => by
      rw [longestName_le_iff, longestName_le_iff, nameLengths_eq, nameLengths_eq, h.displays_eq,
        h.mentions_eq]
  funext store
  cases store <;> simp [load, Load.single, h.rules_eq, h.terminals_eq, h.nonterminals_eq, hlongest]

/-- A terminal is added as without bounds, as long as there is room. -/
theorem curtails_addTerminal (g : Grammar) (bounds : Bounds) (name : String) :
    bounds.Curtails (load g) (g.addTerminal .unbounded name) (g.addTerminal bounds name) := by
  refine curtails_addSymbol rfl ?_
  simp [nameLengths]

/-- A non-terminal is added as without bounds, as long as there is room. -/
theorem curtails_addNonterminal (g : Grammar) (bounds : Bounds) (name : String) (place : Location) :
    bounds.Curtails (load g) (g.addNonterminal .unbounded name place)
      (g.addNonterminal bounds name place) := by
  refine curtails_addSymbol rfl ?_
  simpa [nameLengths] using List.perm_append_singleton name.length g.nameLengths

/-- Whether there is room for a rule is checked before anything is changed. -/
theorem addRule_eq (g : Grammar) (bounds : Bounds) (rule : Rule) :
    g.addRule bounds rule =
      bounds.allow .rules (g.rules.size + 1) >>= fun _ => g.addRule .unbounded rule := by
  simp only [addRule, Bounds.allow_unbounded]
  rfl

/-- A rule is added as without bounds, as long as there is room. -/
theorem curtails_addRule (g : Grammar) (bounds : Bounds) (rule : Rule) :
    bounds.Curtails (load g) (g.addRule .unbounded rule) (g.addRule bounds rule) := by
  rw [addRule_eq g .unbounded, addRule_eq g bounds]
  apply Bounds.Curtails.allow_bind
  apply Bounds.Curtails.same
  intro g' hg'
  exact ⟨load_of_rule (addsRule_of_addRule hg'), fun _ => rfl⟩

/-- An identifier names the same non-terminal as without bounds, and a new one is charged for. -/
theorem curtails_internNonterminal (g : Grammar) (options : ReadOptions) (name : String)
    (place : Location) :
    options.bounds.Curtails (load g) (g.internNonterminal options.unbounded name place)
      (g.internNonterminal options name place) := by
  unfold internNonterminal
  by_cases hname : name = options.startName
  · rw [if_pos hname, if_pos (show name = options.unbounded.startName from hname)]
    exact .error _
  rw [if_neg hname, if_neg (show ¬ name = options.unbounded.startName from hname)]
  cases g.findNonterminal? name with
  | some id => exact .result (by simp)
  | none =>
    by_cases hfirst : g.nonterminals.isEmpty
    · simp only [hfirst, if_true]
      refine (curtails_addNonterminal g options.bounds options.startName place).bind fun g => ?_
      refine (curtails_addNonterminal g options.bounds name place).bind fun g => ?_
      refine (curtails_addRule g options.bounds _).bind fun g => ?_
      exact .result (by simp)
    · simp only [hfirst]
      refine (curtails_addNonterminal g options.bounds name place).bind fun g' => ?_
      exact .result (by simp)

/-- A quoted text names the same symbol as without bounds, and a new one is charged for. -/
theorem curtails_internTerminal (g : Grammar) (options : ReadOptions) (quote : Quote)
    (text : String) :
    options.bounds.Curtails (load g) (g.internTerminal options.unbounded quote text)
      (g.internTerminal options quote text) := by
  simp only [internTerminal]
  rw [ReadOptions.keepQuotes_unbounded]
  by_cases htext : text = endOfInputName
  · rw [if_pos htext, if_pos htext]
    exact .result (by simp)
  rw [if_neg htext, if_neg htext]
  cases g.findTerminal? (if options.keepQuotes then quote.wrap text else text) with
  | some id => exact .result (by simp)
  | none =>
    refine (curtails_addTerminal g options.bounds _).bind fun g' => ?_
    exact .result (by simp)

end Grammar

namespace Reader

open Grammar

variable {options : ReadOptions}

/-- A group that is being read is charged for when its rules are added. -/
instance : Charged Group := weightless Group

/-- A group that is being read takes no room. -/
@[simp]
theorem load_group (group : Group) : load group = ⊥ := rfl

/-- A reader takes the room of its grammar. -/
instance : Charged Reader where
  load reader := load reader.grammar
  under _ reader := reader

/-- The room of a reader is that of its grammar. -/
@[simp]
theorem load_reader (reader : Reader) : load reader = load reader.grammar := rfl

/-- An alternative ends as without bounds, as long as there is room for its rule. -/
theorem curtails_endAlternative (options : ReadOptions) (g : Grammar) (group : Group)
    (place : Location) :
    options.bounds.Curtails (load g) (endAlternative options.unbounded g group place)
      (endAlternative options g group place) := by
  unfold endAlternative
  by_cases hempty : (group.read.isEmpty && group.sawEmpty) = true
  · rw [if_pos hempty, if_pos hempty]
    exact .error _
  rw [if_neg hempty, if_neg hempty]
  refine (curtails_addRule g options.bounds _).bind fun g' => ?_
  exact .result (by simp)

/-- A head is read as without bounds, as long as there is room for its name. -/
theorem curtails_readHead (options : ReadOptions) (g : Grammar) (token : Token) :
    options.bounds.Curtails (load g) (readHead options.unbounded g token)
      (readHead options g token) := by
  unfold readHead
  cases token.kind with
  | identifier name =>
    refine (curtails_internNonterminal g options name _).bind fun ⟨head, grammar⟩ => ?_
    exact .result (by simp)
  | _ => exact .error _

/-- An arrow is read as without bounds. -/
theorem curtails_readArrow {bounds : Bounds} (g : Grammar) (group : Group) (token : Token) :
    bounds.Curtails (load g) (readArrow g group token) (readArrow g group token) := by
  unfold readArrow
  cases token.kind with
  | arrow _ => exact .result rfl
  | _ => exact .error _

/-- A token of an alternative is read as without bounds, as long as there is room. -/
theorem curtails_readAlternative (options : ReadOptions) (g : Grammar) (group : Group)
    (token : Token) :
    options.bounds.Curtails (load g) (readAlternative options.unbounded g group token)
      (readAlternative options g group token) := by
  unfold readAlternative
  split
  · refine (curtails_internNonterminal g options _ _).bind fun ⟨id, grammar⟩ => ?_
    exact .result (by simp)
  · refine (curtails_internTerminal g options _ _).bind fun ⟨symbol, grammar⟩ => ?_
    exact .result (by simp)
  · refine (curtails_endAlternative options g group _).bind fun ⟨grammar, group⟩ => ?_
    exact .result (by simp)
  · refine (curtails_endAlternative options g group _).bind fun ⟨grammar, _⟩ => ?_
    exact .result (by simp)
  · exact .error _

/-- A token is read as without bounds, as long as there is room. -/
theorem curtails_read (options : ReadOptions) (reader : Reader) (token : Token) :
    options.bounds.Curtails (load reader) (reader.read options.unbounded token)
      (reader.read options token) := by
  unfold read
  split
  · exact .error _
  · exact curtails_readHead options reader.grammar token
  · exact curtails_readArrow reader.grammar _ token
  · exact curtails_readAlternative options reader.grammar _ token

/-- At the end of the source nothing is added any more. -/
theorem grammar_of_finish {reader : Reader} {place : Location} {g : Grammar}
    (h : reader.finish place = .ok g) : g = reader.grammar := by
  unfold finish at h
  split at h
  · split at h
    · cases h
    · split at h
      · cases h
      · exact (Except.ok.inj h).symm
  · cases h

/-- Under bounds tokens are read as without bounds, as long as there is room. -/
theorem curtails_readAll (options : ReadOptions) (reader : Reader) (tokens : List Token) :
    options.bounds.Curtails (load reader) (reader.readAll options.unbounded tokens)
      (reader.readAll options tokens) := by
  have hfinish (reader : Reader) (place : Location) : options.bounds.Curtails (load reader)
      (reader.finish place) (reader.finish place) := by
    apply Bounds.Curtails.same
    intro g hg
    exact ⟨by rw [grammar_of_finish hg, load_reader], fun _ => rfl⟩
  induction tokens generalizing reader with
  | nil => exact hfinish reader _
  | cons token tokens ih =>
    unfold readAll
    split
    · exact hfinish reader _
    · exact (curtails_read options reader token).bind ih

end Reader

/-- Under bounds a source is read as without bounds, as long as there is room. -/
theorem Grammar.curtails_ofSource (options : ReadOptions) (source : String) :
    options.bounds.Curtails ⊥ (Grammar.ofSource options.unbounded source)
      (Grammar.ofSource options source) := by
  have hempty : load ({} : Reader) = ⊥ := by
    funext store
    cases store <;> rfl
  have hread := Reader.curtails_readAll options {}
    (TokenStream.take (TokenStream.remaining (Scanner.ofSource source) + 1)
      (Scanner.ofSource source))
  rwa [hempty] at hread

end ShiftReduce
