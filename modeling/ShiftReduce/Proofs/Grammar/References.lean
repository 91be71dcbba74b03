import Mathlib.Logic.Relation
import ShiftReduce.Proofs.Bounds.Reader
import ShiftReduce.Proofs.Grammar.Reading

/-!
# Tables that refer to each other

A grammar stores several facts twice: a rule has its head and its body, and the symbols list the
rules that they head and the rules that mention them. A symbol is numbered when it is first
mentioned, while the rule that mentions it is added only at the end of its alternative. A reader
changes the tables by a few moves, and each of them keeps what the tables have to do with each
other. Between two moves a terminal is mentioned by a rule or by the alternative that is open.
-/

namespace ShiftReduce

namespace Grammar

variable {g g' : Grammar} {bounds : Bounds} {options : ReadOptions}

section Uses

/-- The rules that a symbol of the grammar says to be mentioned by. -/
def uses? (g : Grammar) : Symbol → Option (List RuleId)
  | .terminal t => g.terminals[t]?.map (·.uses)
  | .nonterminal n => g.nonterminals[n]?.map (·.uses)
  | .epsilon | .endOfInput => none

variable {id : RuleId} {X : Symbol} {rule : Rule}

/-- A change of one entry changes a part of it, and the same part of all other entries stays. -/
theorem map_getElem?_modify {α β : Type} {store : Array α} {change : α → α} {part : α → β}
    {f : β → β} (h : ∀ a, part (change a) = f (part a)) (i j : Nat) :
    ((store.modify i change)[j]?).map part =
      (store[j]?.map part).map fun b => if i = j then f b else b := by
  simp only [Array.getElem?_modify]
  split <;> simp [Option.map_map, Function.comp_def, h]

/-- The symbol that is used lists the rule, and all others list what they did before. -/
theorem uses?_noteUse (hok : noteUse id g X = .ok g') (Y : Symbol) :
    g'.uses? Y = (g.uses? Y).map fun ids => if X = Y then pushUnique ids id else ids := by
  cases X with
  | terminal t =>
    obtain ⟨terminals, hupdate, hok⟩ := bind_eq_ok.1 hok
    obtain rfl := Except.ok.inj hok
    obtain ⟨-, rfl⟩ := update_eq_ok.1 hupdate
    cases Y with
    | terminal t' =>
      simp only [uses?, Symbol.terminal.injEq]
      exact map_getElem?_modify (by intro; rfl) t t'
    | _ => simp [uses?, Function.comp_def]
  | nonterminal n =>
    obtain ⟨nonterminals, hupdate, hok⟩ := bind_eq_ok.1 hok
    obtain rfl := Except.ok.inj hok
    obtain ⟨-, rfl⟩ := update_eq_ok.1 hupdate
    cases Y with
    | nonterminal n' =>
      simp only [uses?, Symbol.nonterminal.injEq]
      exact map_getElem?_modify (by intro; rfl) n n'
    | _ => simp [uses?, Function.comp_def]
  | epsilon =>
    obtain rfl := Except.ok.inj hok
    cases Y <;> simp [uses?, Function.comp_def]
  | endOfInput =>
    obtain rfl := Except.ok.inj hok
    cases Y <;> simp [uses?, Function.comp_def]

/-- The symbols of a body list the rule once, however often they stand in it. -/
theorem uses?_noteUses {body : List Symbol} (hok : body.foldlM (noteUse id) g = .ok g')
    (Y : Symbol) :
    g'.uses? Y = (g.uses? Y).map fun ids => if Y ∈ body then pushUnique ids id else ids := by
  induction body generalizing g with
  | nil =>
    obtain rfl := Except.ok.inj hok
    simp
  | cons X body ih =>
    rw [List.foldlM_cons] at hok
    obtain ⟨next, hnext, hok⟩ := bind_eq_ok.1 hok
    rw [ih hok, uses?_noteUse hnext, Option.map_map]
    congr 1
    funext ids
    -- If `Y` comes again in the rest of the body, the rule is listed already.
    by_cases hX : X = Y
    · have hmem : id ∈ pushUnique ids id := by simp
      simp [hX, pushUnique_of_mem hmem]
    · simp [hX, Ne.symm hX]

/-- The symbols that a new rule mentions list it. -/
theorem uses?_addRule (hok : g.addRule bounds rule = .ok g') (Y : Symbol) :
    g'.uses? Y = (g.uses? Y).map fun ids =>
      if Y ∈ rule.body then pushUnique ids g.rules.size else ids := by
  obtain ⟨-, -, hok⟩ := bind_eq_ok.1 hok
  obtain ⟨headed, hhead, hok⟩ := bind_eq_ok.1 hok
  obtain ⟨noted, hnoted, hok⟩ := bind_eq_ok.1 hok
  have hheaded : headed.uses? Y = g.uses? Y := by
    obtain ⟨nonterminals, hupdate, hhead⟩ := bind_eq_ok.1 hhead
    obtain rfl := Except.ok.inj hhead
    obtain ⟨-, rfl⟩ := update_eq_ok.1 hupdate
    cases Y with
    | nonterminal n =>
      simp only [uses?, Array.getElem?_modify]
      split <;> simp [Function.comp_def, Option.map_map]
    | _ => rfl
  obtain rfl := Except.ok.inj hok
  rw [← hheaded]
  exact uses?_noteUses hnoted Y

end Uses

/-- What can change while a source is read: the grammar, and the symbols of the alternative that is
open, the latest first. -/
inductive Move (bounds : Bounds) : Grammar × List Symbol → Grammar × List Symbol → Prop
  /-- A new terminal is mentioned at once. -/
  | terminal {g g' : Grammar} {pending : List Symbol} {name : String} :
      name ∉ g.displays → g.addTerminal bounds name = .ok g' →
      Move bounds (g, pending) (g', .terminal g.terminals.size :: pending)
  | nonterminal {g g' : Grammar} {pending : List Symbol} {name : String} {place : Location} :
      name ∉ g.mentions.map Prod.fst → g.addNonterminal bounds name place = .ok g' →
      Move bounds (g, pending) (g', pending)
  | mention {g : Grammar} {pending : List Symbol} {X : Symbol} :
      X.In g → Move bounds (g, pending) (g, X :: pending)
  /-- The alternative ends with its rule. -/
  | rule {g g' : Grammar} {pending : List Symbol} {head : NonterminalId} :
      head < g.nonterminals.size → g.addRule bounds ⟨head, pending.reverse⟩ = .ok g' →
      Move bounds (g, pending) (g', [])

/-- What the tables have to do with each other while an alternative is open. -/
structure Tracked (g : Grammar) (pending : List Symbol) : Prop extends CrossReferenced g where
  pending_in : ∀ X ∈ pending, X.In g
  uses_listed : ∀ {X : Symbol} {ids : List RuleId}, g.uses? X = some ids →
    g.Lists (X ∈ ·.body) ids
  /-- A terminal that no rule mentions yet was met in the open alternative. -/
  mentioned : ∀ t < g.terminals.size, .terminal t ∈ pending ∨
    ∃ rule ∈ g.rules, .terminal t ∈ rule.body
  displays_nodup : g.displays.Nodup
  names_nodup : (g.mentions.map Prod.fst).Nodup

namespace Tracked

variable {pending : List Symbol} {name : String}

/-- A grammar without symbols keeps track of all of them. -/
theorem empty : Tracked {} [] where
  toCrossReferenced := .empty
  pending_in := by simp
  uses_listed {X ids} hX := by cases X <;> simp [uses?] at hX
  mentioned := by simp
  displays_nodup := .nil
  names_nodup := .nil

/-- After a new symbol the others list the rules that they did. The new one lists none, because no
rule mentions it yet. -/
theorem lists_of_symbol (h : g.Tracked pending) {X : Symbol} {ids : List RuleId}
    (hrules : g'.rules = g.rules) (hX : g.uses? X = some ids ∨ ids = [] ∧ ¬ X.In g) :
    g'.Lists (X ∈ ·.body) ids := by
  rcases hX with hold | ⟨rfl, hnew⟩
  · obtain ⟨hascending, hmem⟩ := h.uses_listed hold
    exact ⟨hascending, by rwa [hrules]⟩
  · refine lists_nil fun rule hrule hX => hnew ?_
    rw [hrules] at hrule
    obtain ⟨id, hid⟩ := Array.mem_iff_getElem?.1 hrule
    exact h.body_in hid X hX

/-- A new terminal is mentioned by the open alternative. -/
theorem addTerminal (h : g.Tracked pending) (hname : name ∉ g.displays)
    (hok : g.addTerminal bounds name = .ok g') :
    g'.Tracked (.terminal g.terminals.size :: pending) := by
  have href := h.toCrossReferenced.addTerminal hok
  obtain ⟨-, -, hok⟩ := bind_eq_ok.1 hok
  obtain rfl := Except.ok.inj hok
  refine ⟨href, fun X hX => ?_, fun {X ids} hX => h.lists_of_symbol rfl ?_, fun t ht => ?_, ?_,
    h.names_nodup⟩
  · rcases List.mem_cons.1 hX with rfl | hX
    · simp [Symbol.In]
    · exact (h.pending_in X hX).mono (by simp) (Nat.le_refl _)
  · cases X with
    | terminal t =>
      simp only [uses?, Array.getElem?_push] at hX
      split at hX
      · rename_i ht
        exact .inr ⟨(Option.some.inj hX).symm, by simp [Symbol.In, ht]⟩
      · exact .inl hX
    | _ => exact .inl hX
  · simp only [Array.size_push] at ht
    rcases Nat.lt_succ_iff_lt_or_eq.1 ht with hold | rfl
    · exact (h.mentioned t hold).imp_left (List.mem_cons_of_mem _)
    · exact .inl List.mem_cons_self
  · have hdisplays := h.displays_nodup.concat hname
    simpa [displays] using hdisplays

/-- A new non-terminal keeps what the tables have to do with each other. -/
theorem addNonterminal {place : Location} (h : g.Tracked pending)
    (hname : name ∉ g.mentions.map Prod.fst)
    (hok : g.addNonterminal bounds name place = .ok g') : g'.Tracked pending := by
  have href := h.toCrossReferenced.addNonterminal hok
  obtain rfl := addNonterminal_eq hok
  refine ⟨href, fun X hX => ?_, fun {X ids} hX => h.lists_of_symbol rfl ?_, h.mentioned,
    h.displays_nodup, ?_⟩
  · exact (h.pending_in X hX).mono (Nat.le_refl _) (by simp)
  · cases X with
    | nonterminal n =>
      simp only [uses?, Array.getElem?_push] at hX
      split at hX
      · rename_i hn
        exact .inr ⟨(Option.some.inj hX).symm, by simp [Symbol.In, hn]⟩
      · exact .inl hX
    | _ => exact .inl hX
  · have hnames := h.names_nodup.concat hname
    simpa [mentions] using hnames

/-- The rule of the open alternative mentions what was pending. -/
theorem addRule {head : NonterminalId} (h : g.Tracked pending)
    (hhead : head < g.nonterminals.size)
    (hok : g.addRule bounds ⟨head, pending.reverse⟩ = .ok g') : g'.Tracked [] := by
  have hadds := addsRule_of_addRule hok
  have hbody : ∀ X ∈ pending.reverse, X.In g := fun X hX => h.pending_in X (List.mem_reverse.1 hX)
  refine ⟨h.toCrossReferenced.addRule hhead hbody hadds, by simp, fun {X ids} hX => ?_,
    fun t ht => .inr ?_, ?_, ?_⟩
  · rw [uses?_addRule hok] at hX
    obtain ⟨old, hold, rfl⟩ := Option.map_eq_some_iff.1 hX
    exact (h.uses_listed hold).push hadds.rules_eq
  · rw [hadds.terminals_eq] at ht
    rw [hadds.rules_eq]
    rcases h.mentioned t ht with hpending | ⟨rule, hrule, hmem⟩
    · exact ⟨_, Array.mem_push_self, List.mem_reverse.2 hpending⟩
    · exact ⟨rule, Array.mem_push_of_mem _ hrule, hmem⟩
  · rw [hadds.displays_eq]
    exact h.displays_nodup
  · rw [hadds.mentions_eq]
    exact h.names_nodup

/-- Every move keeps what the tables have to do with each other. -/
theorem move {now next : Grammar × List Symbol} (h : now.1.Tracked now.2)
    (hmove : Move bounds now next) : next.1.Tracked next.2 := by
  cases hmove with
  | terminal hname hok => exact h.addTerminal hname hok
  | nonterminal hname hok => exact h.addNonterminal hname hok
  | mention hX =>
    exact { h with
      pending_in := List.forall_mem_cons.2 ⟨hX, h.pending_in⟩
      mentioned := fun t ht => (h.mentioned t ht).imp_left (List.mem_cons_of_mem _) }
  | rule hhead hok => exact h.addRule hhead hok

/-- Moves of a reader keep track of symbols and rules. -/
theorem moves {now next : Grammar × List Symbol} (h : now.1.Tracked now.2)
    (hmoves : Relation.ReflTransGen (Move bounds) now next) : next.1.Tracked next.2 := by
  induction hmoves with
  | refl => exact h
  | tail _ hmove ih => exact ih.move hmove

end Tracked

/-- A name that is found nowhere is the name of no terminal. -/
theorem not_mem_displays {name : String} (h : g.findTerminal? name = none) :
    name ∉ g.displays :=
  Written.not_mem_of_findIdx? rfl h

/-- A name that is found nowhere is the name of no non-terminal. -/
theorem not_mem_names {name : String} (h : g.findNonterminal? name = none) :
    name ∉ g.mentions.map Prod.fst :=
  Written.not_mem_of_findIdx? (map_fst_mentions g).symm h

/-- A grammar that was started has a non-terminal. -/
theorem Started.not_isEmpty (h : g.Started options) : ¬ g.nonterminals.isEmpty = true := by
  intro hempty
  have hname := h.start_name
  rw [Array.isEmpty_iff.1 hempty] at hname
  simp at hname

/-- An identifier is known, or it is a new non-terminal. The first one comes with two non-terminals
and the augmented rule, whose body counts as an alternative of its own. -/
theorem moves_internNonterminal {name : String} {place : Location} {id : NonterminalId}
    {pending : List Symbol} (h : g = {} ∧ pending = [] ∨ g.Started options)
    (hok : g.internNonterminal options name place = .ok (id, g')) :
    Relation.ReflTransGen (Move options.bounds) (g, pending) (g', pending) := by
  obtain ⟨hname, ⟨-, rfl⟩ | ⟨hempty, rfl, g₁, g₂, hg₁, hg₂, hrule⟩ | ⟨-, hfind, rfl, hadd⟩⟩ :=
    internNonterminal_cases hok
  · exact .refl
  · obtain ⟨rfl, rfl⟩ := h.resolve_right fun hg => hg.not_isEmpty hempty
    have hstart : Move options.bounds ({}, []) (g₁, []) := .nonterminal (by simp [mentions]) hg₁
    obtain rfl := addNonterminal_eq hg₁
    have hfirst : Move options.bounds _ (g₂, []) :=
      .nonterminal (by simpa [mentions] using hname) hg₂
    have hsize : g₂.nonterminals.size = 2 := by
      rw [addNonterminal_eq hg₂]
      rfl
    have hsource : Move options.bounds (g₂, []) (g₂, [.nonterminal sourceStart]) :=
      .mention ⟨by decide, by rw [hsize]; decide⟩
    have hend : Move options.bounds (g₂, [.nonterminal sourceStart])
      (g₂, [.endOfInput, .nonterminal sourceStart]) := .mention trivial
    have hhead : start < g₂.nonterminals.size := by
      rw [hsize]
      decide
    have hlast : Move options.bounds (g₂, [.endOfInput, .nonterminal sourceStart]) (g', []) :=
      .rule hhead hrule
    exact ((((Relation.ReflTransGen.single hstart).tail hfirst).tail hsource).tail hend).tail hlast
  · exact .single (.nonterminal (not_mem_names hfind) hadd)

/-- A quoted string is mentioned, and it may be a new terminal. -/
theorem moves_internTerminal {quote : Quote} {text : String} {X : Symbol} {pending : List Symbol}
    (h : g.Started options) (hok : g.internTerminal options quote text = .ok (X, g')) :
    Relation.ReflTransGen (Move options.bounds) (g, pending) (g', X :: pending) := by
  obtain ⟨-, hX, -⟩ := internTerminal_started h hok
  obtain ⟨-, rfl⟩ | ⟨name, ⟨t, -, -, rfl⟩ | ⟨hfind, rfl, hadd⟩⟩ := internTerminal_cases hok
  · exact .single (.mention hX)
  · exact .single (.mention hX)
  · exact .single (.terminal (not_mem_displays hfind) hadd)

end Grammar

namespace Reader

open Grammar

variable {options : ReadOptions} {g g' : Grammar} {group group' : Group} {place : Location}
  {reader next : Reader} {token : Token}

/-- The symbols of the alternative that is open, the latest first. -/
def pending (reader : Reader) : List Symbol :=
  match reader.phase with
  | .head => []
  | .arrow group | .alternative group => group.read

/-- The moves that lead from one reader to another. -/
def Moves (bounds : Bounds) (reader next : Reader) : Prop :=
  Relation.ReflTransGen (Move bounds) (reader.grammar, reader.pending) (next.grammar, next.pending)

/-- The end of an alternative adds its rule. -/
theorem move_endAlternative (hgroup : group.Fits g)
    (hok : endAlternative options g group place = .ok (g', group')) :
    Move options.bounds (g, group.read) (g', []) ∧ group'.read = [] := by
  unfold endAlternative at hok
  by_cases hempty : (group.read.isEmpty && group.sawEmpty) = true
  · rw [if_pos hempty] at hok
    cases hok
  · rw [if_neg hempty] at hok
    obtain ⟨g₁, hadd, hok⟩ := bind_eq_ok.1 hok
    obtain ⟨rfl, rfl⟩ := Prod.mk.inj (Except.ok.inj hok)
    exact ⟨.rule hgroup.1.2 hadd, rfl⟩

/-- To read a head is to move to a grammar that has it. -/
theorem moves_readHead (h : g = {} ∨ g.Started options)
    (hok : readHead options g token = .ok next) : Moves options.bounds ⟨g, .head⟩ next := by
  unfold readHead at hok
  split at hok
  · obtain ⟨⟨head, g₁⟩, hintern, hok⟩ := bind_eq_ok.1 hok
    obtain rfl := Except.ok.inj hok
    exact moves_internNonterminal (h.imp_left fun hg => ⟨hg, rfl⟩) hintern
  · cases hok
  · cases hok

/-- To read an arrow changes nothing in the grammar. -/
theorem moves_readArrow {bounds : Bounds} (hok : readArrow g group token = .ok next) :
    Moves bounds ⟨g, .arrow group⟩ next := by
  unfold readArrow at hok
  split at hok
  · obtain rfl := Except.ok.inj hok
    exact .refl
  · cases hok

/-- To read a token of an alternative is to make moves, one for each symbol and rule that it adds.
-/
theorem moves_readAlternative (h : g.Started options) (hgroup : group.Fits g)
    (hok : readAlternative options g group token = .ok next) :
    Moves options.bounds ⟨g, .alternative group⟩ next := by
  unfold readAlternative at hok
  split at hok
  · obtain ⟨⟨id, g₁⟩, hintern, hok⟩ := bind_eq_ok.1 hok
    obtain rfl := Except.ok.inj hok
    obtain ⟨-, hX, -⟩ := internNonterminal_started (.inr h) hintern
    exact (moves_internNonterminal (.inr h) hintern).tail (.mention hX)
  · obtain ⟨⟨X, g₁⟩, hintern, hok⟩ := bind_eq_ok.1 hok
    obtain rfl := Except.ok.inj hok
    exact moves_internTerminal h hintern
  · obtain ⟨⟨g₁, group₁⟩, hend, hok⟩ := bind_eq_ok.1 hok
    obtain rfl := Except.ok.inj hok
    obtain ⟨hmove, hread⟩ := move_endAlternative hgroup hend
    have hpending : pending ⟨g₁, .alternative group₁⟩ = [] := hread
    rw [Moves, hpending]
    exact .single hmove
  · obtain ⟨⟨g₁, group₁⟩, hend, hok⟩ := bind_eq_ok.1 hok
    obtain rfl := Except.ok.inj hok
    exact .single (move_endAlternative hgroup hend).1
  · cases hok

/-- Every token is read by moves. -/
theorem Sound.moves_read (h : reader.Sound options)
    (hok : reader.read options token = .ok next) : Moves options.bounds reader next := by
  obtain ⟨g, phase⟩ := reader
  unfold Reader.read at hok
  split at hok
  · cases hok
  · rename_i hphase _
    subst hphase
    refine moves_readHead ?_ hok
    exact h.imp (fun heq => congrArg Reader.grammar heq) fun hstarted => hstarted.1
  · rename_i hphase _
    subst hphase
    exact moves_readArrow hok
  · rename_i hphase _
    subst hphase
    obtain ⟨hg, hfits⟩ := h.resolve_left (by simp)
    exact moves_readAlternative hg hfits hok

/-- At the end of the source no alternative is open. -/
theorem pending_of_finish (hok : reader.finish place = .ok g) : reader.pending = [] := by
  unfold finish at hok
  split at hok
  · rename_i hphase
    rw [pending, hphase]
  · cases hok

/-- The tokens of a source are read by moves. -/
theorem Sound.moves_readAll {tokens : List Token} (h : reader.Sound options)
    (hok : reader.readAll options tokens = .ok g) :
    Relation.ReflTransGen (Move options.bounds) (reader.grammar, reader.pending) (g, []) := by
  have hfinish {reader : Reader} {place : Location} (hok : reader.finish place = .ok g) :
      Relation.ReflTransGen (Move options.bounds) (reader.grammar, reader.pending) (g, []) := by
    rw [pending_of_finish hok, grammar_of_finish hok]
  induction tokens generalizing reader with
  | nil => exact hfinish hok
  | cons token tokens ih =>
    rw [Reader.readAll] at hok
    split at hok
    · exact hfinish hok
    · obtain ⟨next, hread, hok⟩ := bind_eq_ok.1 hok
      exact (h.moves_read hread).trans (ih (h.read hread) hok)

end Reader

namespace Grammar

/-- In a grammar that was read the tables answer what the rules say. -/
theorem tracked_ofTokens {options : ReadOptions} {tokens : List Token} {g : Grammar}
    (hok : ofTokens options tokens = .ok g) : g.Tracked [] := by
  have hsound : Reader.Sound options {} := .inl rfl
  exact Tracked.empty.moves (hsound.moves_readAll hok)

/-- The names of all symbols, those of the terminals first. -/
def names (g : Grammar) : List String :=
  g.terminals.toList.map (·.name) ++ g.nonterminals.toList.map (·.name)

/-- The sizes are those of the tables. -/
structure Measures (g : Grammar) (stats : GrammarStats) : Prop where
  terminals_eq : stats.terminals = g.terminals.size
  nonterminals_eq : stats.nonterminals = g.nonterminals.size
  rules_eq : stats.rules = g.rules.size
  epsilonRules_eq : stats.epsilonRules = (g.rules.toList.filter (·.body = [])).length
  longestName_eq : (g.names.map (·.length)).max? = some stats.longestName
  totalNameLength_eq : stats.totalNameLength = (g.names.map (·.length)).sum

/-- The sizes of a grammar with a non-terminal are those of its tables. -/
theorem measures_stats (g : Grammar) (h : g.nonterminals.size ≠ 0) : g.Measures g.stats := by
  have hlengths : g.names.map (·.length) = g.nameLengths := by
    simp [names, nameLengths, Function.comp_def]
  have hepsilon (rule : Rule) : rule.isEpsilon = decide (rule.body = []) := by
    rw [Bool.eq_iff_iff, Rule.isEpsilon, List.isEmpty_iff, decide_eq_true_eq]
  refine ⟨rfl, rfl, rfl, ?_, ?_, ?_⟩
  · simp only [stats, List.countP_eq_length_filter, hepsilon]
  · rw [hlengths]
    cases hnames : g.nameLengths with
    | nil =>
      have hempty : g.nonterminals = #[] := by
        simp only [nameLengths, List.append_eq_nil_iff, List.map_eq_nil_iff,
          Array.toList_eq_nil_iff] at hnames
        exact hnames.2
      simp [hempty] at h
    | cons n ns =>
      simp only [stats, hnames, List.max?_cons', List.foldl_cons]
      rw [show Nat.max 0 n = n from Nat.zero_max n]
  · rw [hlengths, List.sum_eq_foldl]
    rfl

/-- A part that no two entries share is found at the entry that has it. -/
theorem findIdx?_eq_some_iff {α : Type} {store : Array α} {part : α → String} {name : String}
    {i : Nat} (h : (store.toList.map part).Nodup) :
    store.findIdx? (part · == name) = some i ↔ (store[i]?).map part = some name := by
  have hget : (store[i]?).map part = (store.toList.map part)[i]? := by simp
  rw [Written.findIdx?_eq rfl, hget]
  constructor
  · intro hfind
    split at hfind
    · rename_i hmem
      obtain rfl := Option.some.inj hfind
      exact List.getElem?_idxOf hmem
    · cases hfind
  · intro hname
    obtain ⟨hlt, rfl⟩ := List.getElem?_eq_some_iff.1 hname
    rw [if_pos (List.getElem_mem hlt), h.idxOf_getElem]

/-- The tables of a grammar answer what its rules say. -/
structure Indexed (g : Grammar) : Prop where
  /-- Bodies hold symbols of the grammar and the end of input, but not the empty string and not the
  augmented start symbol. -/
  body_in : ∀ rule ∈ g.rules, ∀ X ∈ rule.body, X.In g
  head_lt : ∀ rule ∈ g.rules, rule.head < g.nonterminals.size
  heads_start : ∀ id, g.Heads start id ↔ id = augmentedRule
  rulesFor_listed : ∀ n < g.nonterminals.size, ∃ ids, g.rulesFor n = .ok ids ∧ ids ≠ [] ∧
    g.Lists (·.head = n) ids
  uses_listed : ∀ X ids, g.uses? X = some ids → g.Lists (X ∈ ·.body) ids
  terminals_used : ∀ t < g.terminals.size, ∃ ids, g.uses? (.terminal t) = some ids ∧ ids ≠ []
  terminals_nodup : (g.terminals.toList.map (·.name)).Nodup
  nonterminals_nodup : (g.nonterminals.toList.map (·.name)).Nodup
  findTerminal?_iff : ∀ name t, g.findTerminal? name = some t ↔ g.name? (.terminal t) = some name
  findNonterminal?_iff : ∀ name n,
    g.findNonterminal? name = some n ↔ g.name? (.nonterminal n) = some name
  measures_stats : g.Measures g.stats

/-- A well-formed grammar whose tables were kept up with its rules. -/
theorem Tracked.indexed {g : Grammar} (h : g.Tracked []) (hg : g.WellFormed) : g.Indexed := by
  have hnames := h.names_nodup
  rw [map_fst_mentions] at hnames
  have hstart : g.Heads start augmentedRule := ⟨_, hg.augmented, rfl⟩
  have hsize : g.nonterminals.size ≠ 0 := Nat.ne_of_gt (hg.head_lt hg.augmented)
  refine ⟨fun rule hrule => ?_, fun rule hrule => ?_, fun id => ⟨?_, ?_⟩, fun n hn => ?_,
    fun X ids => h.uses_listed, fun t ht => ?_, h.displays_nodup, hnames, fun name t => ?_,
    fun name n => ?_, g.measures_stats hsize⟩
  · obtain ⟨id, hid⟩ := Array.mem_iff_getElem?.1 hrule
    exact hg.body_in hid
  · obtain ⟨id, hid⟩ := Array.mem_iff_getElem?.1 hrule
    exact hg.head_lt hid
  · rintro ⟨rule, hrule, hhead⟩
    exact hg.head_start hrule hhead
  · rintro rfl
    exact hstart
  · have hnt := Array.getElem?_eq_getElem hn
    refine ⟨g.nonterminals[n].rules, ?_, hg.defined hnt, hg.lists hnt⟩
    simp only [rulesFor, entry, hnt]
    rfl
  · have hterminal : g.uses? (.terminal t) = some g.terminals[t].uses := by
      rw [uses?, Array.getElem?_eq_getElem ht, Option.map_some]
    refine ⟨_, hterminal, (h.uses_listed hterminal).ne_nil_iff.2 ?_⟩
    exact (h.mentioned t ht).resolve_left List.not_mem_nil
  · exact findIdx?_eq_some_iff h.displays_nodup
  · exact findIdx?_eq_some_iff hnames

/-- In a grammar that was read, whatever the tokens, the options and the bounds, the tables answer
exactly what the rules say. Bodies hold symbols of the grammar, and the augmented start symbol heads
the augmented rule only. Symbols list the rules that they head and the rules that mention them once
each and in ascending order. Every non-terminal heads a rule, and every terminal is mentioned by
one. Names are distinct, and symbols are found by exactly the names that they have. The sizes are
those of the tables. -/
theorem indexed_of_read {σ : Type} [TokenStream σ] {options : ReadOptions} {stream : σ}
    {g : Grammar} (hread : ofStream options stream = .ok g) : g.Indexed :=
  (tracked_ofTokens hread).indexed (wellFormed_ofTokens hread)

/-- The non-terminal `A` heads two groups and mentions itself, and its first alternative has the
terminal `a` twice. It lists its three rules and the rule that mentions it, and so does `a`. -/
theorem indexed_of_read_two_groups :
    ∃ g, ofStream { bounds := .fixed } (Scanner.ofSource
        "A -> 'a' A 'a' | B ; B -> ; A -> 'b' A ;") = .ok g ∧ g.Indexed ∧
      g.rulesFor sourceStart = .ok [1, 2, 4] ∧
      g.uses? (.nonterminal sourceStart) = some [0, 1, 4] ∧
      g.uses? (.terminal 0) = some [1] ∧ g.stats = ⟨2, 3, 5, 1, 2, 6⟩ := by
  have hsource : (ofStream { bounds := .fixed } (Scanner.ofSource
      "A -> 'a' A 'a' | B ; B -> ; A -> 'b' A ;")).toOption.map
        (fun g => ((g.rulesFor sourceStart).toOption, g.uses? (.nonterminal sourceStart),
          g.uses? (.terminal 0), g.stats)) =
      some (some [1, 2, 4], some [0, 1, 4], some [1], ⟨2, 3, 5, 1, 2, 6⟩) := by
    decide +kernel
  obtain ⟨g, hok, hfacts⟩ := Option.map_eq_some_iff.1 hsource
  simp only [Prod.mk.injEq] at hfacts
  obtain ⟨hrules, huses, hterminal, hstats⟩ := hfacts
  have hread := eq_ok_of_toOption hok
  exact ⟨g, hread, indexed_of_read hread, eq_ok_of_toOption hrules, huses, hterminal, hstats⟩

end Grammar

end ShiftReduce
