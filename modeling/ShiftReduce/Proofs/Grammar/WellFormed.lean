import ShiftReduce.Grammar.Reader
import ShiftReduce.Proofs.Requests

/-!
# Grammars that were read are well formed

Symbols and rules of a grammar refer to each other by numbers. In a grammar that comes from the
reader all these numbers are in range, every non-terminal lists exactly the rules it heads, and the
augmented start symbol occurs only as the head of the augmented rule. The reader keeps this after
every token once it has seen the first one.
-/

namespace ShiftReduce

/-- Symbols that may stand in the body of a rule: those of the grammar and the end of input, but
not the augmented start symbol. -/
def Symbol.In (g : Grammar) : Symbol → Prop
  | .terminal t => t < g.terminals.size
  | .nonterminal n => n ≠ Grammar.start ∧ n < g.nonterminals.size
  | .epsilon => False
  | .endOfInput => True

/-- Symbols of a grammar stay in range when symbols are added. -/
theorem Symbol.In.mono {g g' : Grammar} {X : Symbol} (hX : X.In g)
    (hterminals : g.terminals.size ≤ g'.terminals.size)
    (hnonterminals : g.nonterminals.size ≤ g'.nonterminals.size) : X.In g' := by
  cases X with
  | terminal t => exact Nat.lt_of_lt_of_le hX hterminals
  | nonterminal n => exact ⟨hX.1, Nat.lt_of_lt_of_le hX.2 hnonterminals⟩
  | epsilon => exact hX
  | endOfInput => trivial

/-- The symbols of bodies have columns. -/
theorem Symbol.In.mem_columns {g : Grammar} {X : Symbol} (hX : X.In g) : X ∈ g.columns := by
  cases X with
  | terminal t => exact Grammar.terminal_mem_columns.2 hX
  | nonterminal n => exact Grammar.nonterminal_mem_columns.2 hX.2
  | epsilon => exact absurd hX not_false
  | endOfInput => exact Grammar.endOfInput_mem_columns g

namespace Grammar

/-- A non-terminal heads the rule with the given number. -/
def Heads (g : Grammar) (n : NonterminalId) (id : RuleId) : Prop :=
  ∃ rule, g.rules[id]? = some rule ∧ rule.head = n

/-- Symbols and rules refer to each other correctly. -/
structure CrossReferenced (g : Grammar) : Prop where
  /-- Bodies hold symbols of the grammar. -/
  body_in : ∀ {id : RuleId} {rule : Rule}, g.rules[id]? = some rule → ∀ X ∈ rule.body, X.In g
  /-- Heads are non-terminals of the grammar. -/
  head_lt : ∀ {id : RuleId} {rule : Rule}, g.rules[id]? = some rule →
    rule.head < g.nonterminals.size
  /-- A non-terminal lists the rules that it heads. -/
  mem_rules : ∀ {n : NonterminalId} {nt : Nonterminal}, g.nonterminals[n]? = some nt →
    ∀ id, id ∈ nt.rules ↔ g.Heads n id
  /-- The rules of a non-terminal are listed in ascending order. -/
  rules_ascending : ∀ {n : NonterminalId} {nt : Nonterminal}, g.nonterminals[n]? = some nt →
    nt.rules.Pairwise (· < ·)

/-- A grammar with its augmented rule, in which every mentioned number is in range. -/
structure Linked (g : Grammar) : Prop extends CrossReferenced g where
  /-- Rule 0 leads from the augmented start symbol to the first non-terminal of the source. -/
  augmented : g.rules[augmentedRule]? = some ⟨start, [.nonterminal sourceStart, .endOfInput]⟩
  /-- The augmented start symbol heads no other rule. -/
  head_start : ∀ {id : RuleId} {rule : Rule}, g.rules[id]? = some rule → rule.head = start →
    id = augmentedRule

/-- A finished grammar: in addition every non-terminal has a rule. -/
structure WellFormed (g : Grammar) : Prop extends Linked g where
  /-- Every non-terminal heads a rule. -/
  defined : ∀ {n : NonterminalId} {nt : Nonterminal}, g.nonterminals[n]? = some nt → nt.rules ≠ []

variable {g g' : Grammar} {bounds : Bounds} {options : ReadOptions}

/-- A rule number that a non-terminal lists is the number of a rule. -/
theorem Heads.lt {n : NonterminalId} {id : RuleId} (h : g.Heads n id) : id < g.rules.size := by
  obtain ⟨rule, hrule, -⟩ := h
  exact (Array.getElem?_eq_some_iff.1 hrule).1

/-- The symbols of a body have columns. -/
theorem CrossReferenced.body_columns {id : RuleId} {rule : Rule} (h : g.CrossReferenced)
    (hrule : g.rules[id]? = some rule) : ∀ X ∈ rule.body, X ∈ g.columns :=
  fun X hX => (h.body_in hrule X hX).mem_columns

/-- The rules of a non-terminal can be looked up. -/
theorem CrossReferenced.exists_rulesFor {n : NonterminalId} (h : g.CrossReferenced)
    (hn : n < g.nonterminals.size) :
    ∃ rules, g.rulesFor n = .ok rules ∧ (∀ id, id ∈ rules ↔ g.Heads n id) ∧
      rules.Pairwise (· < ·) := by
  have hnt := Array.getElem?_eq_getElem hn
  refine ⟨_, ?_, h.mem_rules hnt, h.rules_ascending hnt⟩
  simp only [rulesFor, entry, hnt]
  rfl

/-- The augmented rule is not a rule of a non-terminal in a body. -/
theorem Linked.ne_augmentedRule {id id' : RuleId} {rule rule' : Rule} (h : g.Linked)
    (hrule : g.rules[id]? = some rule) (hrule' : g.rules[id']? = some rule')
    (hmem : .nonterminal rule'.head ∈ rule.body) : id' ≠ augmentedRule := by
  rintro rfl
  obtain rfl := Option.some.inj (hrule'.symm.trans h.augmented)
  exact (h.body_in hrule _ hmem).1 rfl

section Lists

/-- A list of the rules with a property, in ascending order. -/
structure Lists (g : Grammar) (p : Rule → Prop) (ids : List RuleId) : Prop where
  ascending : ids.Pairwise (· < ·)
  mem_iff : ∀ id, id ∈ ids ↔ ∃ rule, g.rules[id]? = some rule ∧ p rule

variable {p : Rule → Prop} {ids : List RuleId} {rule : Rule}

/-- There are rules with a property if the list of them is not empty. -/
theorem Lists.ne_nil_iff (h : g.Lists p ids) : ids ≠ [] ↔ ∃ rule ∈ g.rules, p rule := by
  constructor
  · intro hids
    obtain ⟨id, hid⟩ := List.exists_mem_of_ne_nil ids hids
    obtain ⟨rule, hrule, hp⟩ := (h.mem_iff id).1 hid
    exact ⟨rule, Array.mem_of_getElem? hrule, hp⟩
  · rintro ⟨rule, hrule, hp⟩
    obtain ⟨id, hid⟩ := Array.mem_iff_getElem?.1 hrule
    exact List.ne_nil_of_mem ((h.mem_iff id).2 ⟨rule, hid, hp⟩)

/-- No rule has the property. -/
theorem lists_nil (h : ∀ rule ∈ g.rules, ¬ p rule) : g.Lists p [] := by
  refine ⟨.nil, fun id => ⟨fun hid => absurd hid List.not_mem_nil, ?_⟩⟩
  rintro ⟨rule, hrule, hp⟩
  exact absurd hp (h rule (Array.mem_of_getElem? hrule))

/-- A new rule comes last if it has the property. -/
theorem Lists.push [Decidable (p rule)] (h : g.Lists p ids)
    (hrules : g'.rules = g.rules.push rule) :
    g'.Lists p (if p rule then pushUnique ids g.rules.size else ids) := by
  have hlt : ∀ id ∈ ids, id < g.rules.size := fun id hid => by
    obtain ⟨old, hold, -⟩ := (h.mem_iff id).1 hid
    exact (Array.getElem?_eq_some_iff.1 hold).1
  have hfresh : g.rules.size ∉ ids := fun hmem => Nat.lt_irrefl _ (hlt _ hmem)
  have hmem (id : RuleId) : (∃ r, g'.rules[id]? = some r ∧ p r) ↔
      id ∈ ids ∨ id = g.rules.size ∧ p rule := by
    rw [hrules, h.mem_iff, Array.getElem?_push]
    by_cases hid : id = g.rules.size
    · subst hid
      simp
    · simp [hid]
  split
  · rename_i hp
    refine ⟨?_, fun id => ?_⟩
    · rw [pushUnique, if_neg (by simpa using hfresh), List.pairwise_append]
      refine ⟨h.ascending, List.pairwise_singleton .., fun id hid last hlast => ?_⟩
      rw [List.mem_singleton.1 hlast]
      exact hlt id hid
    · rw [hmem, mem_pushUnique, and_iff_left hp]
  · rename_i hp
    refine ⟨h.ascending, fun id => ?_⟩
    rw [hmem, or_iff_left fun hnew => hp hnew.2]

/-- A non-terminal lists the rules that it heads. -/
theorem CrossReferenced.lists {n : NonterminalId} {nt : Nonterminal} (h : g.CrossReferenced)
    (hnt : g.nonterminals[n]? = some nt) : g.Lists (·.head = n) nt.rules :=
  ⟨h.rules_ascending hnt, h.mem_rules hnt⟩

end Lists

/-- A grammar with at least the symbols of another one. -/
def Covers (g' g : Grammar) : Prop :=
  g.terminals.size ≤ g'.terminals.size ∧ g.nonterminals.size ≤ g'.nonterminals.size

section Links

/-- A change of one entry that keeps a part of it keeps this part of all entries. -/
theorem map_toList_modify {α β : Type} {store : Array α} {id : Nat} {change : α → α} {part : α → β}
    (h : ∀ a, part (change a) = part a) :
    (store.modify id change).toList.map part = store.toList.map part := by
  apply List.ext_getElem?
  intro i
  simp only [List.getElem?_map, Array.getElem?_toList, Array.getElem?_modify]
  split
  · simp [Option.map_map, Function.comp_def, h]
  · rfl

/-- The names of the terminals in order. -/
def displays (g : Grammar) : List String := g.terminals.toList.map (·.name)

/-- The names of the non-terminals in order, with the places of their first mentions. -/
def mentions (g : Grammar) : List (String × Location) :=
  g.nonterminals.toList.map fun nt => (nt.name, nt.firstUse)

/-- The names that are mentioned are those of the non-terminals. -/
theorem map_fst_mentions (g : Grammar) :
    g.mentions.map Prod.fst = g.nonterminals.toList.map (·.name) := by
  simp [mentions]

/-- What a rule notes at the symbols that it mentions: the symbols stay the same, and so do the
rules that non-terminals list. -/
structure SameLinks (g g' : Grammar) : Prop where
  rules_eq : g'.rules = g.rules
  terminals_eq : g'.terminals.size = g.terminals.size
  nonterminals_eq : g'.nonterminals.size = g.nonterminals.size
  displays_eq : g'.displays = g.displays
  mentions_eq : g'.mentions = g.mentions
  /-- Names and rules of non-terminals are unchanged. -/
  nonterminal_eq : ∀ n : NonterminalId, (g'.nonterminals[n]?).map (fun nt => (nt.name, nt.rules)) =
    (g.nonterminals[n]?).map (fun nt => (nt.name, nt.rules))

/-- Nothing is noted. -/
theorem SameLinks.refl (g : Grammar) : SameLinks g g := ⟨rfl, rfl, rfl, rfl, rfl, fun _ => rfl⟩

/-- Notes that are made one after the other keep the symbols and what non-terminals list. -/
theorem SameLinks.trans {g'' : Grammar} (h : SameLinks g g') (h' : SameLinks g' g'') :
    SameLinks g g'' where
  rules_eq := h'.rules_eq.trans h.rules_eq
  terminals_eq := h'.terminals_eq.trans h.terminals_eq
  nonterminals_eq := h'.nonterminals_eq.trans h.nonterminals_eq
  displays_eq := h'.displays_eq.trans h.displays_eq
  mentions_eq := h'.mentions_eq.trans h.mentions_eq
  nonterminal_eq n := (h'.nonterminal_eq n).trans (h.nonterminal_eq n)

/-- To note a use changes no link from a non-terminal to its rules. -/
theorem sameLinks_noteUse {id : RuleId} {X : Symbol} (hok : noteUse id g X = .ok g') :
    SameLinks g g' := by
  cases X with
  | terminal t =>
    obtain ⟨terminals, hupdate, hok⟩ := bind_eq_ok.1 hok
    obtain rfl := Except.ok.inj hok
    obtain ⟨-, rfl⟩ := update_eq_ok.1 hupdate
    refine ⟨rfl, Array.size_modify, rfl, ?_, rfl, fun _ => rfl⟩
    exact map_toList_modify fun _ => rfl
  | nonterminal n =>
    obtain ⟨nonterminals, hupdate, hok⟩ := bind_eq_ok.1 hok
    obtain rfl := Except.ok.inj hok
    obtain ⟨-, rfl⟩ := update_eq_ok.1 hupdate
    refine ⟨rfl, rfl, Array.size_modify, rfl, map_toList_modify fun _ => rfl, fun k => ?_⟩
    simp only [Array.getElem?_modify]
    split
    · simp [Option.map_map, Function.comp_def]
    · rfl
  | epsilon =>
    obtain rfl := Except.ok.inj hok
    exact .refl g
  | endOfInput =>
    obtain rfl := Except.ok.inj hok
    exact .refl g

/-- To note all uses in a body changes no link from a non-terminal to its rules. -/
theorem sameLinks_noteUses {id : RuleId} {body : List Symbol}
    (hok : body.foldlM (noteUse id) g = .ok g') : SameLinks g g' := by
  refine foldlM_keeps (SameLinks g) (fun X _ now next hnow hnext => ?_) (.refl g) hok
  exact hnow.trans (sameLinks_noteUse hnext)

/-- The uses in a body can be noted if the body has symbols of the grammar only. -/
theorem exists_noteUses (id : RuleId) {body : List Symbol} (hbody : ∀ X ∈ body, X.In g) :
    ∃ g', body.foldlM (noteUse id) g = .ok g' := by
  have hall : ∃ g', body.foldlM (noteUse id) g = .ok g' ∧ SameLinks g g' := by
    refine foldlM_ok (fun _ now => SameLinks g now)
      (fun done X rest now hsplit hnow => ?_) (.refl g)
    have hX : X.In now := (hbody X (by simp [hsplit])).mono (Nat.le_of_eq hnow.terminals_eq.symm)
      (Nat.le_of_eq hnow.nonterminals_eq.symm)
    have hnote : ∃ next, noteUse id now X = .ok next := by
      cases X with
      | terminal t => exact ⟨_, bind_eq_ok.2 ⟨_, update_eq_ok.2 ⟨hX, rfl⟩, rfl⟩⟩
      | nonterminal n => exact ⟨_, bind_eq_ok.2 ⟨_, update_eq_ok.2 ⟨hX.2, rfl⟩, rfl⟩⟩
      | epsilon => exact absurd hX not_false
      | endOfInput => exact ⟨now, rfl⟩
    obtain ⟨next, hnext⟩ := hnote
    exact ⟨next, hnext, hnow.trans (sameLinks_noteUse hnext)⟩
  obtain ⟨g', hok, -⟩ := hall
  exact ⟨g', hok⟩

/-- What a new rule changes: it is the last rule, and its head lists it. -/
structure AddsRule (g : Grammar) (rule : Rule) (g' : Grammar) : Prop where
  rules_eq : g'.rules = g.rules.push rule
  terminals_eq : g'.terminals.size = g.terminals.size
  nonterminals_eq : g'.nonterminals.size = g.nonterminals.size
  displays_eq : g'.displays = g.displays
  mentions_eq : g'.mentions = g.mentions
  /-- Names stay, and the head lists the new rule. -/
  nonterminal_eq : ∀ n : NonterminalId, (g'.nonterminals[n]?).map (fun nt => (nt.name, nt.rules)) =
    (g.nonterminals[n]?).map fun nt =>
      (nt.name, if rule.head = n then pushUnique nt.rules g.rules.size else nt.rules)

/-- A rule that is added is the last one, and its head lists it. -/
theorem addsRule_of_addRule {rule : Rule} (hok : g.addRule bounds rule = .ok g') :
    AddsRule g rule g' := by
  obtain ⟨-, -, hok⟩ := bind_eq_ok.1 hok
  obtain ⟨headed, hhead, hok⟩ := bind_eq_ok.1 hok
  obtain ⟨noted, hnoted, hok⟩ := bind_eq_ok.1 hok
  have hlinks := sameLinks_noteUses hnoted
  obtain ⟨nonterminals, hupdate, hhead⟩ := bind_eq_ok.1 hhead
  obtain rfl := Except.ok.inj hok
  obtain rfl := Except.ok.inj hhead
  obtain ⟨-, rfl⟩ := update_eq_ok.1 hupdate
  refine ⟨by rw [hlinks.rules_eq], hlinks.terminals_eq, ?_, hlinks.displays_eq, ?_,
    fun n => ?_⟩
  · exact hlinks.nonterminals_eq.trans Array.size_modify
  · exact hlinks.mentions_eq.trans (map_toList_modify fun _ => rfl)
  · refine (hlinks.nonterminal_eq n).trans ?_
    simp only [Array.getElem?_modify]
    split
    · simp [Option.map_map, Function.comp_def]
    · rfl

/-- A rule over symbols of the grammar is added if there is room for it. -/
theorem exists_addRule (rule : Rule) (hhead : rule.head < g.nonterminals.size)
    (hbody : ∀ X ∈ rule.body, X.In g) : ∃ g', AddsRule g rule g' ∧ ∀ bounds : Bounds,
      g.addRule bounds rule = (bounds.allow .rules (g.rules.size + 1)).map fun _ => g' := by
  have hheaded : ∃ headed, g.noteHead g.rules.size rule.head = .ok headed ∧ headed.Covers g :=
    ⟨_, bind_eq_ok.2 ⟨_, update_eq_ok.2 ⟨hhead, rfl⟩, rfl⟩, Nat.le_refl _, by simp⟩
  obtain ⟨headed, hheaded, hcovers⟩ := hheaded
  have hin : ∀ X ∈ rule.body, X.In headed := fun X hX => (hbody X hX).mono hcovers.1 hcovers.2
  obtain ⟨noted, hnoted⟩ := exists_noteUses g.rules.size hin
  have hadd : ∀ bounds : Bounds, g.addRule bounds rule =
      (bounds.allow .rules (g.rules.size + 1)).map fun _ =>
        { noted with rules := noted.rules.push rule } := by
    intro bounds
    simp only [Grammar.addRule]
    cases bounds.allow .rules (g.rules.size + 1) with
    | error failure => rfl
    | ok room =>
      refine bind_eq_ok.2 ⟨room, rfl, bind_eq_ok.2 ⟨headed, hheaded, ?_⟩⟩
      exact bind_eq_ok.2 ⟨noted, hnoted, rfl⟩
  exact ⟨_, addsRule_of_addRule (hadd .unbounded), hadd⟩

end Links

/-- A grammar without rules refers to nothing. -/
theorem CrossReferenced.empty : CrossReferenced {} := by
  constructor <;> simp

/-- New terminals leave the references of a grammar intact. -/
theorem CrossReferenced.addTerminal {name : String} (h : g.CrossReferenced)
    (hok : g.addTerminal bounds name = .ok g') : g'.CrossReferenced := by
  obtain ⟨-, -, hok⟩ := bind_eq_ok.1 hok
  obtain rfl := Except.ok.inj hok
  refine ⟨fun hrule X hX => ?_, h.head_lt, h.mem_rules, h.rules_ascending⟩
  exact (h.body_in hrule X hX).mono (by simp) (Nat.le_refl _)

/-- A new non-terminal leaves the references of a grammar intact. It heads no rule yet. -/
theorem CrossReferenced.addNonterminal {name : String} {place : Location} (h : g.CrossReferenced)
    (hok : g.addNonterminal bounds name place = .ok g') : g'.CrossReferenced := by
  obtain ⟨-, -, hok⟩ := bind_eq_ok.1 hok
  obtain rfl := Except.ok.inj hok
  have hnew : ∀ id, ¬ g.Heads g.nonterminals.size id := by
    rintro id ⟨rule, hrule, hhead⟩
    have hlt := h.head_lt hrule
    rw [hhead] at hlt
    exact Nat.lt_irrefl _ hlt
  refine ⟨fun hrule X hX => ?_, fun hrule => ?_, fun {n nt} hnt id => ?_, fun {n nt} hnt => ?_⟩
  · exact (h.body_in hrule X hX).mono (Nat.le_refl _) (by simp)
  · exact Nat.lt_of_lt_of_le (h.head_lt hrule) (by simp)
  · simp only [Array.getElem?_push] at hnt
    split at hnt
    · rename_i hn
      obtain rfl := Option.some.inj hnt
      subst hn
      exact ⟨fun hid => absurd hid (by simp), fun hid => absurd hid (hnew id)⟩
    · exact h.mem_rules hnt id
  · simp only [Array.getElem?_push] at hnt
    split at hnt
    · obtain rfl := Option.some.inj hnt
      exact .nil
    · exact h.rules_ascending hnt

/-- A rule over symbols of the grammar keeps the references of the grammar intact. -/
theorem CrossReferenced.addRule {rule : Rule} (h : g.CrossReferenced)
    (hhead : rule.head < g.nonterminals.size) (hbody : ∀ X ∈ rule.body, X.In g)
    (hadds : AddsRule g rule g') : g'.CrossReferenced := by
  have hlists {n : NonterminalId} {nt' : Nonterminal} (hnt' : g'.nonterminals[n]? = some nt') :
      g'.Lists (·.head = n) nt'.rules := by
    have hn := hadds.nonterminal_eq n
    rw [hnt'] at hn
    obtain ⟨nt, hnt, heq⟩ := Option.map_eq_some_iff.1 hn.symm
    obtain ⟨-, hrules⟩ := Prod.mk.inj heq
    rw [← hrules]
    exact (h.lists hnt).push hadds.rules_eq
  refine ⟨fun {id r} hr X hX => ?_, fun {id r} hr => ?_, fun hnt' => (hlists hnt').mem_iff,
    fun hnt' => (hlists hnt').ascending⟩
  · refine Symbol.In.mono (g := g) ?_ (Nat.le_of_eq hadds.terminals_eq.symm)
      (Nat.le_of_eq hadds.nonterminals_eq.symm)
    rw [hadds.rules_eq, Array.getElem?_push] at hr
    split at hr
    · obtain rfl := Option.some.inj hr
      exact hbody X hX
    · exact h.body_in hr X hX
  · rw [hadds.nonterminals_eq]
    rw [hadds.rules_eq, Array.getElem?_push] at hr
    split at hr
    · obtain rfl := Option.some.inj hr
      exact hhead
    · exact h.head_lt hr

/-- A grammar after the first identifier of its source. The augmented start symbol has the reserved
name, which no identifier of the source has. -/
structure Started (options : ReadOptions) (g : Grammar) : Prop extends Linked g where
  start_name : (g.nonterminals[start]?).map (·.name) = some options.startName

/-- A further rule keeps the augmented rule and the reserved name. -/
theorem Started.addRule {rule : Rule} (h : g.Started options)
    (hhead : (Symbol.nonterminal rule.head).In g) (hbody : ∀ X ∈ rule.body, X.In g)
    (hok : g.addRule bounds rule = .ok g') : g'.Started options ∧ g'.Covers g := by
  have hadds := addsRule_of_addRule hok
  refine ⟨⟨⟨h.toCrossReferenced.addRule hhead.2 hbody hadds, ?_, fun {id r} hr hstart => ?_⟩, ?_⟩,
    Nat.le_of_eq hadds.terminals_eq.symm, Nat.le_of_eq hadds.nonterminals_eq.symm⟩
  · rw [hadds.rules_eq]
    exact getElem?_push_of_eq_some h.augmented
  · rw [hadds.rules_eq, Array.getElem?_push] at hr
    split at hr
    · obtain rfl := Option.some.inj hr
      exact absurd hstart hhead.1
    · exact h.head_start hr hstart
  · have hname := congrArg (Option.map Prod.fst) (hadds.nonterminal_eq start)
    simp only [Option.map_map, Function.comp_def] at hname
    exact hname.trans h.start_name

/-- What an identifier can stand for: a known non-terminal, the first one, which brings the
augmented rule with it, or a new one. -/
theorem internNonterminal_cases {name : String} {place : Location} {id : NonterminalId}
    (hok : g.internNonterminal options name place = .ok (id, g')) :
    name ≠ options.startName ∧
      ((g.findNonterminal? name = some id ∧ g' = g) ∨
        (g.nonterminals.isEmpty ∧ id = sourceStart ∧ ∃ g₁ g₂,
          g.addNonterminal options.bounds options.startName place = .ok g₁ ∧
          g₁.addNonterminal options.bounds name place = .ok g₂ ∧
          g₂.addRule options.bounds ⟨start, [.nonterminal sourceStart, .endOfInput]⟩ = .ok g') ∨
        (¬ g.nonterminals.isEmpty ∧ g.findNonterminal? name = none ∧ id = g.nonterminals.size ∧
          g.addNonterminal options.bounds name place = .ok g')) := by
  unfold internNonterminal at hok
  by_cases hname : name = options.startName
  · rw [if_pos hname] at hok
    cases hok
  · refine ⟨hname, ?_⟩
    rw [if_neg hname] at hok
    cases hfind : g.findNonterminal? name with
    | some known =>
      simp only [hfind] at hok
      obtain ⟨rfl, rfl⟩ := Prod.mk.inj (Except.ok.inj hok)
      exact .inl ⟨rfl, rfl⟩
    | none =>
      simp only [hfind] at hok
      by_cases hempty : g.nonterminals.isEmpty
      · rw [if_pos hempty] at hok
        obtain ⟨g₁, hg₁, hok⟩ := bind_eq_ok.1 hok
        obtain ⟨g₂, hg₂, hok⟩ := bind_eq_ok.1 hok
        obtain ⟨g₃, hg₃, hok⟩ := bind_eq_ok.1 hok
        obtain ⟨rfl, rfl⟩ := Prod.mk.inj (Except.ok.inj hok)
        exact .inr (.inl ⟨hempty, rfl, g₁, g₂, hg₁, hg₂, hg₃⟩)
      · rw [if_neg hempty] at hok
        obtain ⟨g₁, hg₁, hok⟩ := bind_eq_ok.1 hok
        obtain ⟨rfl, rfl⟩ := Prod.mk.inj (Except.ok.inj hok)
        exact .inr (.inr ⟨hempty, rfl, rfl, hg₁⟩)

/-- The grammar with one more non-terminal. -/
theorem addNonterminal_eq {name : String} {place : Location}
    (hok : g.addNonterminal bounds name place = .ok g') :
    g' = { g with nonterminals := g.nonterminals.push { name, firstUse := place } } := by
  obtain ⟨-, -, hok⟩ := bind_eq_ok.1 hok
  exact (Except.ok.inj hok).symm

/-- The first identifier of a source starts its grammar. -/
theorem started_of_first {name : String} {place : Location} {g₁ g₂ : Grammar}
    (hg₁ : addNonterminal {} options.bounds options.startName place = .ok g₁)
    (hg₂ : g₁.addNonterminal options.bounds name place = .ok g₂)
    (hok : g₂.addRule options.bounds ⟨start, [.nonterminal sourceStart, .endOfInput]⟩ = .ok g') :
    g'.Started options ∧ g'.nonterminals.size = 2 := by
  have hg₂eq := addNonterminal_eq hg₂
  rw [addNonterminal_eq hg₁] at hg₂eq
  have href := (CrossReferenced.empty.addNonterminal hg₁).addNonterminal hg₂
  have hadds := addsRule_of_addRule hok
  have hsize : g₂.nonterminals.size = 2 := by rw [hg₂eq]; rfl
  have hrules : g'.rules = #[⟨start, [.nonterminal sourceStart, .endOfInput]⟩] := by
    rw [hadds.rules_eq, hg₂eq]
    rfl
  have hbody : ∀ X ∈ [Symbol.nonterminal sourceStart, .endOfInput], X.In g₂ := by
    intro X hX
    simp only [List.mem_cons, List.not_mem_nil, or_false] at hX
    rcases hX with rfl | rfl
    · exact ⟨by decide, by rw [hsize]; decide⟩
    · trivial
  refine ⟨⟨⟨href.addRule (by rw [hsize]; decide) hbody hadds, by rw [hrules]; rfl, ?_⟩, ?_⟩,
    hadds.nonterminals_eq.trans hsize⟩
  · intro id rule hrule _
    have hlt : id < g'.rules.size := (Array.getElem?_eq_some_iff.1 hrule).1
    rw [hrules] at hlt
    exact Nat.lt_one_iff.1 hlt
  · have hname := congrArg (Option.map Prod.fst) (hadds.nonterminal_eq start)
    simp only [Option.map_map, Function.comp_def] at hname
    rw [hname, hg₂eq]
    rfl

/-- A new non-terminal keeps the augmented rule and the reserved name. -/
theorem Started.addNonterminal {name : String} {place : Location} (h : g.Started options)
    (hok : g.addNonterminal bounds name place = .ok g') :
    g'.Started options ∧ g'.Covers g ∧ g'.nonterminals.size = g.nonterminals.size + 1 := by
  have href := h.toCrossReferenced.addNonterminal hok
  obtain rfl := addNonterminal_eq hok
  refine ⟨⟨⟨href, h.augmented, h.head_start⟩, ?_⟩, ⟨Nat.le_refl _, by simp⟩, by simp⟩
  obtain ⟨nt, hnt, hname⟩ := Option.map_eq_some_iff.1 h.start_name
  rw [getElem?_push_of_eq_some hnt]
  exact congrArg some hname

/-- An identifier that is not reserved names a non-terminal other than the augmented start symbol,
and the grammar with it is started. -/
theorem internNonterminal_started {name : String} {place : Location} {id : NonterminalId}
    (h : g = {} ∨ g.Started options)
    (hok : g.internNonterminal options name place = .ok (id, g')) :
    g'.Started options ∧ (Symbol.nonterminal id).In g' ∧ g'.Covers g := by
  obtain ⟨hname, ⟨hfind, rfl⟩ | ⟨hempty, rfl, g₁, g₂, hg₁, hg₂, hrule⟩ |
    ⟨hempty, -, rfl, hadd⟩⟩ := internNonterminal_cases hok
  · obtain ⟨hlt, hfound, -⟩ := Array.findIdx?_eq_some_iff_getElem.1 hfind
    have hg : g'.Started options := by
      rcases h with rfl | h
      · simp at hlt
      · exact h
    refine ⟨hg, ⟨?_, hlt⟩, Nat.le_refl _, Nat.le_refl _⟩
    rintro rfl
    have hstart := hg.start_name
    rw [Array.getElem?_eq_getElem hlt, Option.map_some, eq_of_beq hfound] at hstart
    exact hname (Option.some.inj hstart)
  · rcases h with rfl | h
    · obtain ⟨hg, hsize⟩ := started_of_first hg₁ hg₂ hrule
      exact ⟨hg, ⟨by decide, by rw [hsize]; decide⟩, Nat.zero_le _, Nat.zero_le _⟩
    · obtain ⟨nt, hnt, -⟩ := Option.map_eq_some_iff.1 h.start_name
      rw [Array.isEmpty_iff.1 hempty] at hnt
      simp at hnt
  · have hg : g.Started options := h.resolve_left (by rintro rfl; exact hempty rfl)
    obtain ⟨hg', hcovers, hsize⟩ := hg.addNonterminal hadd
    refine ⟨hg', ⟨?_, by rw [hsize]; exact Nat.lt_succ_self _⟩, hcovers⟩
    intro hzero
    exact hempty (Array.isEmpty_iff.2 (Array.eq_empty_of_size_eq_zero hzero))

/-- What a quoted string can stand for: the end of input, a known terminal, or a new one. -/
theorem internTerminal_cases {quote : Quote} {text : String} {X : Symbol}
    (hok : g.internTerminal options quote text = .ok (X, g')) :
    (X = .endOfInput ∧ g' = g) ∨ ∃ name,
      ((∃ t, g.findTerminal? name = some t ∧ X = .terminal t ∧ g' = g) ∨
        (g.findTerminal? name = none ∧ X = .terminal g.terminals.size ∧
          g.addTerminal options.bounds name = .ok g')) := by
  unfold internTerminal at hok
  by_cases htext : text = endOfInputName
  · rw [if_pos htext] at hok
    obtain ⟨rfl, rfl⟩ := Prod.mk.inj (Except.ok.inj hok)
    exact .inl ⟨rfl, rfl⟩
  · rw [if_neg htext] at hok
    refine .inr ⟨if options.keepQuotes then quote.wrap text else text, ?_⟩
    generalize (if options.keepQuotes = true then quote.wrap text else text) = name at hok ⊢
    cases hfind : g.findTerminal? name with
    | some known =>
      simp only [hfind] at hok
      obtain ⟨rfl, rfl⟩ := Prod.mk.inj (Except.ok.inj hok)
      exact .inl ⟨known, rfl, rfl, rfl⟩
    | none =>
      simp only [hfind] at hok
      obtain ⟨g₁, hadd, hok⟩ := bind_eq_ok.1 hok
      obtain ⟨rfl, rfl⟩ := Prod.mk.inj (Except.ok.inj hok)
      exact .inr ⟨rfl, rfl, hadd⟩

/-- A quoted string names a symbol of the grammar with it. -/
theorem internTerminal_started {quote : Quote} {text : String} {X : Symbol}
    (h : g.Started options) (hok : g.internTerminal options quote text = .ok (X, g')) :
    g'.Started options ∧ X.In g' ∧ g'.Covers g := by
  obtain ⟨rfl, rfl⟩ | ⟨name, ⟨t, hfind, rfl, rfl⟩ | ⟨-, rfl, hadd⟩⟩ := internTerminal_cases hok
  · exact ⟨h, trivial, Nat.le_refl _, Nat.le_refl _⟩
  · obtain ⟨hlt, -, -⟩ := Array.findIdx?_eq_some_iff_getElem.1 hfind
    exact ⟨h, hlt, Nat.le_refl _, Nat.le_refl _⟩
  · have href := h.toCrossReferenced.addTerminal hadd
    obtain ⟨-, -, hadd⟩ := bind_eq_ok.1 hadd
    obtain rfl := Except.ok.inj hadd
    refine ⟨⟨⟨href, h.augmented, h.head_start⟩, h.start_name⟩, ?_, ?_, Nat.le_refl _⟩
    · simp [Symbol.In]
    · simp

end Grammar

namespace Reader

/-- A group fits a grammar if its head and the symbols read so far belong to the grammar. -/
def Group.Fits (g : Grammar) (group : Group) : Prop :=
  (Symbol.nonterminal group.head).In g ∧ ∀ X ∈ group.read, X.In g

/-- A group still fits when the grammar grows. -/
theorem Group.Fits.mono {g g' : Grammar} {group : Group} (h : group.Fits g) (hg : g'.Covers g) :
    group.Fits g' :=
  ⟨h.1.mono hg.1 hg.2, fun X hX => (h.2 X hX).mono hg.1 hg.2⟩

/-- A phase fits a grammar if its group does. -/
def Phase.Fits (g : Grammar) : Phase → Prop
  | .head => True
  | .arrow group | .alternative group => group.Fits g

/-- A reader before its first identifier, or one whose grammar is started and has the symbols of
the group that is being read. -/
def Sound (options : ReadOptions) (reader : Reader) : Prop :=
  reader = {} ∨ reader.grammar.Started options ∧ reader.phase.Fits reader.grammar

variable {options : ReadOptions} {g g' : Grammar} {group group' : Group} {place : Location}
  {reader reader' : Reader} {token : Token}

/-- The end of an alternative adds a rule of the group, which goes on with an empty one. -/
theorem endAlternative_started (h : g.Started options) (hgroup : group.Fits g)
    (hok : endAlternative options g group place = .ok (g', group')) :
    g'.Started options ∧ group'.Fits g' := by
  unfold endAlternative at hok
  by_cases hempty : (group.read.isEmpty && group.sawEmpty) = true
  · rw [if_pos hempty] at hok
    cases hok
  · rw [if_neg hempty] at hok
    obtain ⟨g₁, hadd, hok⟩ := bind_eq_ok.1 hok
    obtain ⟨rfl, rfl⟩ := Prod.mk.inj (Except.ok.inj hok)
    have hbody : ∀ X ∈ group.read.reverse, X.In g :=
      fun X hX => hgroup.2 X (List.mem_reverse.1 hX)
    obtain ⟨hg, hcovers⟩ := h.addRule hgroup.1 hbody hadd
    exact ⟨hg, hgroup.1.mono hcovers.1 hcovers.2, by simp⟩

/-- A token where a head is expected keeps a reader sound. -/
theorem readHead_sound (h : g = {} ∨ g.Started options)
    (hok : readHead options g token = .ok reader') : reader'.Sound options := by
  unfold readHead at hok
  split at hok
  · obtain ⟨⟨head, g₁⟩, hintern, hok⟩ := bind_eq_ok.1 hok
    obtain rfl := Except.ok.inj hok
    obtain ⟨hg, hhead, -⟩ := Grammar.internNonterminal_started h hintern
    exact .inr ⟨hg, hhead, by simp⟩
  · cases hok
  · cases hok

/-- A token where an arrow is expected keeps a reader sound. -/
theorem readArrow_sound (h : g.Started options) (hgroup : group.Fits g)
    (hok : readArrow g group token = .ok reader') : reader'.Sound options := by
  unfold readArrow at hok
  split at hok
  · obtain rfl := Except.ok.inj hok
    exact .inr ⟨h, hgroup⟩
  · cases hok

/-- A token inside an alternative keeps a reader sound. -/
theorem readAlternative_sound (h : g.Started options) (hgroup : group.Fits g)
    (hok : readAlternative options g group token = .ok reader') : reader'.Sound options := by
  have hread {X : Symbol} {g₁ : Grammar} (hg₁ : g₁.Started options) (hX : X.In g₁)
      (hcovers : g₁.Covers g) :
      Sound options ⟨g₁, .alternative { group with read := X :: group.read }⟩ := by
    have hfits := hgroup.mono hcovers
    refine .inr ⟨hg₁, hfits.1, fun Y hY => ?_⟩
    rcases List.mem_cons.1 hY with rfl | hY
    · exact hX
    · exact hfits.2 Y hY
  unfold readAlternative at hok
  split at hok
  · obtain ⟨⟨id, g₁⟩, hintern, hok⟩ := bind_eq_ok.1 hok
    obtain rfl := Except.ok.inj hok
    obtain ⟨hg₁, hX, hcovers⟩ := Grammar.internNonterminal_started (.inr h) hintern
    exact hread hg₁ hX hcovers
  · obtain ⟨⟨X, g₁⟩, hintern, hok⟩ := bind_eq_ok.1 hok
    obtain rfl := Except.ok.inj hok
    obtain ⟨hg₁, hX, hcovers⟩ := Grammar.internTerminal_started h hintern
    exact hread hg₁ hX hcovers
  · obtain ⟨⟨g₁, group₁⟩, hend, hok⟩ := bind_eq_ok.1 hok
    obtain rfl := Except.ok.inj hok
    exact .inr (endAlternative_started h hgroup hend)
  · obtain ⟨⟨g₁, group₁⟩, hend, hok⟩ := bind_eq_ok.1 hok
    obtain rfl := Except.ok.inj hok
    exact .inr ⟨(endAlternative_started h hgroup hend).1, trivial⟩
  · cases hok

/-- Every token keeps a reader sound. -/
theorem Sound.read (h : reader.Sound options) (hok : reader.read options token = .ok reader') :
    reader'.Sound options := by
  unfold Reader.read at hok
  split at hok
  · cases hok
  · refine readHead_sound ?_ hok
    rcases h with rfl | ⟨hg, -⟩
    · exact .inl rfl
    · exact .inr hg
  · rename_i hphase _
    rcases h with rfl | ⟨hg, hfits⟩
    · cases hphase
    · rw [hphase] at hfits
      exact readArrow_sound hg hfits hok
  · rename_i hphase _
    rcases h with rfl | ⟨hg, hfits⟩
    · cases hphase
    · rw [hphase] at hfits
      exact readAlternative_sound hg hfits hok

/-- The grammar of a sound reader at the end of its source is well formed. -/
theorem Sound.finish (h : reader.Sound options) (hok : reader.finish place = .ok g) :
    g.WellFormed := by
  unfold Reader.finish at hok
  split at hok
  · split at hok
    · cases hok
    · rename_i hsome
      split at hok
      · cases hok
      · rename_i hdefined
        obtain rfl := Except.ok.inj hok
        rcases h with rfl | ⟨hg, -⟩
        · exact absurd rfl hsome
        · refine ⟨hg.toLinked, fun {n nt} hnt hrules => ?_⟩
          have hmem := Array.find?_eq_none.1 hdefined nt (Array.mem_of_getElem? hnt)
          exact hmem (by rw [hrules]; rfl)
  · cases hok

/-- Tokens read by a sound reader spell a well-formed grammar. -/
theorem Sound.readAll {tokens : List Token} (h : reader.Sound options)
    (hok : reader.readAll options tokens = .ok g) : g.WellFormed := by
  induction tokens generalizing reader with
  | nil => exact h.finish hok
  | cons token tokens ih =>
    rw [Reader.readAll] at hok
    split at hok
    · exact h.finish hok
    · obtain ⟨next, hread, hok⟩ := bind_eq_ok.1 hok
      exact ih (h.read hread) hok

end Reader

/-- Every grammar that tokens spell is well formed. -/
theorem Grammar.wellFormed_ofTokens {options : ReadOptions} {tokens : List Token} {g : Grammar}
    (hok : Grammar.ofTokens options tokens = .ok g) : g.WellFormed :=
  Reader.Sound.readAll (.inl rfl) hok

/-- Every grammar that a source spells is well formed. -/
theorem Grammar.wellFormed_ofSource {options : ReadOptions} {source : String} {g : Grammar}
    (hok : Grammar.ofSource options source = .ok g) : g.WellFormed :=
  wellFormed_ofTokens hok

end ShiftReduce
