import ShiftReduce.Proofs.Dfa.Collection
import ShiftReduce.Proofs.Table.Total

/-!
# Accessing symbols and the accepting state

The items that a move brings to its target have just passed the symbol of the move. So all moves
into a state are on one symbol, the accessing symbol of the state, and no move enters the start
state. An item of the augmented rule can be traced back along a walk to the start state, where the
rule begins. For this reason one state only has the complete item of the augmented rule, and only
one string leads to it.
-/

namespace ShiftReduce

namespace Item

variable {g : Grammar} {item : Item} {X Y : Symbol}

/-- The symbol stands before the dot. -/
def Passed (g : Grammar) (item : Item) (X : Symbol) : Prop :=
  ∃ rule, g.rules[item.rule]? = some rule ∧ 0 < item.dot ∧ rule.body[item.dot - 1]? = some X

/-- An item that is advanced has passed the symbol it waited for. -/
theorem Awaits.passed (h : item.Awaits g X) : item.advance.Passed g X := by
  obtain ⟨rule, hrule, hX⟩ := h
  exact ⟨rule, hrule, Nat.succ_pos _, hX⟩

/-- At most one symbol stands before a dot. -/
theorem Passed.unique (hX : item.Passed g X) (hY : item.Passed g Y) : X = Y := by
  obtain ⟨rule, hrule, -, hX⟩ := hX
  obtain ⟨rule', hrule', -, hY⟩ := hY
  obtain rfl := Option.some.inj (hrule.symm.trans hrule')
  exact Option.some.inj (hX.symm.trans hY)

end Item

namespace Dfa

variable {g : Grammar} {items : ItemTable} {dfa : Dfa} {r s t : StateId} {X Y : Symbol}
  {symbols : List Symbol} {item : Item}

/-- A walk along a string with a last symbol ends with a move on this symbol. -/
theorem exists_last_move (hwalk : dfa.walk? r (symbols ++ [X]) = some t) :
    ∃ s, dfa.walk? r symbols = some s ∧ dfa.move? s X = some t := by
  have hsplit : dfa.walk? r (symbols ++ [X]) =
      (dfa.walk? r symbols).bind (dfa.walk? · [X]) := List.foldlM_append
  rw [hsplit, Option.bind_eq_some_iff] at hwalk
  obtain ⟨s, hfront, hlast⟩ := hwalk
  rw [walk?_cons, Option.bind_eq_some_iff] at hlast
  obtain ⟨_, hmove, hend⟩ := hlast
  obtain rfl := Option.some.inj hend
  exact ⟨s, hfront, hmove⟩

namespace Canonical

/-- The items that a move brings to its target have passed its symbol. -/
theorem passed_of_move (h : dfa.Canonical g items) (hmove : dfa.move? s X = some t)
    (hitem : item ∈ dfa.itemsAt items t) (hdot : 0 < item.dot) : item.Passed g X := by
  obtain ⟨before, -, hawaits, rfl⟩ := h.exists_of_dot_pos hmove hitem hdot
  exact hawaits.passed

/-- A move brings an item to its target. -/
theorem exists_dot_pos_of_move (h : dfa.Canonical g items) (hmove : dfa.move? s X = some t) :
    ∃ item ∈ dfa.itemsAt items t, 0 < item.dot := by
  obtain ⟨item, hitem, hawaits⟩ := h.exists_move_iff.1 ⟨t, hmove⟩
  exact ⟨item.advance, h.advance_mem hmove hitem hawaits, Nat.succ_pos _⟩

/-- All moves into a state are on one symbol. -/
theorem symbol_unique (h : dfa.Canonical g items) (hmove : dfa.move? r X = some t)
    (hmove' : dfa.move? s Y = some t) : X = Y := by
  obtain ⟨item, hitem, hdot⟩ := h.exists_dot_pos_of_move hmove
  exact (h.passed_of_move hmove hitem hdot).unique (h.passed_of_move hmove' hitem hdot)

/-- Only the empty string leads to the start state. -/
theorem eq_nil_of_walk_start (h : dfa.Canonical g items)
    (hwalk : dfa.walk? start symbols = some start) : symbols = [] := by
  rcases List.eq_nil_or_concat symbols with rfl | ⟨front, X, rfl⟩
  · rfl
  · rw [List.concat_eq_append] at hwalk
    obtain ⟨s, -, hmove⟩ := exists_last_move hwalk
    exact absurd rfl (h.ne_start_of_move hmove)

/-- A walk to an item of the augmented rule reads the body of the rule up to the dot. -/
theorem eq_take_of_walk {d : Nat} {rule : Rule} (h : dfa.Canonical g items) (hg : g.Linked)
    (hrule : g.rules[augmentedRule]? = some rule) (hwalk : dfa.walk? start symbols = some s)
    (hitem : (⟨augmentedRule, d⟩ : Item) ∈ dfa.itemsAt items s) : symbols = rule.body.take d := by
  -- Each step back along the walk moves the dot one symbol back.
  induction d generalizing symbols s with
  | zero =>
    obtain rfl := h.eq_start_of_mem hg hitem
    rw [h.eq_nil_of_walk_start hwalk, List.take_zero]
  | succ d ih =>
    rcases List.eq_nil_or_concat symbols with rfl | ⟨front, X, rfl⟩
    · obtain rfl := Option.some.inj hwalk
      exact absurd (h.dot_eq_zero_of_mem_start hitem) (Nat.succ_ne_zero d)
    · rw [List.concat_eq_append] at hwalk ⊢
      obtain ⟨r, hfront, hmove⟩ := exists_last_move hwalk
      obtain ⟨⟨_, _⟩, hbefore, ⟨rule', hrule', hX⟩, heq⟩ :=
        h.exists_of_dot_pos hmove hitem (Nat.succ_pos d)
      cases heq
      obtain rfl := Option.some.inj (hrule.symm.trans hrule')
      obtain ⟨hlt, rfl⟩ := List.getElem?_eq_some_iff.1 hX
      rw [ih hfront hbefore, List.take_append_getElem hlt]

/-- The augmented rule can be read from the start state to its end. -/
theorem exists_accepting (h : dfa.Canonical g items) (hg : g.Linked) :
    ∃ r accepting, dfa.move? start (.nonterminal Grammar.sourceStart) = some r ∧
      dfa.move? r .endOfInput = some accepting ∧
      (⟨augmentedRule, 2⟩ : Item) ∈ dfa.itemsAt items accepting := by
  have hstart : (⟨augmentedRule, 0⟩ : Item) ∈ dfa.itemsAt items start := by
    rw [h.itemsAt_start]
    exact Grammar.subset_closure g _ (Set.mem_singleton _)
  have hfirst : Item.Awaits g ⟨augmentedRule, 0⟩ (.nonterminal Grammar.sourceStart) :=
    ⟨_, hg.augmented, rfl⟩
  have hsecond : Item.Awaits g ⟨augmentedRule, 1⟩ .endOfInput := ⟨_, hg.augmented, rfl⟩
  obtain ⟨r, hmove⟩ := h.exists_move_iff.2 ⟨_, hstart, hfirst⟩
  have hmiddle := h.advance_mem hmove hstart hfirst
  obtain ⟨accepting, hmove'⟩ := h.exists_move_iff.2 ⟨_, hmiddle, hsecond⟩
  exact ⟨r, accepting, hmove, hmove', h.advance_mem hmove' hmiddle hsecond⟩

end Canonical

/-- Each state but the start state has a symbol of its own, on which all transitions enter it. -/
structure Accessed (g : Grammar) (items : ItemTable) (dfa : Dfa) : Prop where
  /-- No transition enters the start state. -/
  target_ne_start : ∀ edge ∈ dfa.edges, edge.target ≠ start
  symbol_eq : ∀ edge ∈ dfa.edges, ∀ edge' ∈ dfa.edges, edge.target = edge'.target →
    edge.symbol = edge'.symbol
  /-- The symbol stands before the dot of the items that have a symbol there. -/
  passed : ∀ edge ∈ dfa.edges, ∀ item ∈ dfa.itemsAt items edge.target, 0 < item.dot →
    item.Passed g edge.symbol
  /-- Other states than the start state have such items. -/
  exists_dot_pos : ∀ s < dfa.states.size, s ≠ start → ∃ item ∈ dfa.itemsAt items s, 0 < item.dot

/-- The state is the one in which the augmented rule is complete. -/
structure AcceptsIn (items : ItemTable) (dfa : Dfa) (accepting : StateId) : Prop where
  mem_iff : ∀ s, (⟨augmentedRule, 2⟩ : Item) ∈ dfa.itemsAt items s ↔ s = accepting
  moves : ∃ r, dfa.move? start (.nonterminal Grammar.sourceStart) = some r ∧
    dfa.move? r .endOfInput = some accepting
  walk_iff : ∀ symbols, dfa.walk? start symbols = some accepting ↔
    symbols = [.nonterminal Grammar.sourceStart, .endOfInput]

/-- In the canonical collection each state but the start state has a symbol of its own. -/
theorem Canonical.accessed (h : dfa.Canonical g items) : dfa.Accessed g items := by
  have hmoves {edge : Edge} (hedge : edge ∈ dfa.edges) :
      dfa.move? edge.source edge.symbol = some edge.target := h.move?_eq_some_iff.2 hedge
  refine ⟨fun edge hedge => h.ne_start_of_move (hmoves hedge), ?_, ?_, fun s hs hstart => ?_⟩
  · intro edge hedge edge' hedge' heq
    have hmove := hmoves hedge'
    rw [← heq] at hmove
    exact h.symbol_unique (hmoves hedge) hmove
  · intro edge hedge item hitem hdot
    exact h.passed_of_move (hmoves hedge) hitem hdot
  · obtain ⟨r, X, hmove, -⟩ := h.exists_move_to hs hstart
    exact h.exists_dot_pos_of_move hmove

/-- One state has the complete item of the augmented rule. -/
theorem Canonical.exists_acceptsIn (h : dfa.Canonical g items) (hg : g.Linked) :
    ∃ accepting, dfa.AcceptsIn items accepting := by
  obtain ⟨r, accepting, hmove, hmove', hitem⟩ := h.exists_accepting hg
  have hwalk : dfa.walk? start [.nonterminal Grammar.sourceStart, .endOfInput] =
      some accepting := by
    rw [walk?_cons, hmove, Option.bind_some, walk?_cons, hmove']
    rfl
  have hsymbols {s : StateId} {symbols : List Symbol} (hs : dfa.walk? start symbols = some s)
      (hcomplete : (⟨augmentedRule, 2⟩ : Item) ∈ dfa.itemsAt items s) :
      symbols = [.nonterminal Grammar.sourceStart, .endOfInput] :=
    h.eq_take_of_walk hg hg.augmented hs hcomplete
  refine ⟨accepting, fun s => ⟨fun hcomplete => ?_, ?_⟩, ⟨r, hmove, hmove'⟩, fun symbols => ?_⟩
  · have ⟨state, hstate, _⟩ := hcomplete
    obtain ⟨symbols, hs⟩ := h.exists_walk_to (Array.getElem?_eq_some_iff.1 hstate).1
    rw [hsymbols hs hcomplete, hwalk] at hs
    exact (Option.some.inj hs).symm
  · rintro rfl
    exact hitem
  · constructor
    · exact fun hs => hsymbols hs hitem
    · rintro rfl
      exact hwalk

end Dfa

/-- A table accepts in the row of the state in which the augmented rule is complete, and in no
other. -/
theorem Table.Drives.accepts_iff {g : Grammar} {items : ItemTable} {dfa : Dfa} {table : Table}
    {allowed : RuleId → Except Failure (List Symbol)} {accepting s : StateId}
    (h : table.Drives g items dfa allowed) (hg : g.Linked) (hdfa : dfa.AcceptsIn items accepting)
    (hallows : Allows allowed augmentedRule .endOfInput) :
    (∃ X, .accept ∈ table.cell s X) ↔ s = accepting := by
  simp only [h.accept_iff, ← hdfa.mem_iff s]
  constructor
  · rintro ⟨X, ⟨⟨_, _⟩, hitem, ⟨rule, hrule, rfl⟩, rfl⟩, -⟩
    obtain rfl := Option.some.inj (hg.augmented.symm.trans hrule)
    exact hitem
  · intro hitem
    exact ⟨.endOfInput, ⟨_, hitem, ⟨_, hg.augmented, rfl⟩, rfl⟩, hallows⟩

namespace Dfa

/-- For a grammar that was read and a table of some of its items, what is built without bounds has
an accessing symbol for each state but the start state, and one accepting state. Only the first
non-terminal of the source with the end of input after it leads to the accepting state, and the
LR(0) and the SLR(1) table accept in its row only. -/
theorem accessing_symbols {options : ReadOptions} {tokens : List Token} {g : Grammar}
    {table : ItemTable} (hread : Grammar.ofTokens options tokens = .ok g) (hvalid : table.Valid g)
    (hbounds : table.bounds = .unbounded) :
    ∃ dfa items, build g .unbounded table = .ok dfa items ∧ dfa.Accessed g items ∧
      ∃ accepting, dfa.AcceptsIn items accepting ∧
        (∃ lr0, Table.lr0 g items dfa = .ok lr0 ∧
          ∀ s, (∃ X, .accept ∈ lr0.cell s X) ↔ s = accepting) ∧
        ∃ sets slr1, Lookahead.compute g = .ok sets ∧ Table.slr1 g items dfa sets = .ok slr1 ∧
          ∀ s, (∃ X, .accept ∈ slr1.cell s X) ↔ s = accepting := by
  have hg := Grammar.wellFormed_ofTokens hread
  obtain ⟨dfa, items, hdfa, -, hcanonical⟩ := (build_meets hg hvalid).exists_ok hbounds
  obtain ⟨accepting, haccepts⟩ := hcanonical.exists_acceptsIn hg.toLinked
  obtain ⟨sets, hsets, hclosed⟩ := Lookahead.compute_ok hg.toLinked
  obtain ⟨lr0, hlr0, -⟩ := Table.exists_lr0 hg.toCrossReferenced hcanonical
  obtain ⟨slr1, hslr1, -⟩ := Table.exists_slr1 hg.toCrossReferenced hcanonical hclosed
  refine ⟨dfa, items, hdfa, hcanonical.accessed, accepting, haccepts, ⟨lr0, hlr0, fun s => ?_⟩,
    sets, slr1, hsets, hslr1, fun s => ?_⟩
  · refine (Table.drives_of_lr0 hcanonical hlr0).accepts_iff hg.toLinked haccepts ?_
    exact Table.allows_inputs.2 ⟨rfl, _, rfl⟩
  · refine (Table.drives_of_slr1 hcanonical hslr1).accepts_iff hg.toLinked haccepts ?_
    rw [Table.allows_followInputs, if_pos rfl]

/-- For the rules `S -> 'a' S '$' |`, in which the end of input stands after `S` in a body too, and
a table that has the item `S -> 'a' S . '$'` already, the string `'a' S $` also leads to a state,
but not to the accepting one. -/
theorem accessing_symbols_of_inner_end :
    ∃ g dfa items accepting s, Grammar.ofSource {} "S -> 'a' S '$' | ;" = .ok g ∧
      build g .unbounded { items := #[⟨1, 2⟩] } = .ok dfa items ∧ dfa.Accessed g items ∧
      dfa.AcceptsIn items accepting ∧
      dfa.walk? start [.terminal 0, .nonterminal 1, .endOfInput] = some s ∧ s ≠ accepting := by
  have hsource : (Grammar.ofSource {} "S -> 'a' S '$' | ;").toOption.map (fun g => (g.rules[1]?,
      match build g .unbounded { items := #[⟨1, 2⟩] } with
      | .ok dfa _ => dfa.walk? start [.terminal 0, .nonterminal 1, .endOfInput]
      | .error _ _ => none)) =
      some (some ⟨1, [.terminal 0, .nonterminal 1, .endOfInput]⟩, some 5) := by
    decide +kernel
  obtain ⟨g, hok, hparts⟩ := Option.map_eq_some_iff.1 hsource
  obtain ⟨hrule, hwalk⟩ := Prod.mk.inj hparts
  have hread := eq_ok_of_toOption hok
  have hvalid : ItemTable.Valid g { items := #[⟨1, 2⟩] } := by
    refine ⟨by simp, fun item hitem => ?_⟩
    obtain rfl := Array.mem_singleton.1 hitem
    exact ⟨_, hrule, by decide⟩
  obtain ⟨dfa, items, hdfa, haccessed, accepting, haccepts, -⟩ :=
    accessing_symbols hread hvalid rfl
  simp only [hdfa] at hwalk
  refine ⟨g, dfa, items, accepting, 5, hread, hdfa, haccessed, haccepts, hwalk, ?_⟩
  rintro rfl
  have hsymbols := (haccepts.walk_iff _).1 hwalk
  simp at hsymbols

end Dfa

end ShiftReduce
