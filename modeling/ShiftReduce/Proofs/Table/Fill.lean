import ShiftReduce.Proofs.Table.Cells

/-!
# What filled tables hold

A table that was filled from the canonical collection shifts and goes to where the automaton moves,
and reduces where an item is complete and the rule allows the symbol. A table of this kind is said
to drive the machine along the automaton. Both the LR(0) and the SLR(1) table do.
-/

namespace ShiftReduce

namespace Table

variable {g : Grammar} {items : ItemTable} {dfa : Dfa} {kind : TableKind}
  {allowed : RuleId → Except Failure (List Symbol)} {table after : Table} {s : Nat} {X : Symbol}
  {action : Action}

/-- The rule may be ended on the symbol. -/
def Allows (allowed : RuleId → Except Failure (List Symbol)) (rule : RuleId) (X : Symbol) : Prop :=
  ∃ symbols, allowed rule = .ok symbols ∧ X ∈ symbols

/-- A table with the moves of an automaton, and with the reductions of complete items on the symbols
that their rules allow. -/
structure Drives (g : Grammar) (items : ItemTable) (dfa : Dfa)
    (allowed : RuleId → Except Failure (List Symbol)) (table : Table) : Prop where
  /-- Moves on input symbols are shifts. -/
  shift_iff : ∀ {s t : Nat} {X : Symbol},
    .shift t ∈ table.cell s X ↔ X.isInput = true ∧ dfa.move? s X = some t
  /-- Moves on non-terminals are gotos. -/
  goto_iff : ∀ {s t : Nat} {X : Symbol},
    .goto t ∈ table.cell s X ↔ X.isNonterminal = true ∧ dfa.move? s X = some t
  /-- Complete items reduce, except that of the augmented rule. -/
  reduce_iff : ∀ {s r : Nat} {X : Symbol}, .reduce r ∈ table.cell s X ↔ r ≠ augmentedRule ∧
    (∃ item ∈ dfa.itemsAt items s, item.Complete g ∧ item.rule = r) ∧ Allows allowed r X
  /-- The complete item of the augmented rule accepts. -/
  accept_iff : ∀ {s : Nat} {X : Symbol}, .accept ∈ table.cell s X ↔
    (∃ item ∈ dfa.itemsAt items s, item.Complete g ∧ item.rule = augmentedRule) ∧
      Allows allowed augmentedRule X
  /-- Rules are ended on input symbols only. -/
  allowed_input : ∀ {r : RuleId} {X : Symbol}, Allows allowed r X → X.isInput = true
  /-- No cell has an action twice. -/
  nodup : ∀ s X, (table.cell s X).Nodup

/-- The entry of a transition. -/
def edgeEntries (edge : Edge) : List Entry :=
  match edgeAction edge with
  | .ok action => [⟨edge.source, edge.symbol, action⟩]
  | .error _ => []

/-- The entries of an item in a state. -/
def itemEntries (g : Grammar) (items : ItemTable)
    (allowed : RuleId → Except Failure (List Symbol)) (s : StateId) (id : ItemId) : List Entry :=
  match items.get id with
  | .ok item =>
    match item.isReduction g, allowed item.rule with
    | .ok true, .ok symbols => symbols.map (⟨s, ·, reduction item.rule⟩)
    | _, _ => []
  | .error _ => []

/-- All entries of a filled table: those of the transitions, then those of the items. -/
def entries (g : Grammar) (items : ItemTable) (dfa : Dfa)
    (allowed : RuleId → Except Failure (List Symbol)) : List Entry :=
  dfa.edges.toList.flatMap edgeEntries ++ dfa.states.toList.zipIdx.flatMap fun state =>
    state.1.items.ids.flatMap (itemEntries g items allowed state.2)

/-- A transition writes its action at its state and symbol. -/
theorem writes_of_addEdge {edge : Edge} (hok : table.addEdge edge = .ok after) :
    table.Writes (edgeEntries edge) after := by
  obtain ⟨action, haction, hadd⟩ := bind_eq_ok.1 hok
  simp only [edgeEntries, haction]
  exact bind_eq_ok.2 ⟨after, hadd, rfl⟩

/-- An action is written at each of several symbols. -/
theorem writes_of_addOn {symbols : List Symbol} (hok : table.addOn s action symbols = .ok after) :
    table.Writes (symbols.map (⟨s, ·, action⟩)) after := by
  unfold Writes
  rw [List.foldlM_map]
  exact hok

/-- An item writes a reduction at each symbol on which its rule may be ended, if it is complete. -/
theorem writes_of_addItem {id : ItemId} (hok : addItem g items allowed s table id = .ok after) :
    table.Writes (itemEntries g items allowed s id) after := by
  obtain ⟨item, hitem, hok⟩ := bind_eq_ok.1 hok
  obtain ⟨done, hdone, hok⟩ := bind_eq_ok.1 hok
  simp only [itemEntries, hitem, hdone]
  cases done with
  | false =>
    obtain rfl := Except.ok.inj hok
    exact writes_nil table
  | true =>
    obtain ⟨symbols, hsymbols, hok⟩ := bind_eq_ok.1 hok
    simp only [hsymbols]
    exact writes_of_addOn hok

/-- To fill a table is to write its entries into the empty one. -/
theorem writes_of_fill (hok : fill kind g items dfa allowed = .ok table) :
    (empty kind (shapeOf g dfa)).Writes (entries g items dfa allowed) table := by
  obtain ⟨middle, hedges, hstates⟩ := bind_eq_ok.1 hok
  refine writes_append (writes_of_foldlM (fun _ _ _ _ => writes_of_addEdge) hedges)
    (writes_of_foldlM (fun _ _ _ _ hstate => ?_) hstates)
  exact writes_of_foldlM (fun _ _ _ _ => writes_of_addItem) hstate

/-- The entries of a cell that come from transitions. -/
theorem mem_edgeEntries {edge : Edge} : (⟨s, X, action⟩ : Entry) ∈ edgeEntries edge ↔
    edgeAction edge = .ok action ∧ edge.source = s ∧ edge.symbol = X := by
  unfold edgeEntries
  cases haction : edgeAction edge with
  | error failure => simp
  | ok action' =>
    simp only [List.mem_singleton, Entry.mk.injEq, Except.ok.injEq]
    constructor
    · rintro ⟨rfl, rfl, rfl⟩
      exact ⟨rfl, rfl, rfl⟩
    · rintro ⟨rfl, rfl, rfl⟩
      exact ⟨rfl, rfl, rfl⟩

/-- The entries of a cell that come from an item of the state. -/
theorem mem_itemEntries {item : Item} {id : ItemId} {s' : Nat} (hin : item.In g)
    (hid : items.items[id]? = some item) :
    (⟨s, X, action⟩ : Entry) ∈ itemEntries g items allowed s' id ↔
      s = s' ∧ item.Complete g ∧ action = reduction item.rule ∧ Allows allowed item.rule X := by
  obtain ⟨done, hdone, hcomplete⟩ := hin.isReduction_eq
  unfold itemEntries Allows
  simp only [ItemTable.get_eq hid, hdone]
  cases done with
  | false =>
    have hnot : ¬ item.Complete g := fun h => Bool.false_ne_true (hcomplete.2 h)
    simp [hnot]
  | true =>
    cases hsymbols : allowed item.rule with
    | error failure => simp
    | ok symbols =>
      simp only [List.mem_map, Entry.mk.injEq, hcomplete.1, true_and, Except.ok.injEq,
        exists_eq_left']
      constructor
      · rintro ⟨Y, hY, rfl, rfl, rfl⟩
        exact ⟨rfl, rfl, hY⟩
      · rintro ⟨rfl, rfl, hX⟩
        exact ⟨X, hX, rfl, rfl, rfl⟩

/-- The entries of all transitions for a cell: the move of the state. -/
theorem mem_edges_flatMap (h : dfa.Canonical g items) :
    (⟨s, X, action⟩ : Entry) ∈ dfa.edges.toList.flatMap edgeEntries ↔
      ∃ t, dfa.move? s X = some t ∧ edgeAction ⟨s, X, t⟩ = .ok action := by
  rw [List.mem_flatMap]
  constructor
  · rintro ⟨⟨_, _, t⟩, hedge, hmem⟩
    obtain ⟨haction, rfl, rfl⟩ := mem_edgeEntries.1 hmem
    exact ⟨t, h.move?_eq_some_iff.2 (Array.mem_toList_iff.1 hedge), haction⟩
  · rintro ⟨t, hmove, haction⟩
    refine ⟨⟨s, X, t⟩, Array.mem_toList_iff.2 (h.move?_eq_some_iff.1 hmove), ?_⟩
    exact mem_edgeEntries.2 ⟨haction, rfl, rfl⟩

/-- The entries of a cell: the moves of the state and the reductions of its complete items. -/
theorem mem_entries (h : dfa.Canonical g items) :
    (⟨s, X, action⟩ : Entry) ∈ entries g items dfa allowed ↔
      (∃ t, dfa.move? s X = some t ∧ edgeAction ⟨s, X, t⟩ = .ok action) ∨
      ∃ item ∈ dfa.itemsAt items s, item.Complete g ∧ action = reduction item.rule ∧
        Allows allowed item.rule X := by
  unfold entries
  rw [List.mem_append, mem_edges_flatMap h, List.mem_flatMap]
  refine or_congr_right ?_
  constructor
  · rintro ⟨⟨state, s'⟩, hstate, hmem⟩
    rw [List.mem_zipIdx_iff_getElem?, Array.getElem?_toList] at hstate
    obtain ⟨id, hid, hmem⟩ := List.mem_flatMap.1 hmem
    obtain ⟨item, hitem⟩ := (h.within hstate).exists_item hid
    obtain ⟨rfl, hrest⟩ := (mem_itemEntries (h.valid.in_of_getElem? hitem) hitem).1 hmem
    exact ⟨item, ⟨state, hstate, id, hid, hitem⟩, hrest⟩
  · rintro ⟨item, ⟨state, hstate, id, hid, hitem⟩, hrest⟩
    refine ⟨(state, s), ?_, List.mem_flatMap.2 ⟨id, hid, ?_⟩⟩
    · rw [List.mem_zipIdx_iff_getElem?, Array.getElem?_toList]
      exact hstate
    · exact (mem_itemEntries (h.valid.in_of_getElem? hitem) hitem).2 ⟨rfl, hrest⟩

/-- The actions of a cell of a filled table. -/
theorem mem_cell (h : dfa.Canonical g items) (hok : fill kind g items dfa allowed = .ok table) :
    action ∈ table.cell s X ↔
      (∃ t, dfa.move? s X = some t ∧ edgeAction ⟨s, X, t⟩ = .ok action) ∨
      ∃ item ∈ dfa.itemsAt items s, item.Complete g ∧ action = reduction item.rule ∧
        Allows allowed item.rule X := by
  obtain ⟨-, -, -, hcells⟩ := (writes_of_fill hok).cell_eq (rectangular_empty _ _)
  rw [hcells s X, mem_foldl_pushUnique, cell_empty, mem_actionsAt, mem_entries h]
  simp

/-- A transition on an input symbol is a shift. -/
@[simp] theorem edgeAction_eq_shift {t t' : StateId} :
    edgeAction ⟨s, X, t⟩ = .ok (.shift t') ↔ X.isInput = true ∧ t = t' := by
  cases X <;> simp [edgeAction, Symbol.isInput]

/-- A transition on a non-terminal is a goto. -/
@[simp] theorem edgeAction_eq_goto {t t' : StateId} :
    edgeAction ⟨s, X, t⟩ = .ok (.goto t') ↔ X.isNonterminal = true ∧ t = t' := by
  cases X <;> simp [edgeAction, Symbol.isNonterminal]

/-- No transition is a reduction. -/
@[simp] theorem edgeAction_ne_reduce {edge : Edge} {r : RuleId} :
    edgeAction edge ≠ .ok (.reduce r) := by
  unfold edgeAction
  cases edge.symbol <;> simp

/-- No transition accepts. -/
@[simp] theorem edgeAction_ne_accept {edge : Edge} : edgeAction edge ≠ .ok .accept := by
  unfold edgeAction
  cases edge.symbol <;> simp

/-- The end of a rule is no shift. -/
@[simp] theorem shift_ne_reduction {t : StateId} {r : RuleId} : .shift t ≠ reduction r := by
  unfold reduction
  split <;> simp

/-- The end of a rule is no goto. -/
@[simp] theorem goto_ne_reduction {t : StateId} {r : RuleId} : .goto t ≠ reduction r := by
  unfold reduction
  split <;> simp

/-- The end of a rule is a reduction by the rule, unless it is the augmented one. -/
@[simp] theorem reduce_eq_reduction {r r' : RuleId} :
    .reduce r = reduction r' ↔ r ≠ augmentedRule ∧ r' = r := by
  unfold reduction
  split <;> grind

/-- The end of the augmented rule accepts. -/
@[simp] theorem accept_eq_reduction {r : RuleId} : .accept = reduction r ↔ r = augmentedRule := by
  unfold reduction
  split <;> simp [*]

/-- A table that was filled from the canonical collection drives the machine along it. -/
theorem drives_of_fill (h : dfa.Canonical g items)
    (hallowed : ∀ {r : RuleId} {X : Symbol}, Allows allowed r X → X.isInput = true)
    (hok : fill kind g items dfa allowed = .ok table) : table.Drives g items dfa allowed := by
  refine ⟨fun {s t X} => ?_, fun {s t X} => ?_, fun {s r X} => ?_, fun {s X} => ?_, hallowed,
    fun s X => ?_⟩
  · rw [mem_cell h hok]
    simp [and_comm]
  · rw [mem_cell h hok]
    simp [and_comm]
  · rw [mem_cell h hok]
    constructor
    · rintro (⟨t, -, haction⟩ | ⟨item, hitem, hcomplete, haction, hallows⟩)
      · exact absurd haction edgeAction_ne_reduce
      · obtain ⟨hne, rfl⟩ := reduce_eq_reduction.1 haction
        exact ⟨hne, ⟨item, hitem, hcomplete, rfl⟩, hallows⟩
    · rintro ⟨hne, ⟨item, hitem, hcomplete, rfl⟩, hallows⟩
      exact .inr ⟨item, hitem, hcomplete, reduce_eq_reduction.2 ⟨hne, rfl⟩, hallows⟩
  · rw [mem_cell h hok]
    constructor
    · rintro (⟨t, -, haction⟩ | ⟨item, hitem, hcomplete, haction, hallows⟩)
      · exact absurd haction edgeAction_ne_accept
      · have hrule := accept_eq_reduction.1 haction
        exact ⟨⟨item, hitem, hcomplete, hrule⟩, hrule ▸ hallows⟩
    · rintro ⟨⟨item, hitem, hcomplete, hrule⟩, hallows⟩
      exact .inr ⟨item, hitem, hcomplete, accept_eq_reduction.2 hrule, hrule ▸ hallows⟩
  · obtain ⟨-, -, -, hcells⟩ := (writes_of_fill hok).cell_eq (rectangular_empty _ _)
    rw [hcells s X, cell_empty]
    exact nodup_foldl_pushUnique List.nodup_nil

/-- The symbols on which the LR(0) table ends a rule. -/
theorem allows_inputs {shape : Shape} {r : RuleId} :
    Allows (fun _ => .ok shape.inputs) r X ↔
      X.isInput = true ∧ ∃ column, shape.column? X = some column := by
  simp only [Allows, Except.ok.injEq, exists_eq_left', Shape.mem_inputs]

/-- The symbols on which the SLR(1) table ends a rule: the end of input for the augmented rule, and
else input symbols that can follow its head. -/
theorem allows_followInputs {sets : Lookahead} {r : RuleId} :
    Allows (followInputs g sets) r X ↔ if r = augmentedRule then X = .endOfInput else
      X.isInput = true ∧ ∃ rule follows, g.rules[r]? = some rule ∧
        sets.follow (.nonterminal rule.head) = .ok follows ∧ X ∈ follows := by
  unfold Allows followInputs
  split
  · simp [Pure.pure, Except.pure]
  · constructor
    · rintro ⟨symbols, hsymbols, hX⟩
      obtain ⟨rule, hrule, hsymbols⟩ := bind_eq_ok.1 hsymbols
      obtain ⟨follows, hfollows, hsymbols⟩ := bind_eq_ok.1 hsymbols
      obtain rfl := Except.ok.inj hsymbols
      obtain ⟨hmem, hinput⟩ := List.mem_filter.1 hX
      exact ⟨hinput, rule, follows, entry_eq_ok.1 hrule, hfollows, hmem⟩
    · rintro ⟨hinput, rule, follows, hrule, hfollows, hmem⟩
      refine ⟨follows.filter (·.isInput), ?_, List.mem_filter.2 ⟨hmem, hinput⟩⟩
      exact bind_eq_ok.2 ⟨rule, entry_eq_ok.2 hrule, bind_eq_ok.2 ⟨follows, hfollows, rfl⟩⟩

/-- The LR(0) table drives the machine along the automaton. -/
theorem drives_of_lr0 (h : dfa.Canonical g items) (hok : lr0 g items dfa = .ok table) :
    table.Drives g items dfa fun _ => .ok (shapeOf g dfa).inputs :=
  drives_of_fill h (fun hallows => (allows_inputs.1 hallows).1) hok

/-- The SLR(1) table drives the machine along the automaton. -/
theorem drives_of_slr1 {sets : Lookahead} (h : dfa.Canonical g items)
    (hok : slr1 g items dfa sets = .ok table) :
    table.Drives g items dfa (followInputs g sets) := by
  refine drives_of_fill h (fun hallows => ?_) hok
  rw [allows_followInputs] at hallows
  split at hallows
  · rw [hallows]
    rfl
  · exact hallows.1

namespace Drives

variable {allowed : RuleId → Except Failure (List Symbol)}

/-- A cell of a non-terminal has the move of the state and nothing else. -/
theorem cell_nonterminal {n : NonterminalId} {t : Nat} (h : table.Drives g items dfa allowed)
    (hmove : dfa.move? s (.nonterminal n) = some t) :
    table.cell s (.nonterminal n) = [.goto t] := by
  have hgoto : .goto t ∈ table.cell s (.nonterminal n) := h.goto_iff.2 ⟨rfl, hmove⟩
  have hall : ∀ action ∈ table.cell s (.nonterminal n), action = .goto t := by
    intro action haction
    cases action with
    | shift t' => exact absurd (h.shift_iff.1 haction).1 Bool.false_ne_true
    | reduce r =>
      exact absurd (h.allowed_input (h.reduce_iff.1 haction).2.2) Bool.false_ne_true
    | goto t' =>
      have hmove' := (h.goto_iff.1 haction).2
      rw [hmove] at hmove'
      rw [Option.some.inj hmove']
    | accept => exact absurd (h.allowed_input (h.accept_iff.1 haction).2) Bool.false_ne_true
  refine List.perm_singleton.1 ((List.perm_ext_iff_of_nodup (h.nodup s _)
    (List.nodup_singleton _)).2 fun action => ?_)
  rw [List.mem_singleton]
  exact ⟨hall action, fun heq => heq ▸ hgoto⟩

end Drives

end Table

end ShiftReduce
