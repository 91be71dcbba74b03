import ShiftReduce.Proofs.Table.Contents

/-!
# Conflicts are where items compete

The conflicts that a table reports are its cells with two or more actions. A state has at most one
move on a symbol, so a cell has as many actions as its state has complete items that may be ended on
the symbol, and one more if an item waits for the symbol. A conflict is therefore a competition of
complete items with each other, or with an item that waits.
-/

namespace ShiftReduce

/-- Some action of a cell consumes the symbol if the cell has a shift. -/
theorem Action.any_isShift {actions : List Action} :
    actions.any (·.isShift) = true ↔ ∃ t, .shift t ∈ actions := by
  rw [List.any_eq_true]
  constructor
  · rintro ⟨action, haction, hshift⟩
    cases action with
    | shift t => exact ⟨t, haction⟩
    | _ => cases hshift
  · rintro ⟨t, ht⟩
    exact ⟨_, ht, rfl⟩

namespace Table

variable {g : Grammar} {items : ItemTable} {dfa : Dfa} {table : Table}
  {allowed : RuleId → Except Failure (List Symbol)} {s : StateId} {X : Symbol} {conflict : Conflict}

/-- A table reports the cells with two or more actions among the given places, each once and in
their order, with the actions of these cells. -/
structure Reports (table : Table) (places : List (StateId × Symbol)) : Prop where
  places_eq : table.conflicts.map (fun conflict => (conflict.state, conflict.symbol)) =
    places.filter fun place => 2 ≤ (table.cell place.1 place.2).length
  nodup : table.conflicts.Nodup
  actions_eq : ∀ conflict ∈ table.conflicts,
    conflict.actions = table.cell conflict.state conflict.symbol
  count_eq : table.conflictCount = table.conflicts.length

/-- A conflict has the actions of its cell, at least two, and its kind tells whether one of them is
a shift. -/
theorem Rectangular.of_mem_conflicts (h : table.Rectangular)
    (hconflict : conflict ∈ table.conflicts) :
    conflict.actions = table.cell conflict.state conflict.symbol ∧
      2 ≤ conflict.actions.length ∧
      (conflict.kind = .shiftReduce ↔ ∃ t, .shift t ∈ conflict.actions) := by
  rw [h.conflicts_eq] at hconflict
  obtain ⟨⟨s, X⟩, -, hcell⟩ := List.mem_filterMap.1 hconflict
  unfold Conflict.ofCell? at hcell
  split at hcell
  · cases hcell
  · rename_i hlong
    obtain rfl := Option.some.inj hcell
    refine ⟨rfl, Nat.not_lt.1 hlong, ?_⟩
    rw [← Action.any_isShift]
    dsimp only
    split <;> simp_all

/-- Tables report their conflicts. -/
theorem Rectangular.reports (h : table.Rectangular) : table.Reports table.shape.places := by
  have hplaces : table.conflicts.map (fun conflict => (conflict.state, conflict.symbol)) =
      table.shape.places.filter fun place => 2 ≤ (table.cell place.1 place.2).length := by
    rw [h.conflicts_eq, List.map_filterMap, ← List.filterMap_eq_filter]
    refine List.filterMap_congr fun ⟨s, X⟩ _ => ?_
    unfold Conflict.ofCell? Option.guard
    split <;> simp_all
  constructor
  case places_eq => exact hplaces
  case nodup =>
    refine List.Nodup.of_map (fun conflict => (conflict.state, conflict.symbol)) ?_
    rw [hplaces]
    exact table.shape.nodup_places.filter _
  case actions_eq =>
    intro conflict hconflict
    exact (h.of_mem_conflicts hconflict).1
  case count_eq =>
    have hlength := congrArg List.length hplaces
    rw [List.length_map, ← List.countP_eq_length_filter] at hlength
    rw [h.conflictCount_eq, hlength]
    rfl

/-- A cell has at most one action that is no reduction. -/
theorem countP_contents_le_one (hvalid : items.Valid g) :
    (contents g items dfa allowed s X).countP (!·.isReduction) ≤ 1 := by
  rw [List.countP_eq_length_filter, filter_contents hvalid]
  cases moveAction? dfa s X <;> simp

open Classical in
/-- A state has an action for its move if an item waits for the symbol. -/
theorem length_moveAction? (h : dfa.Canonical g items) (hX : X ≠ .epsilon) :
    (moveAction? dfa s X).toList.length =
      if ∃ item ∈ dfa.itemsAt items s, item.Awaits g X then 1 else 0 := by
  rw [← if_congr h.exists_move_iff rfl rfl]
  cases ht : dfa.move? s X with
  | none => simp [moveAction?, ht]
  | some t =>
    cases X with
    | epsilon => exact absurd rfl hX
    | _ => simp [moveAction?, ht, edgeAction, Except.toOption]

/-- A state has a reduction for each of its complete items that may be ended. -/
theorem length_reductions (hvalid : items.Valid g) :
    ((dfa.idsAt s).filterMap (reductionOn? g items allowed X)).length =
      Set.ncard { item ∈ dfa.itemsAt items s |
        item.Complete g ∧ Allows allowed item.rule X } := by
  classical
  rw [List.length_filterMap_eq_countP, Dfa.idsAt]
  cases hs : dfa.states[s]? with
  | none => simp [Dfa.itemsAt, hs]
  | some state =>
    calc state.items.ids.countP (fun id => (reductionOn? g items allowed X id).isSome)
        = state.items.ids.countP fun id => items.items[id]?.any fun item =>
            decide (item.Complete g ∧ Allows allowed item.rule X) := by
          refine List.countP_congr fun id _ => ?_
          rw [Option.isSome_iff_exists, Option.any_eq_true]
          simp only [reductionOn?_eq_some hvalid, decide_eq_true_eq]
          constructor
          · rintro ⟨action, item, hitem, hcomplete, -, hallows⟩
            exact ⟨item, hitem, hcomplete, hallows⟩
          · rintro ⟨item, hitem, hcomplete, hallows⟩
            exact ⟨_, item, hitem, hcomplete, rfl, hallows⟩
      _ = Set.ncard { item ∈ state.items.items items |
            decide (item.Complete g ∧ Allows allowed item.rule X) = true } :=
          ItemSet.countP_ids _ hvalid
      _ = _ := by simp only [decide_eq_true_eq, Dfa.itemsAt_eq hs]

end Table

/-- A conflict of reductions with each other or with one shift. -/
structure Conflict.Genuine (conflict : Conflict) : Prop where
  isInput : conflict.symbol.isInput = true
  shifts_le : conflict.actions.countP (·.isShift) ≤ 1
  not_goto : ∀ t, .goto t ∉ conflict.actions
  reduces : ∃ action ∈ conflict.actions, action.isReduction = true
  shiftReduce_iff : conflict.kind = .shiftReduce ↔ ∃ t, .shift t ∈ conflict.actions
  reduceReduce : conflict.kind = .reduceReduce → 2 ≤ conflict.actions.length ∧
    conflict.actions.Nodup ∧ ∀ action ∈ conflict.actions, action.isReduction = true

namespace Table

variable {g : Grammar} {items : ItemTable} {dfa : Dfa} {table : Table}
  {allowed : RuleId → Except Failure (List Symbol)} {s : StateId} {X : Symbol} {conflict : Conflict}

/-- A cell with a reduction is for an input symbol. -/
theorem Drives.isInput_of_isReduction {action : Action} (h : table.Drives g items dfa allowed)
    (haction : action ∈ table.cell s X) (hreduction : action.isReduction = true) :
    X.isInput = true := by
  cases action with
  | reduce r => exact h.allowed_input (h.reduce_iff.1 haction).2.2
  | accept => exact h.allowed_input (h.accept_iff.1 haction).2
  | _ => cases hreduction

/-- The conflicts of a table that drives the machine are genuine. -/
theorem Drives.genuine (h : table.Drives g items dfa allowed) (hrect : table.Rectangular)
    (hvalid : items.Valid g)
    (hcells : ∀ s X, table.cell s X = contents g items dfa allowed s X)
    (hconflict : conflict ∈ table.conflicts) : conflict.Genuine := by
  obtain ⟨hactions, hlong, hkind⟩ := hrect.of_mem_conflicts hconflict
  have hmoves : conflict.actions.countP (!·.isReduction) ≤ 1 := by
    rw [hactions, hcells]
    exact countP_contents_le_one hvalid
  -- Of two or more actions at most one is a move, so a reduction is among them. This makes the
  -- symbol an input symbol, and on input symbols no state has a goto.
  have hreduces : ∃ action ∈ conflict.actions, action.isReduction = true := by
    by_contra! hnone
    have hall : conflict.actions.countP (!·.isReduction) = conflict.actions.length :=
      List.countP_eq_length.2 fun action haction => by simp [hnone action haction]
    omega
  have hinput : conflict.symbol.isInput = true := by
    obtain ⟨action, haction, hreduction⟩ := hreduces
    exact h.isInput_of_isReduction (hactions ▸ haction) hreduction
  have hgoto : ∀ t, .goto t ∉ conflict.actions := by
    intro t ht
    rw [hactions, h.goto_iff] at ht
    cases hX : conflict.symbol <;> simp_all [Symbol.isInput, Symbol.isNonterminal]
  refine ⟨hinput, ?_, hgoto, hreduces, hkind, fun hreduce => ⟨hlong, ?_, fun action haction => ?_⟩⟩
  · refine (List.countP_mono_left fun action _ hshift => ?_).trans hmoves
    cases action with
    | shift t => rfl
    | _ => cases hshift
  · rw [hactions]
    exact h.nodup conflict.state conflict.symbol
  · cases action with
    | shift t =>
      rw [hkind.2 ⟨t, haction⟩] at hreduce
      cases hreduce
    | goto t => exact absurd haction (hgoto t)
    | _ => rfl

end Table

namespace Compilation

variable {options : ReadOptions} {source : String} {c : Compilation} {s : StateId} {X : Symbol}
  {allowed : RuleId → Except Failure (List Symbol)} {ends : RuleId → Prop}

/-- The complete items of a state whose rules may be ended. -/
def endingItems (c : Compilation) (s : StateId) (ends : RuleId → Prop) : Set Item :=
  { item ∈ c.dfa.itemsAt c.items s | item.Complete c.grammar ∧ ends item.rule }

/-- On an input symbol, items that may be ended compete with each other, or one of them with an item
that waits for the symbol. -/
def Clashes (c : Compilation) (s : StateId) (X : Symbol) (ends : RuleId → Prop) : Prop :=
  X.isInput = true ∧ (2 ≤ (c.endingItems s ends).ncard ∨
    (c.endingItems s ends).ncard = 1 ∧ ∃ item ∈ c.dfa.itemsAt c.items s, item.Awaits c.grammar X)

/-- A cell that has its contents has two or more actions if items compete for it. -/
theorem Built.clashes_iff (h : c.Built options source) (hX : X ∈ c.grammar.columns)
    (hallows : ∀ r, Table.Allows allowed r X ↔ X.isInput = true ∧ ends r) :
    2 ≤ (Table.contents c.grammar c.items c.dfa allowed s X).length ↔ c.Clashes s X ends := by
  classical
  have hepsilon : X ≠ .epsilon := by
    rintro rfl
    exact Grammar.epsilon_not_mem_columns c.grammar hX
  rw [Table.contents, List.length_append, Table.length_moveAction? h.canonical hepsilon,
    Table.length_reductions h.canonical.valid, Clashes]
  simp only [hallows]
  by_cases hinput : X.isInput = true
  · simp only [hinput, true_and, endingItems]
    by_cases hawaits : ∃ item ∈ c.dfa.itemsAt c.items s, item.Awaits c.grammar X
    · simp only [hawaits, if_true, and_true]
      omega
    · simp [hawaits]
  · -- A column of a non-terminal has no reductions, so there is the move at most.
    have hnone : { item ∈ c.dfa.itemsAt c.items s |
        item.Complete c.grammar ∧ X.isInput = true ∧ ends item.rule } = ∅ := by
      simp [hinput]
    rw [hnone, Set.ncard_empty]
    split <;> simp [hinput]

/-- In the three tables of a compilation the conflicts are the cells with two or more actions, row
by row and each once. Those of the LR(0) and the SLR(1) table are conflicts of reductions with each
other or with one shift, and they are where items of a state compete for an input symbol. -/
theorem conflicts_exact (h : compile options source = .ok c) :
    (∀ table ∈ [c.lr0, c.slr1, c.diff],
      table.Reports (Table.shapeOf c.grammar c.dfa).places) ∧
    (∀ conflict ∈ c.lr0.conflicts ++ c.slr1.conflicts, conflict.Genuine) ∧
    ∀ s < c.dfa.states.size, ∀ X ∈ c.grammar.columns,
      (2 ≤ (c.lr0.cell s X).length ↔ c.Clashes s X fun _ => True) ∧
      (2 ≤ (c.slr1.cell s X).length ↔ c.Clashes s X (c.LetsEnd X)) := by
  have hbuilt := built_of_compile h
  have hvalid := hbuilt.canonical.valid
  refine ⟨fun table htable => ?_, fun conflict hconflict => ?_, fun s _ X hX => ⟨?_, ?_⟩⟩
  · have hshaped := hbuilt.shaped table htable
    rw [← hshaped.shape_eq]
    exact hshaped.reports
  · rcases List.mem_append.1 hconflict with hlr0 | hslr1
    · exact hbuilt.drives_lr0.genuine (hbuilt.shaped c.lr0 (by simp)).toRectangular hvalid
        hbuilt.lr0_cell_eq hlr0
    · exact hbuilt.drives_slr1.genuine (hbuilt.shaped c.slr1 (by simp)).toRectangular hvalid
        hbuilt.slr1_cell_eq hslr1
  · rw [hbuilt.lr0_cell_eq]
    exact hbuilt.clashes_iff hX fun _ => Built.lr0_allows_iff hX
  · rw [hbuilt.slr1_cell_eq]
    exact hbuilt.clashes_iff hX fun _ => Built.slr1_allows_iff

/-- For the rules `S -> A | B | 'a' 'b'`, `A -> 'a'` and `B -> 'a'`, two rules compete in state 1,
which comes after `a`. On `b` they also compete with a shift. Look-ahead leaves the conflict on the
end of input only. -/
theorem conflicts_exact_of_two_heads : ∃ c,
    compile {} "S -> A | B | 'a' 'b' ; A -> 'a' ; B -> 'a' ;" = .ok c ∧
    1 < c.dfa.states.size ∧ .terminal 1 ∈ c.grammar.columns ∧ c.lr0.conflictCount = 3 ∧
    c.slr1.conflicts = [⟨1, .endOfInput, .reduceReduce, [.reduce 4, .reduce 5]⟩] ∧
    Conflict.Genuine ⟨1, .terminal 1, .shiftReduce, [.shift 5, .reduce 4, .reduce 5]⟩ ∧
    c.Clashes 1 (.terminal 1) (fun _ => True) ∧
    ¬ c.Clashes 1 (.terminal 1) (c.LetsEnd (.terminal 1)) := by
  have hsource : (compile {} "S -> A | B | 'a' 'b' ; A -> 'a' ; B -> 'a' ;").toOption.map
      (fun c => ([c.dfa.states.size, c.grammar.terminals.size,
          (c.lr0.cell 1 (.terminal 1)).length, (c.slr1.cell 1 (.terminal 1)).length],
        c.lr0.conflicts, c.slr1.conflicts)) =
      some ([7, 2, 3, 1], [⟨1, .terminal 0, .reduceReduce, [.reduce 4, .reduce 5]⟩,
          ⟨1, .terminal 1, .shiftReduce, [.shift 5, .reduce 4, .reduce 5]⟩,
          ⟨1, .endOfInput, .reduceReduce, [.reduce 4, .reduce 5]⟩],
        [⟨1, .endOfInput, .reduceReduce, [.reduce 4, .reduce 5]⟩]) := by
    decide +kernel
  obtain ⟨c, hok, hparts⟩ := Option.map_eq_some_iff.1 hsource
  simp only [Prod.mk.injEq, List.cons.injEq, and_true] at hparts
  obtain ⟨⟨hstates, hterminals, hcell, hcell'⟩, hlr0, hslr1⟩ := hparts
  have hcompile := eq_ok_of_toOption hok
  have hstate : 1 < c.dfa.states.size := by omega
  have hcolumn : .terminal 1 ∈ c.grammar.columns := by simp [hterminals]
  obtain ⟨hreports, hgenuine, hclashes⟩ := conflicts_exact hcompile
  obtain ⟨hclash, hclash'⟩ := hclashes 1 hstate (.terminal 1) hcolumn
  refine ⟨c, hcompile, hstate, hcolumn, ?_, hslr1, hgenuine _ (by simp [hlr0]), ?_, ?_⟩
  · rw [(hreports c.lr0 (by simp)).count_eq, hlr0]
    rfl
  · exact hclash.1 (by omega)
  · intro hends
    have hlong := hclash'.2 hends
    omega

end Compilation

end ShiftReduce
