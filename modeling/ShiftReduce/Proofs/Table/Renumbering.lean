import ShiftReduce.Proofs.Item.History
import ShiftReduce.Proofs.Table.Total

/-!
# Numbers of items do not matter

Two tables of items that were filled by different requests number the items differently. The
automata that are built on them have the same outline, so they have the same transitions and states
with the same items. In the parse tables only the order of the actions in a cell can differ, and the
conflicts are in the same cells and of the same kinds.
-/

namespace ShiftReduce

namespace Dfa

variable {g : Grammar} {items items' : ItemTable} {dfa dfa' : Dfa}

/-- Two automata, each with the table that numbers its items, that differ in these numbers only. -/
structure Renumbers (items : ItemTable) (dfa : Dfa) (items' : ItemTable) (dfa' : Dfa) :
    Prop where
  edges_eq : dfa.edges = dfa'.edges
  size_eq : dfa.states.size = dfa'.states.size
  itemsAt_eq : ∀ s, dfa.itemsAt items s = dfa'.itemsAt items' s
  states_eq : ∀ (s : StateId) (state state' : State), dfa.states[s]? = some state →
    dfa'.states[s]? = some state' → state.next = state'.next ∧
      state.reductions = state'.reductions ∧ state.kind = state'.kind

/-- The outline has the items of each state. -/
theorem itemsAt_eq_getD (dfa : Dfa) (items : ItemTable) (s : StateId) :
    dfa.itemsAt items s = (dfa.outline items).sets.getD s ∅ := by
  ext item
  cases hs : dfa.states[s]? with
  | none => simp [itemsAt, outline, hs]
  | some state => simp [itemsAt, outline, hs]

/-- Automata with the same outline differ in the numbers of items only. What a state says about its
items can be said about the set of them. -/
theorem renumbers_of_outline_eq (hg : g.CrossReferenced) (h : dfa.Canonical g items)
    (h' : dfa'.Canonical g items') (houtline : dfa.outline items = dfa'.outline items') :
    Renumbers items dfa items' dfa' := by
  have hitems : ∀ s, dfa.itemsAt items s = dfa'.itemsAt items' s := by
    intro s
    rw [itemsAt_eq_getD, itemsAt_eq_getD, houtline]
  refine ⟨congrArg Outline.edges houtline, ?_, hitems, fun s state state' hs hs' => ?_⟩
  · simpa [outline] using congrArg (·.sets.length) houtline
  · have hset : state.items.items items = state'.items.items items' := by
      rw [← itemsAt_eq hs, ← itemsAt_eq hs', hitems s]
    have hnext : state.next = state'.next := by
      rw [State.next_eq_awaited hg h.valid (h.within hs) (h.summary hs),
        State.next_eq_awaited hg h'.valid (h'.within hs') (h'.summary hs'), hset]
    have hreductions : state.reductions = state'.reductions := by
      rw [State.reductions_eq_ncard h.valid (h.within hs) (h.summary hs),
        State.reductions_eq_ncard h'.valid (h'.within hs') (h'.summary hs'), hset]
    have hsize : state.items.size = state'.items.size := by
      rw [ItemSet.size_eq_ncard h.valid (h.within hs),
        ItemSet.size_eq_ncard h'.valid (h'.within hs'), hset]
    refine ⟨hnext, hreductions, ?_⟩
    rw [State.kind, State.kind, hreductions, hsize]

end Dfa

/-- Where a conflict is and of what kind, without the actions. -/
def Conflict.place (conflict : Conflict) : StateId × Symbol × ConflictKind :=
  (conflict.state, conflict.symbol, conflict.kind)

/-- The order of the actions in a cell does not matter for its conflict. -/
theorem Conflict.map_place_ofCell? {s : StateId} {X : Symbol} {actions actions' : List Action}
    (h : actions.Perm actions') :
    (ofCell? s X actions).map place = (ofCell? s X actions').map place := by
  unfold ofCell?
  rw [h.length_eq, h.any_eq]
  split <;> rfl

namespace Table

variable {g : Grammar} {items items' : ItemTable} {dfa dfa' : Dfa} {kind : TableKind}
  {allowed : RuleId → Except Failure (List Symbol)} {shape : Shape} {table table' : Table}

/-- Two tables that differ in the order of the actions in their cells only. -/
structure Reorders (table table' : Table) : Prop where
  shape_eq : table.shape = table'.shape
  cells_perm : ∀ s X, (table.cell s X).Perm (table'.cell s X)
  conflicts_eq : table.conflicts.map Conflict.place = table'.conflicts.map Conflict.place

/-- Tables whose cells have the same actions differ in their order only, and have conflicts at the
same places. -/
theorem reorders_of_perm (h : table.Shaped shape) (h' : table'.Shaped shape)
    (hperm : ∀ s X, (table.cell s X).Perm (table'.cell s X)) : Reorders table table' := by
  refine ⟨h.shape_eq.trans h'.shape_eq.symm, hperm, ?_⟩
  rw [h.conflicts_eq, h'.conflicts_eq, h.shape_eq, h'.shape_eq]
  simp only [List.map_filterMap]
  exact List.filterMap_congr fun place _ => Conflict.map_place_ofCell? (hperm place.1 place.2)

/-- Tables that drive the machine along two automata that differ in the numbers of items have the
same actions in each cell. -/
theorem Drives.cell_perm (h : table.Drives g items dfa allowed)
    (h' : table'.Drives g items' dfa' allowed) (hautomata : Dfa.Renumbers items dfa items' dfa')
    (s : StateId) (X : Symbol) : (table.cell s X).Perm (table'.cell s X) := by
  have hmove : dfa.move? s X = dfa'.move? s X := by
    rw [Dfa.move?, Dfa.move?, hautomata.edges_eq]
  refine (List.perm_ext_iff_of_nodup (h.nodup s X) (h'.nodup s X)).2 fun action => ?_
  cases action with
  | shift t => rw [h.shift_iff, h'.shift_iff, hmove]
  | goto t => rw [h.goto_iff, h'.goto_iff, hmove]
  | reduce r => rw [h.reduce_iff, h'.reduce_iff, hautomata.itemsAt_eq]
  | accept => rw [h.accept_iff, h'.accept_iff, hautomata.itemsAt_eq]

section Filled

variable (hg : g.CrossReferenced) (h : dfa.Canonical g items) (h' : dfa'.Canonical g items')
  (hautomata : Dfa.Renumbers items dfa items' dfa')

include hg h h' hautomata

/-- The LR(0) tables of two automata that differ in the numbers of items differ in the order of
actions only. -/
theorem lr0_reorders :
    ∃ table table', lr0 g items dfa = .ok table ∧ lr0 g items' dfa' = .ok table' ∧
      Reorders table table' := by
  have hshape : shapeOf g dfa' = shapeOf g dfa := by rw [shapeOf, shapeOf, hautomata.size_eq]
  obtain ⟨table, htable, -, hshaped⟩ := exists_lr0 hg h
  obtain ⟨table', htable', -, hshaped'⟩ := exists_lr0 hg h'
  have hdrives := drives_of_lr0 h htable
  have hdrives' := drives_of_lr0 h' htable'
  rw [hshape] at hshaped' hdrives'
  exact ⟨table, table', htable, htable',
    reorders_of_perm hshaped hshaped' (hdrives.cell_perm hdrives' hautomata)⟩

/-- The SLR(1) tables of two automata that differ in the numbers of items differ in the order of
actions only. -/
theorem slr1_reorders {sets : Lookahead} (hsets : sets.Closed g) :
    ∃ table table', slr1 g items dfa sets = .ok table ∧ slr1 g items' dfa' sets = .ok table' ∧
      Reorders table table' := by
  have hshape : shapeOf g dfa' = shapeOf g dfa := by rw [shapeOf, shapeOf, hautomata.size_eq]
  obtain ⟨table, htable, -, hshaped⟩ := exists_slr1 hg h hsets
  obtain ⟨table', htable', -, hshaped'⟩ := exists_slr1 hg h' hsets
  rw [hshape] at hshaped'
  exact ⟨table, table', htable, htable', reorders_of_perm hshaped hshaped'
    ((drives_of_slr1 h htable).cell_perm (drives_of_slr1 h' htable') hautomata)⟩

end Filled

/-- For a grammar that was read, take two tables of items that were empty at first and went through
any requests, without bounds. The automata that are built on them have the same transitions in the
same order and the same number of states, and states of one number have the same items, the same
symbols to move on, the same number of reductions and the same kind. Their LR(0) tables and their
SLR(1) tables have the same actions in each cell, up to order, and the same conflicts. -/
theorem independent_of_numbering {options : ReadOptions} {tokens : List Token}
    (hread : Grammar.ofTokens options tokens = .ok g) (requests requests' : List ItemRequest) :
    ∃ dfa items dfa' items',
      Dfa.build g .unbounded ((ItemTable.empty .unbounded).afterAll g requests) = .ok dfa items ∧
      Dfa.build g .unbounded ((ItemTable.empty .unbounded).afterAll g requests') = .ok dfa' items' ∧
      Dfa.Renumbers items dfa items' dfa' ∧
      (∃ table table', lr0 g items dfa = .ok table ∧ lr0 g items' dfa' = .ok table' ∧
        Reorders table table') ∧
      ∃ sets, Lookahead.compute g = .ok sets ∧ ∃ table table', slr1 g items dfa sets = .ok table ∧
        slr1 g items' dfa' sets = .ok table' ∧ Reorders table table' := by
  have hg := Grammar.wellFormed_ofTokens hread
  have hbuild (requests : List ItemRequest) : ∃ dfa items,
      Dfa.build g .unbounded ((ItemTable.empty .unbounded).afterAll g requests) = .ok dfa items ∧
      dfa.Canonical g items ∧ dfa.outline items = Dfa.Outline.ofGrammar g := by
    have hgrows := (ItemTable.extends_afterAll g requests (.empty .unbounded)).grows
      (ItemTable.valid_empty g .unbounded)
    obtain ⟨dfa, items, hdfa, -, hcanonical, houtline⟩ :=
      (Dfa.build_meets_outline hg hgrows.valid).exists_ok hgrows.bounds_eq
    exact ⟨dfa, items, hdfa, hcanonical, houtline⟩
  obtain ⟨dfa, items, hdfa, hcanonical, houtline⟩ := hbuild requests
  obtain ⟨dfa', items', hdfa', hcanonical', houtline'⟩ := hbuild requests'
  obtain ⟨sets, hsets, hclosed⟩ := Lookahead.compute_ok hg.toLinked
  have hautomata := Dfa.renumbers_of_outline_eq hg.toCrossReferenced hcanonical hcanonical'
    (houtline.trans houtline'.symm)
  exact ⟨dfa, items, dfa', items', hdfa, hdfa', hautomata,
    lr0_reorders hg.toCrossReferenced hcanonical hcanonical' hautomata, sets, hsets,
    slr1_reorders hg.toCrossReferenced hcanonical hcanonical' hautomata hclosed⟩

/-- For the rules `S -> A | B`, `A -> 'a'` and `B -> 'a'`, the LR(0) table that comes from an empty
table of items and the one that comes from a table in which `B -> 'a' .` has the first number are
different, but they have the same conflicts. -/
theorem independent_of_numbering_of_two_ends : ∃ g dfa items dfa' items' table table',
    Grammar.ofSource {} "S -> A | B ; A -> 'a' ; B -> 'a' ;" = .ok g ∧
    Dfa.build g .unbounded ((ItemTable.empty .unbounded).afterAll g []) = .ok dfa items ∧
    Dfa.build g .unbounded ((ItemTable.empty .unbounded).afterAll g [.number ⟨4, 1⟩]) =
      .ok dfa' items' ∧ lr0 g items dfa = .ok table ∧ lr0 g items' dfa' = .ok table' ∧
    table ≠ table' ∧ table.conflicts.map Conflict.place = table'.conflicts.map Conflict.place := by
  have hsource : (Grammar.ofSource {} "S -> A | B ; A -> 'a' ; B -> 'a' ;").toOption.map (fun g =>
      match Dfa.build g .unbounded ((ItemTable.empty .unbounded).afterAll g []),
        Dfa.build g .unbounded ((ItemTable.empty .unbounded).afterAll g [.number ⟨4, 1⟩]) with
      | .ok dfa items, .ok dfa' items' =>
        decide ((lr0 g items dfa).toOption ≠ (lr0 g items' dfa').toOption)
      | _, _ => false) = some true := by
    decide +kernel
  obtain ⟨g, hok, hparts⟩ := Option.map_eq_some_iff.1 hsource
  have hread := eq_ok_of_toOption hok
  obtain ⟨dfa, items, dfa', items', hdfa, hdfa', -, hlr0, -⟩ :=
    independent_of_numbering hread [] [.number ⟨4, 1⟩]
  obtain ⟨table, table', htable, htable', hreorders⟩ := hlr0
  simp only [hdfa, hdfa', htable, htable', decide_eq_true_eq] at hparts
  refine ⟨g, dfa, items, dfa', items', table, table', hread, hdfa, hdfa', htable, htable', ?_,
    hreorders.conflicts_eq⟩
  rintro rfl
  exact hparts rfl

end Table

end ShiftReduce
