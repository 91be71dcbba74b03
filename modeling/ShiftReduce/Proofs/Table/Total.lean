import ShiftReduce.Proofs.Lookahead.Follow
import ShiftReduce.Proofs.Table.Fill

/-!
# Tables can always be filled

The rows of a table are the states of the automaton, and its columns are the symbols of the grammar
and the end of input. Every action is written into a row and a column that the table has: the states
and the symbols of transitions are in range, and rules are ended on input symbols of the grammar. So
both tables of a canonical collection can be filled, and they have the same shape, which their
difference keeps.
-/

namespace ShiftReduce

/-- The input symbols of a grammar have columns. -/
theorem Grammar.mem_columns_of_mem_inputSymbols {g : Grammar} {X : Symbol}
    (h : X ∈ g.inputSymbols) : X ∈ g.columns := by
  simp only [inputSymbols, columns, List.mem_cons, List.mem_append] at h ⊢
  tauto

/-- The transitions of the canonical collection are between its states, on symbols of the
grammar. -/
theorem Dfa.Consistent.edge_in {g : Grammar} {items : ItemTable} {dfa : Dfa} {edge : Edge}
    (h : dfa.Consistent g items) (hg : g.CrossReferenced) (hedge : edge ∈ dfa.edges) :
    edge.source < dfa.states.size ∧ edge.target < dfa.states.size ∧ edge.symbol ∈ g.columns := by
  obtain ⟨a, b, ha, hb, hnext, -⟩ := h.edge_goto edge hedge
  have hsource := (Array.getElem?_eq_some_iff.1 ha).1
  have htarget := (Array.getElem?_eq_some_iff.1 hb).1
  obtain ⟨item, -, rule, hrule, hsymbol⟩ := (h.mem_next ha).1 hnext
  exact ⟨hsource, htarget, hg.body_columns hrule _ (List.mem_of_getElem? hsymbol)⟩

namespace Table

/-- A table with the rows and the columns of a shape. -/
structure Shaped (shape : Shape) (table : Table) : Prop extends table.Rectangular where
  shape_eq : table.shape = shape

variable {g : Grammar} {items : ItemTable} {dfa : Dfa} {sets : Lookahead} {kind : TableKind}
  {allowed : RuleId → Except Failure (List Symbol)} {shape : Shape} {s : StateId} {X : Symbol}
  {table lr0Table slr1Table : Table}

/-- An action can be written into a row and a column that the table has. -/
theorem Shaped.exists_add (h : table.Shaped shape) (hs : s < shape.states)
    (hX : X ∈ shape.columns) (action : Action) :
    ∃ after, table.add s X action = .ok after ∧ after.Shaped shape := by
  obtain ⟨rfl⟩ := h.shape_eq
  obtain ⟨column, hcolumn⟩ := Shape.mem_columns.1 hX
  have hrow : s < table.cells.size := by
    rw [h.size_eq]
    exact hs
  have hadd : ∃ after, table.add s X action = .ok after := by
    simp only [add, hcolumn, if_pos hrow, if_pos (h.column_lt hrow hcolumn)]
    exact ⟨_, rfl⟩
  obtain ⟨after, hafter⟩ := hadd
  have hadds := adds_of_add h.toRectangular hafter
  exact ⟨after, hafter, hadds.rectangular, hadds.shape_eq⟩

/-- A pass over a list writes into a table if each of its steps can. -/
theorem Shaped.exists_foldlM {α : Type} {xs : List α} {step : Table → α → Except Failure Table}
    (h : table.Shaped shape) (hstep : ∀ x ∈ xs, ∀ table : Table, table.Shaped shape →
      ∃ after, step table x = .ok after ∧ after.Shaped shape) :
    ∃ after, xs.foldlM step table = .ok after ∧ after.Shaped shape := by
  refine foldlM_ok (fun _ => Shaped shape) (fun done x rest table hsplit htable => ?_) h
  exact hstep x (by simp [hsplit]) table htable

/-- The action of a transition can be written. -/
theorem Shaped.exists_addEdge {edge : Edge} (h : table.Shaped shape)
    (hsource : edge.source < shape.states) (hsymbol : edge.symbol ∈ shape.columns) :
    ∃ after, table.addEdge edge = .ok after ∧ after.Shaped shape := by
  have haction : ∃ action, edgeAction edge = .ok action := by
    unfold edgeAction
    cases hX : edge.symbol with
    | epsilon =>
      obtain ⟨column, hcolumn⟩ := Shape.mem_columns.1 hsymbol
      rw [hX] at hcolumn
      cases hcolumn
    | _ => exact ⟨_, rfl⟩
  obtain ⟨action, haction⟩ := haction
  obtain ⟨after, hafter, hshaped⟩ := h.exists_add hsource hsymbol action
  exact ⟨after, bind_eq_ok.2 ⟨action, haction, hafter⟩, hshaped⟩

/-- Every rule is ended on symbols that have columns. -/
def Admissible (g : Grammar) (allowed : RuleId → Except Failure (List Symbol)) : Prop :=
  ∀ id rule, g.rules[id]? = some rule →
    ∃ symbols, allowed id = .ok symbols ∧ ∀ X ∈ symbols, X ∈ g.columns

/-- The reduction of an item can be written. -/
theorem Shaped.exists_addItem {item : Item} {id : ItemId} (h : table.Shaped (shapeOf g dfa))
    (hallowed : Admissible g allowed) (hs : s < dfa.states.size)
    (hid : items.items[id]? = some item) (hitem : item.In g) :
    ∃ after, addItem g items allowed s table id = .ok after ∧ after.Shaped (shapeOf g dfa) := by
  obtain ⟨done, hdone, -⟩ := hitem.isReduction_eq
  obtain ⟨rule, hrule, -⟩ := hitem
  have hrest : ∃ after, (if done = true then do
      table.addOn s (reduction item.rule) (← allowed item.rule) else return table) = .ok after ∧
      after.Shaped (shapeOf g dfa) := by
    cases done with
    | false => exact ⟨table, rfl, h⟩
    | true =>
      obtain ⟨symbols, hsymbols, hcolumns⟩ := hallowed item.rule rule hrule
      obtain ⟨after, hafter, hshaped⟩ := h.exists_foldlM fun X hX table htable =>
        htable.exists_add hs (hcolumns X hX) (reduction item.rule)
      exact ⟨after, bind_eq_ok.2 ⟨symbols, hsymbols, hafter⟩, hshaped⟩
  obtain ⟨after, hafter, hshaped⟩ := hrest
  refine ⟨after, ?_, hshaped⟩
  exact bind_eq_ok.2 ⟨item, ItemTable.get_eq hid, bind_eq_ok.2 ⟨done, hdone, hafter⟩⟩

/-- A table can be filled from the canonical collection. -/
theorem exists_fill (kind : TableKind) (hg : g.CrossReferenced) (h : dfa.Canonical g items)
    (hallowed : Admissible g allowed) :
    ∃ table, fill kind g items dfa allowed = .ok table ∧ table.kind = kind ∧
      table.Shaped (shapeOf g dfa) := by
  have hempty : (empty kind (shapeOf g dfa)).Shaped (shapeOf g dfa) :=
    ⟨rectangular_empty kind (shapeOf g dfa), rfl⟩
  have hedges : ∃ edged, dfa.edges.toList.foldlM addEdge (empty kind (shapeOf g dfa)) = .ok edged ∧
      edged.Shaped (shapeOf g dfa) := by
    refine hempty.exists_foldlM fun edge hedge table htable => ?_
    obtain ⟨hsource, -, hsymbol⟩ := h.edge_in hg (Array.mem_toList_iff.1 hedge)
    exact htable.exists_addEdge hsource hsymbol
  obtain ⟨edged, hedged, hshaped⟩ := hedges
  have hstates : ∃ table, dfa.states.toList.zipIdx.foldlM (addState g items allowed) edged =
      .ok table ∧ table.Shaped (shapeOf g dfa) := by
    refine hshaped.exists_foldlM fun state hstate table htable => ?_
    rw [List.mem_zipIdx_iff_getElem?, Array.getElem?_toList] at hstate
    have hs := (Array.getElem?_eq_some_iff.1 hstate).1
    refine htable.exists_foldlM fun id hid table htable => ?_
    obtain ⟨item, hitem⟩ := (h.within hstate).exists_item hid
    exact htable.exists_addItem hallowed hs hitem (h.valid.in_of_getElem? hitem)
  obtain ⟨table, htable, hshaped⟩ := hstates
  have hfill : fill kind g items dfa allowed = .ok table := bind_eq_ok.2 ⟨edged, hedged, htable⟩
  obtain ⟨hkind, -⟩ := (writes_of_fill hfill).cell_eq (rectangular_empty kind (shapeOf g dfa))
  exact ⟨table, hfill, hkind, hshaped⟩

/-- The LR(0) table can be filled. -/
theorem exists_lr0 (hg : g.CrossReferenced) (h : dfa.Canonical g items) :
    ∃ table, lr0 g items dfa = .ok table ∧ table.kind = .lr0 ∧ table.Shaped (shapeOf g dfa) := by
  refine exists_fill .lr0 hg h fun id rule _ => ⟨_, rfl, fun X hX => ?_⟩
  exact (List.mem_filter.1 hX).1

/-- The SLR(1) table can be filled. -/
theorem exists_slr1 (hg : g.CrossReferenced) (h : dfa.Canonical g items) (hsets : sets.Closed g) :
    ∃ table, slr1 g items dfa sets = .ok table ∧ table.kind = .slr1 ∧
      table.Shaped (shapeOf g dfa) := by
  refine exists_fill .slr1 hg h fun id rule hrule => ?_
  unfold followInputs
  by_cases hid : id = augmentedRule
  · rw [if_pos hid]
    exact ⟨_, rfl, by simp⟩
  · rw [if_neg hid]
    have hhead : rule.head < sets.follows.size := hsets.follows.size_eq ▸ hg.head_lt hrule
    refine ⟨_, bind_eq_ok.2 ⟨rule, entry_eq_ok.2 hrule, bind_eq_ok.2 ⟨_,
      entry_eq_ok.2 (SetFamily.getElem?_sets hhead), rfl⟩⟩, fun X hX => ?_⟩
    have hmem := hsets.follows.within.subset rule.head (List.mem_filter.1 hX).1
    exact Grammar.mem_columns_of_mem_inputSymbols hmem

/-- What remains of a row has as many cells as the row. -/
theorem size_removedFromRow {row other : Array (List Action)} (h : row.size = other.size) :
    (removedFromRow row other).size = row.size := by
  unfold removedFromRow
  split
  · exact Array.size_map
  · rw [Array.size_zipWith, ← h, Nat.min_self]

/-- The difference of two tables of the same shape has this shape. -/
theorem exists_diff (hlr0 : lr0Table.Shaped shape) (hslr1 : slr1Table.Shaped shape)
    (hkind : lr0Table.kind = .lr0) (hkind' : slr1Table.kind = .slr1) :
    ∃ table, diff lr0Table slr1Table = .ok table ∧ table.Shaped shape := by
  have hshape : lr0Table.shape = slr1Table.shape := hlr0.shape_eq.trans hslr1.shape_eq.symm
  refine ⟨{ kind := .diff, shape := lr0Table.shape,
            cells := lr0Table.cells.zipWith removedFromRow slr1Table.cells }, ?_, ⟨?_, ?_⟩, ?_⟩
  · simp [diff, hkind, hkind', hshape]
  · have hsize : lr0Table.cells.size = slr1Table.cells.size := by
      rw [hlr0.size_eq, hslr1.size_eq, hshape]
    rw [Array.size_zipWith, ← hsize, Nat.min_self, hlr0.size_eq]
  · intro row hrow
    obtain ⟨s, hs⟩ := Array.mem_iff_getElem?.1 hrow
    obtain ⟨left, right, hleft, hright, rfl⟩ := Array.getElem?_zipWith_eq_some.1 hs
    have hwidth := hlr0.row_size left (Array.mem_of_getElem? hleft)
    have hwidth' := hslr1.row_size right (Array.mem_of_getElem? hright)
    rw [size_removedFromRow (by rw [hwidth, hwidth', hshape]), hwidth]
  · exact hlr0.shape_eq

end Table

end ShiftReduce
