import ShiftReduce.Proofs.Dfa.Moves
import ShiftReduce.Proofs.SetFamily
import ShiftReduce.Table.Fill

/-!
# What the cells of a table hold

A table is filled by writing actions into cells one after the other. What a cell holds in the end
are the actions that were written into it, in the order of writing and each once. A table without
conflicts has at most one action in each cell.
-/

namespace ShiftReduce

namespace Shape

/-- The column of a symbol is one of the columns. -/
theorem column?_lt {shape : Shape} {X : Symbol} {column : Nat}
    (h : shape.column? X = some column) : column < shape.width := by
  obtain ⟨hlt, -⟩ := List.getElem?_eq_some_iff.1 (getElem?_columns h)
  rwa [length_columns] at hlt

/-- Different symbols have different columns. -/
theorem column?_injective {shape : Shape} {X Y : Symbol} {column : Nat}
    (hX : shape.column? X = some column) (hY : shape.column? Y = some column) : X = Y := by
  have hXY := (getElem?_columns hX).symm.trans (getElem?_columns hY)
  exact Option.some.inj hXY

/-- The symbols of the columns are those that have a column. -/
theorem mem_columns {shape : Shape} {X : Symbol} :
    X ∈ shape.columns ↔ ∃ column, shape.column? X = some column := by
  cases X <;> simp [columns, column?]

/-- The input symbols of a table are those that have a column. -/
theorem mem_inputs {shape : Shape} {X : Symbol} :
    X ∈ shape.inputs ↔ X.isInput = true ∧ ∃ column, shape.column? X = some column := by
  rw [inputs, List.mem_filter, mem_columns, and_comm]

/-- Different columns have different symbols. -/
theorem nodup_columns (shape : Shape) : shape.columns.Nodup := by
  have hterminals : ((List.range shape.terminals).map Symbol.terminal).Nodup :=
    List.nodup_range.map fun _ _ => Symbol.terminal.inj
  have hnonterminals : ((List.range shape.nonterminals).map Symbol.nonterminal).Nodup :=
    List.nodup_range.map fun _ _ => Symbol.nonterminal.inj
  simp [columns, List.nodup_append, hterminals, hnonterminals]

/-- A symbol stands in its column only. -/
theorem column?_of_getElem? {shape : Shape} {X : Symbol} {column : Nat}
    (h : shape.columns[column]? = some X) : shape.column? X = some column := by
  obtain ⟨found, hfound⟩ := mem_columns.1 (List.mem_of_getElem? h)
  have hlt := (List.getElem?_eq_some_iff.1 h).1
  have heq : column = found :=
    (List.getElem?_inj hlt shape.nodup_columns).1 (h.trans (getElem?_columns hfound).symm)
  rw [hfound, heq]

/-- The places of a table, state by state and column by column. -/
def places (shape : Shape) : List (StateId × Symbol) :=
  (List.range shape.states).flatMap fun s => shape.columns.map (s, ·)

/-- The places of a table are the pairs of a state and a column. -/
theorem mem_places {shape : Shape} {s : StateId} {X : Symbol} :
    (s, X) ∈ shape.places ↔ s < shape.states ∧ X ∈ shape.columns := by
  simp [places]

/-- No place is listed twice. -/
theorem nodup_places (shape : Shape) : shape.places.Nodup := by
  refine List.nodup_flatMap.2 ⟨fun s _ => ?_, ?_⟩
  · exact shape.nodup_columns.map fun X Y h => (Prod.mk.inj h).2
  · refine List.pairwise_lt_range.imp fun {s s'} hlt => ?_
    simp [Function.onFun, List.disjoint_left, Nat.ne_of_gt hlt]

end Shape

namespace Table

/-- The rows of the table fit its shape. -/
structure Rectangular (table : Table) : Prop where
  size_eq : table.cells.size = table.shape.states
  row_size : ∀ row ∈ table.cells, row.size = table.shape.width

variable {table after : Table} {s : StateId} {X : Symbol} {action : Action}

/-- A table without actions has a cell at each place. -/
theorem rectangular_empty (kind : TableKind) (shape : Shape) : (empty kind shape).Rectangular := by
  refine ⟨by simp [empty], fun row hrow => ?_⟩
  rw [empty, Array.mem_replicate] at hrow
  rw [hrow.2, Array.size_replicate]
  rfl

/-- The rows of a table are as wide as the table. -/
theorem Rectangular.size_row (h : table.Rectangular) (hs : s < table.cells.size) :
    (table.cells.getD s #[]).size = table.shape.width := by
  have hrow := Array.getElem?_eq_getElem hs
  rw [Array.getD_eq_getD_getElem?, hrow, Option.getD_some,
    h.row_size _ (Array.mem_of_getElem? hrow)]

/-- Every row has the column of a symbol. -/
theorem Rectangular.column_lt {column : Nat} (h : table.Rectangular) (hs : s < table.cells.size)
    (hcolumn : table.shape.column? X = some column) :
    column < (table.cells.getD s #[]).size := by
  rw [h.size_row hs]
  exact Shape.column?_lt hcolumn

/-- The cell of a symbol that has a column. -/
theorem cell_eq {column : Nat} (hcolumn : table.shape.column? X = some column) :
    table.cell s X = ((table.cells[s]?).bind (·[column]?)).getD [] := by
  simp only [cell, hcolumn, Array.getD_eq_getD_getElem?]
  cases table.cells[s]? <;> simp

/-- A row lists the cells of a state. -/
theorem Rectangular.row_eq {s : StateId} (h : table.Rectangular) (hs : s < table.height) :
    table.row s = table.shape.columns.map fun X => (X, table.cell s X) := by
  have hstate := Array.getElem?_eq_getElem hs
  have hsize := h.row_size _ (Array.mem_of_getElem? hstate)
  refine List.ext_getElem ?_ fun i hi hi' => ?_
  · simp [row, Array.getD_eq_getD_getElem?, hstate, hsize]
  · have hlt : i < table.shape.columns.length := by simpa using hi'
    have hcolumn := Shape.column?_of_getElem? (List.getElem?_eq_getElem hlt)
    have hcell : i < table.cells[s].size := by
      rw [hsize]
      simpa using hlt
    simp [row, Array.getD_eq_getD_getElem?, hstate, cell_eq hcolumn, hcell]

/-- There are no actions at a place that the table does not have. -/
theorem Rectangular.cell_eq_nil (h : table.Rectangular) (hplace : (s, X) ∉ table.shape.places) :
    table.cell s X = [] := by
  cases hcolumn : table.shape.column? X with
  | none => simp only [cell, hcolumn]
  | some column =>
    have hX : X ∈ table.shape.columns := Shape.mem_columns.2 ⟨column, hcolumn⟩
    have hs : ¬ s < table.cells.size := fun hs =>
      hplace (Shape.mem_places.2 ⟨h.size_eq ▸ hs, hX⟩)
    simp [cell_eq hcolumn, hs]

/-- The conflicts of a table are those of its cells, place by place. -/
theorem Rectangular.conflicts_eq (h : table.Rectangular) :
    table.conflicts = table.shape.places.filterMap fun place =>
      Conflict.ofCell? place.1 place.2 (table.cell place.1 place.2) := by
  rw [conflicts, height, h.size_eq, Shape.places, List.filterMap_flatMap]
  refine List.flatMap_congr fun s hs => ?_
  have hrow := h.row_eq (s := s) (by rw [height, h.size_eq]; exact List.mem_range.1 hs)
  rw [hrow, List.filterMap_map, List.filterMap_map]
  rfl

/-- All cells of a table are those at its places. -/
theorem Rectangular.allCells_eq (h : table.Rectangular) :
    table.allCells = table.shape.places.map fun place => table.cell place.1 place.2 := by
  have hrows : table.cells.toList =
      (List.range table.cells.size).map (table.cells.getD · #[]) :=
    List.ext_getElem (by simp) fun s hs _ => by simp [Array.length_toList ▸ hs]
  rw [allCells, hrows, List.flatMap_map, Shape.places, List.map_flatMap, h.size_eq]
  refine List.flatMap_congr fun s hs => ?_
  have hheight : s < table.cells.size := by
    rw [h.size_eq]
    exact List.mem_range.1 hs
  have hrow := congrArg (List.map Prod.snd) (h.row_eq hheight)
  have hwidth : (table.cells.getD s #[]).toList.length ≤ table.shape.columns.length := by
    rw [Array.length_toList, h.size_row hheight, Shape.length_columns]
  rw [row, List.map_snd_zip hwidth] at hrow
  rw [hrow, List.map_map, List.map_map]
  rfl

/-- A table is empty if all its cells are. -/
theorem Rectangular.isEmpty_iff (h : table.Rectangular) :
    table.isEmpty = true ↔ ∀ s X, table.cell s X = [] := by
  simp only [isEmpty, h.allCells_eq, List.all_map, List.all_eq_true, Function.comp_apply,
    List.isEmpty_iff, Prod.forall]
  constructor
  · intro hall s X
    by_cases hplace : (s, X) ∈ table.shape.places
    · exact hall s X hplace
    · exact h.cell_eq_nil hplace
  · exact fun hall s X _ => hall s X

/-- The number of conflicts of a table, place by place. -/
theorem Rectangular.conflictCount_eq (h : table.Rectangular) :
    table.conflictCount = table.shape.places.countP fun place =>
      1 < (table.cell place.1 place.2).length := by
  rw [conflictCount, h.allCells_eq, List.countP_map]
  rfl

/-- A row in which some cell has two or more actions. -/
def Contested (table : Table) (s : StateId) : Prop := ∃ X, 2 ≤ (table.cell s X).length

/-- A table has no conflicts if no row has one. -/
theorem Rectangular.conflictCount_eq_zero_iff (h : table.Rectangular) :
    table.conflictCount = 0 ↔ ∀ s, ¬ table.Contested s := by
  simp only [h.conflictCount_eq, List.countP_eq_zero, decide_eq_true_eq, Prod.forall]
  constructor
  · rintro hall s ⟨X, hX⟩
    by_cases hplace : (s, X) ∈ table.shape.places
    · exact hall s X hplace hX
    · rw [h.cell_eq_nil hplace] at hX
      cases hX
  · exact fun hall s X _ hX => hall s ⟨X, hX⟩

/-- The cells of a table without actions are empty. -/
theorem cell_empty (kind : TableKind) (shape : Shape) (s : StateId) (X : Symbol) :
    (empty kind shape).cell s X = [] := by
  cases hcolumn : (empty kind shape).shape.column? X with
  | none => simp only [cell, hcolumn]
  | some column =>
    rw [cell_eq hcolumn]
    simp only [empty, Array.getElem?_replicate]
    split
    · simp only [Option.bind_some, Array.getElem?_replicate]
      split <;> rfl
    · rfl

/-- The actions of a cell are those of one of the listed cells. -/
theorem mem_allCells (h : table.cell s X ≠ []) : table.cell s X ∈ table.allCells := by
  cases hcolumn : table.shape.column? X with
  | none => simp [cell, hcolumn] at h
  | some column =>
    rw [cell_eq hcolumn] at h ⊢
    cases hrow : table.cells[s]? with
    | none => simp [hrow] at h
    | some row =>
      simp only [hrow, Option.bind_some] at h ⊢
      cases hactions : row[column]? with
      | none => simp [hactions] at h
      | some actions =>
        refine List.mem_flatMap.2 ⟨row, Array.mem_toList_iff.2 (Array.mem_of_getElem? hrow), ?_⟩
        exact Array.mem_toList_iff.2 (Array.mem_of_getElem? hactions)

/-- A cell of a table without conflicts has at most one action. -/
theorem eq_of_mem_cell {action' : Action} (htable : table.conflictCount = 0)
    (h : action ∈ table.cell s X) (h' : action' ∈ table.cell s X) : action = action' := by
  rw [conflictCount, List.countP_eq_zero] at htable
  have hshort := htable (table.cell s X) (mem_allCells (List.ne_nil_of_mem h))
  rw [decide_eq_true_eq, Nat.not_lt] at hshort
  obtain ⟨only, honly⟩ :=
    List.length_eq_one_iff.1 (Nat.le_antisymm hshort (List.length_pos_of_mem h))
  rw [honly, List.mem_singleton] at h h'
  rw [h, h']

/-- To add an action to a cell changes this cell only. -/
structure Adds (table : Table) (s : StateId) (X : Symbol) (action : Action) (after : Table) :
    Prop where
  kind_eq : after.kind = table.kind
  shape_eq : after.shape = table.shape
  rectangular : after.Rectangular
  cell_self : after.cell s X = pushUnique (table.cell s X) action
  cell_other : ∀ s' X', ¬ (s' = s ∧ X' = X) → after.cell s' X' = table.cell s' X'

/-- An action that is added is the last one in its cell. -/
theorem adds_of_add (h : table.Rectangular) (hok : table.add s X action = .ok after) :
    table.Adds s X action after := by
  unfold add at hok
  cases hcolumn : table.shape.column? X with
  | none => simp [hcolumn] at hok
  | some column =>
    simp only [hcolumn] at hok
    by_cases hs : s < table.cells.size
    case neg => simp [hs] at hok
    case pos =>
      rw [if_pos hs, if_pos (h.column_lt hs hcolumn)] at hok
      obtain rfl := (Except.ok.inj hok).symm
      have hrow := Array.getElem?_eq_getElem hs
      have hwidth := h.row_size _ (Array.mem_of_getElem? hrow)
      refine ⟨rfl, rfl, ⟨by simpa using h.size_eq, fun row hmem => ?_⟩, ?_, fun s' X' hne => ?_⟩
      · obtain ⟨i, hi⟩ := Array.mem_iff_getElem?.1 hmem
        simp only [Array.getElem?_modify] at hi
        split at hi
        · obtain ⟨old, hold, rfl⟩ := Option.map_eq_some_iff.1 hi
          simpa using h.row_size old (Array.mem_of_getElem? hold)
        · exact h.row_size row (Array.mem_of_getElem? hi)
      · have hcell : column < (table.cells[s]).size := by
          rw [hwidth]
          exact Shape.column?_lt hcolumn
        simp only [cell, hcolumn, Array.getD_eq_getD_getElem?, Array.getElem?_modify, if_true,
          hrow]
        simp [Array.getElem_modify, hcell]
      · cases hcolumn' : table.shape.column? X' with
        | none => simp only [cell, hcolumn']
        | some column' =>
          simp only [cell, hcolumn', Array.getD_eq_getD_getElem?, Array.getElem?_modify]
          split
          · rename_i hs'
            have hother : column ≠ column' := by
              rintro rfl
              exact hne ⟨hs'.symm, Shape.column?_injective hcolumn' hcolumn⟩
            cases table.cells[s']? <;> simp [Array.getElem?_modify, hother]
          · rfl

/-- An action written into a cell. -/
structure Entry where
  state : StateId
  symbol : Symbol
  action : Action
  deriving DecidableEq

/-- A table after the entries of a list were written one after the other. -/
def Writes (table : Table) (entries : List Entry) (after : Table) : Prop :=
  entries.foldlM (fun table entry => table.add entry.state entry.symbol entry.action) table =
    .ok after

/-- The actions of the entries for a cell. -/
def actionsAt (entries : List Entry) (s : StateId) (X : Symbol) : List Action :=
  (entries.filter fun entry => entry.state = s ∧ entry.symbol = X).map (·.action)

/-- The actions at a place are those of the entries for the place. -/
theorem mem_actionsAt {entries : List Entry} :
    action ∈ actionsAt entries s X ↔ ⟨s, X, action⟩ ∈ entries := by
  simp only [actionsAt, List.mem_map, List.mem_filter, decide_eq_true_eq]
  constructor
  · rintro ⟨entry, ⟨hentry, rfl, rfl⟩, rfl⟩
    exact hentry
  · intro hentry
    exact ⟨_, ⟨hentry, rfl, rfl⟩, rfl⟩

/-- Nothing is written without entries. -/
theorem writes_nil (table : Table) : table.Writes [] table := rfl

/-- Entries can be written one after the other. -/
theorem writes_append {entries entries' : List Entry} {last : Table}
    (h : table.Writes entries after) (h' : after.Writes entries' last) :
    table.Writes (entries ++ entries') last := by
  unfold Writes at *
  rw [List.foldlM_append, h]
  exact h'

/-- A pass that writes entries at each of its steps writes all of them. -/
theorem writes_of_foldlM {α : Type} {xs : List α} {step : Table → α → Except Failure Table}
    {entries : α → List Entry}
    (hstep : ∀ x ∈ xs, ∀ table after, step table x = .ok after → table.Writes (entries x) after)
    (hok : xs.foldlM step table = .ok after) : table.Writes (xs.flatMap entries) after := by
  induction xs generalizing table with
  | nil => exact hok
  | cons x xs ih =>
    rw [List.foldlM_cons] at hok
    obtain ⟨middle, hmiddle, hok⟩ := bind_eq_ok.1 hok
    rw [List.flatMap_cons]
    exact writes_append (hstep x List.mem_cons_self _ _ hmiddle)
      (ih (fun y hy => hstep y (List.mem_cons_of_mem x hy)) hok)

/-- A cell holds the actions written into it, in the order of writing and each once. -/
theorem Writes.cell_eq {entries : List Entry} (h : table.Rectangular)
    (hwrites : table.Writes entries after) :
    after.kind = table.kind ∧ after.shape = table.shape ∧ after.Rectangular ∧ ∀ s X,
      after.cell s X = (actionsAt entries s X).foldl pushUnique (table.cell s X) := by
  induction entries generalizing table with
  | nil =>
    obtain rfl := Except.ok.inj hwrites
    exact ⟨rfl, rfl, h, fun s X => rfl⟩
  | cons entry entries ih =>
    unfold Writes at hwrites
    rw [List.foldlM_cons] at hwrites
    obtain ⟨middle, hadd, hwrites⟩ := bind_eq_ok.1 hwrites
    have hadds := adds_of_add h hadd
    obtain ⟨hkind, hshape, hrect, hcells⟩ := ih hadds.rectangular hwrites
    refine ⟨hkind.trans hadds.kind_eq, hshape.trans hadds.shape_eq, hrect, fun s X => ?_⟩
    rw [hcells s X]
    by_cases hat : entry.state = s ∧ entry.symbol = X
    · obtain ⟨rfl, rfl⟩ := hat
      rw [hadds.cell_self]
      simp [actionsAt]
    · rw [hadds.cell_other s X fun heq => hat ⟨heq.1.symm, heq.2.symm⟩]
      simp [actionsAt, hat]

end Table

end ShiftReduce
