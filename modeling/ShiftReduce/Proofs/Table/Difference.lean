import ShiftReduce.Proofs.Table.Contents

/-!
# What look-ahead takes away

One symbol of look-ahead takes reductions away from the cells of the LR(0) table and changes nothing
else. The difference of the two tables lists what was taken away, in the rows in which the LR(0)
table has a conflict. So a grammar that needs no look-ahead has an empty difference, and where the
difference is empty look-ahead settles no conflict.
-/

namespace ShiftReduce

/-- A pass that keeps less gives a part of the list. -/
theorem filterMap_sublist_filterMap {α β : Type} {f f' : α → Option β}
    (h : ∀ x y, f x = some y → f' x = some y) (xs : List α) :
    (xs.filterMap f).Sublist (xs.filterMap f') := by
  induction xs with
  | nil => exact .slnil
  | cons x xs ih =>
    cases hx : f x with
    | some y =>
      rw [List.filterMap_cons_some hx, List.filterMap_cons_some (h x y hx)]
      exact ih.cons_cons y
    | none =>
      rw [List.filterMap_cons_none hx]
      exact ih.trans ((List.sublist_cons_self x xs).filterMap f')

/-- A part of a list and what is left of the list have all its elements. -/
theorem perm_append_filter_notMem {α : Type} [DecidableEq α] {xs ys : List α}
    (h : xs.Sublist ys) (hnodup : ys.Nodup) : (xs ++ ys.filter (· ∉ xs)).Perm ys := by
  have hdisjoint : xs.Disjoint (ys.filter (· ∉ xs)) := by
    intro x hx hleft
    exact of_decide_eq_true (List.mem_filter.1 hleft).2 hx
  have happend := (hnodup.sublist h).append (hnodup.filter _) hdisjoint
  refine (List.perm_ext_iff_of_nodup happend hnodup).2 fun x => ?_
  rw [List.mem_append, List.mem_filter, decide_eq_true_eq]
  constructor
  · rintro (hx | ⟨hx, -⟩)
    · exact h.subset hx
    · exact hx
  · intro hx
    by_cases hpart : x ∈ xs
    · exact .inl hpart
    · exact .inr ⟨hx, hpart⟩

namespace Table

variable {g : Grammar} {items : ItemTable} {dfa : Dfa} {table lr0Table slr1Table : Table}
  {allowed allowed' : RuleId → Except Failure (List Symbol)} {shape : Shape} {s : StateId}
  {X : Symbol}

/-- If rules may be ended on fewer symbols, the actions of a cell become fewer. -/
theorem contents_sublist (hvalid : items.Valid g)
    (h : ∀ r, Allows allowed r X → Allows allowed' r X) :
    (contents g items dfa allowed s X).Sublist (contents g items dfa allowed' s X) := by
  refine (filterMap_sublist_filterMap (fun id action hid => ?_) _).append_left _
  obtain ⟨item, hitem, hcomplete, haction, hallows⟩ := (reductionOn?_eq_some hvalid).1 hid
  exact (reductionOn?_eq_some hvalid).2 ⟨item, hitem, hcomplete, haction, h _ hallows⟩

/-- A row is contested if one of its cells is too long. -/
theorem Rectangular.all_row_iff {row : Array (List Action)} (h : table.Rectangular)
    (hrow : table.cells[s]? = some row) :
    row.all (·.length < 2) = true ↔ ¬ table.Contested s := by
  have hwidth := h.row_size row (Array.mem_of_getElem? hrow)
  simp only [Array.all_eq_true, decide_eq_true_eq, Contested, not_exists, Nat.not_le]
  constructor
  · intro hall X
    cases hcolumn : table.shape.column? X with
    | none => simp [cell, hcolumn]
    | some column =>
      have hlt : column < row.size := hwidth ▸ Shape.column?_lt hcolumn
      simpa [cell_eq hcolumn, hrow, hlt] using hall column hlt
  · intro hall column hlt
    have hin : column < table.shape.columns.length := by
      rw [Shape.length_columns, ← hwidth]
      exact hlt
    have hcolumn := Shape.column?_of_getElem? (List.getElem?_eq_getElem hin)
    simpa [cell_eq hcolumn, hrow, hlt] using hall table.shape.columns[column]

/-- The difference of two tables has the shape of the first and is made row by row. -/
theorem eq_of_diff (hok : diff lr0Table slr1Table = .ok table) :
    lr0Table.shape = slr1Table.shape ∧ table.shape = lr0Table.shape ∧
      table.cells = lr0Table.cells.zipWith removedFromRow slr1Table.cells := by
  unfold diff at hok
  split at hok
  · cases hok
  · split at hok
    · cases hok
    · rename_i hshape
      obtain rfl := Except.ok.inj hok
      exact ⟨not_not.1 hshape, rfl, rfl⟩

/-- The cells of a contested row of the difference have the actions that the second table lacks.
All other cells of the difference are empty. -/
theorem cell_diff [Decidable (lr0Table.Contested s)] (hlr0 : lr0Table.Rectangular)
    (hslr1 : slr1Table.Rectangular) (hok : diff lr0Table slr1Table = .ok table) :
    table.cell s X = if lr0Table.Contested s then
      (lr0Table.cell s X).filter (· ∉ slr1Table.cell s X) else [] := by
  obtain ⟨hshape, hshape', hcells⟩ := eq_of_diff hok
  cases hcolumn : lr0Table.shape.column? X with
  | none => simp [cell, hshape', hcolumn]
  | some column =>
    have hcell : table.cell s X = _ := cell_eq (hshape' ▸ hcolumn)
    have hcell' : slr1Table.cell s X = _ := cell_eq (hshape ▸ hcolumn)
    rw [hcell, hcell', cell_eq hcolumn, hcells, Array.getElem?_zipWith]
    cases hrow : lr0Table.cells[s]? with
    | none => simp
    | some row =>
      cases hrow' : slr1Table.cells[s]? with
      | none =>
        have hs := (Array.getElem?_eq_some_iff.1 hrow).1
        have hs' := Array.getElem?_eq_none_iff.1 hrow'
        rw [hlr0.size_eq] at hs
        rw [hslr1.size_eq, ← hshape] at hs'
        omega
      | some row' =>
        have hlt : column < row.size := by
          rw [hlr0.row_size row (Array.mem_of_getElem? hrow)]
          exact Shape.column?_lt hcolumn
        have hlt' : column < row'.size := by
          rw [hslr1.row_size row' (Array.mem_of_getElem? hrow'), ← hshape]
          exact Shape.column?_lt hcolumn
        simp only [Option.bind_some, removedFromRow, hlr0.all_row_iff hrow, ite_not]
        split
        · simp [hlt, hlt']
        · simp [hlt]

end Table

namespace Compilation

variable {options : ReadOptions} {source : String} {c : Compilation} {s : StateId} {X : Symbol}

/-- How the cells of the three tables of a compilation belong together. -/
structure Narrows (c : Compilation) (s : StateId) (X : Symbol) : Prop where
  /-- Look-ahead takes actions away and keeps the order of the others. -/
  sublist : (c.slr1.cell s X).Sublist (c.lr0.cell s X)
  /-- Look-ahead does not change where a state moves. -/
  moves_eq : (c.slr1.cell s X).filter (!·.isReduction) = (c.lr0.cell s X).filter (!·.isReduction)
  /-- In a contested row the difference has what was taken away. -/
  diff_eq : c.lr0.Contested s →
    c.diff.cell s X = (c.lr0.cell s X).filter (· ∉ c.slr1.cell s X)
  perm : c.lr0.Contested s → (c.slr1.cell s X ++ c.diff.cell s X).Perm (c.lr0.cell s X)
  /-- Other rows of the difference are empty. -/
  diff_eq_nil : ¬ c.lr0.Contested s → c.diff.cell s X = []
  isReduction : ∀ action ∈ c.diff.cell s X, action.isReduction = true

/-- Where the difference has nothing and the row is contested, look-ahead changes nothing. -/
theorem Narrows.eq_of_diff_eq_nil (h : c.Narrows s X) (hcontested : c.lr0.Contested s)
    (hdiff : c.diff.cell s X = []) : c.slr1.cell s X = c.lr0.cell s X := by
  have hperm := h.perm hcontested
  rw [hdiff, List.append_nil] at hperm
  exact h.sublist.eq_of_length hperm.length_eq

namespace Built

/-- Symbols that let a rule end are input symbols of the table. -/
theorem allows_inputs_of_followInputs {r : RuleId} (h : c.Built options source)
    (hallows : Table.Allows (Table.followInputs c.grammar c.sets) r X) :
    Table.Allows (fun _ => .ok (Table.shapeOf c.grammar c.dfa).inputs) r X := by
  obtain ⟨hinput, hends⟩ := slr1_allows_iff.1 hallows
  refine (lr0_allows_iff ?_).2 ⟨hinput, trivial⟩
  unfold LetsEnd at hends
  split at hends
  · rw [hends]
    exact Grammar.endOfInput_mem_columns c.grammar
  · obtain ⟨rule, follows, -, hfollows, hX⟩ := hends
    rw [Lookahead.follow, entry_eq_ok] at hfollows
    rw [← SetFamily.elements_eq hfollows] at hX
    exact Grammar.mem_columns_of_mem_inputSymbols (h.closed.follows.within.subset _ hX)

/-- The three tables of a compilation belong together in each cell. -/
theorem narrows (h : c.Built options source) (s : StateId) (X : Symbol) : c.Narrows s X := by
  classical
  have hvalid := h.canonical.valid
  have hsublist : (c.slr1.cell s X).Sublist (c.lr0.cell s X) := by
    rw [h.lr0_cell_eq, h.slr1_cell_eq]
    exact Table.contents_sublist hvalid fun r => h.allows_inputs_of_followInputs
  have hmoves : (c.slr1.cell s X).filter (!·.isReduction) =
      (c.lr0.cell s X).filter (!·.isReduction) := by
    rw [h.lr0_cell_eq, h.slr1_cell_eq, Table.filter_contents hvalid, Table.filter_contents hvalid]
  have hdiff := Table.cell_diff (s := s) (X := X) (h.shaped c.lr0 (by simp)).toRectangular
    (h.shaped c.slr1 (by simp)).toRectangular h.diff
  refine ⟨hsublist, hmoves, fun hcontested => ?_, fun hcontested => ?_, fun hcontested => ?_,
    fun action haction => ?_⟩
  · rw [hdiff, if_pos hcontested]
  · rw [hdiff, if_pos hcontested]
    exact perm_append_filter_notMem hsublist (h.drives_lr0.nodup s X)
  · rw [hdiff, if_neg hcontested]
  · rw [hdiff] at haction
    split at haction
    · -- An action that is no reduction would be in both cells.
      obtain ⟨hlr0, hslr1⟩ := List.mem_filter.1 haction
      by_contra hmove
      rw [Bool.not_eq_true] at hmove
      have hmem : action ∈ (c.lr0.cell s X).filter (!·.isReduction) :=
        List.mem_filter.2 ⟨hlr0, by rw [hmove]; rfl⟩
      rw [← hmoves] at hmem
      exact of_decide_eq_true hslr1 (List.mem_filter.1 hmem).1
    · cases haction

/-- A grammar needs no look-ahead if no row of its LR(0) table is contested. -/
theorem isLr0_iff (h : c.Built options source) :
    c.isLr0 = true ↔ ∀ s, ¬ c.lr0.Contested s := by
  rw [isLr0, beq_iff_eq, (h.shaped c.lr0 (by simp)).conflictCount_eq_zero_iff]

/-- One symbol of look-ahead is enough if no row of the SLR(1) table is contested. -/
theorem isSlr1_iff (h : c.Built options source) :
    c.isSlr1 = true ↔ ∀ s, ¬ c.slr1.Contested s := by
  rw [isSlr1, beq_iff_eq, (h.shaped c.slr1 (by simp)).conflictCount_eq_zero_iff]

/-- Rows become contested by look-ahead only if they were before. -/
theorem contested_of_slr1 (h : c.Built options source) (hs : c.slr1.Contested s) :
    c.lr0.Contested s := by
  obtain ⟨X, hX⟩ := hs
  exact ⟨X, hX.trans (h.narrows s X).sublist.length_le⟩

/-- If the difference is empty, look-ahead leaves contested rows contested. -/
theorem contested_of_isEmpty (h : c.Built options source) (hempty : c.diff.isEmpty = true)
    (hs : c.lr0.Contested s) : c.slr1.Contested s := by
  obtain ⟨X, hX⟩ := hs
  have hdiff := (h.shaped c.diff (by simp)).isEmpty_iff.1 hempty s X
  have hsame := (h.narrows s X).eq_of_diff_eq_nil ⟨X, hX⟩ hdiff
  exact ⟨X, hsame ▸ hX⟩

/-- If the difference is empty, look-ahead settles no conflict. -/
theorem conflicts_eq_of_isEmpty (h : c.Built options source) (hempty : c.diff.isEmpty = true) :
    c.lr0.conflicts = c.slr1.conflicts := by
  have hlr0 := h.shaped c.lr0 (by simp)
  have hslr1 := h.shaped c.slr1 (by simp)
  rw [hlr0.conflicts_eq, hslr1.conflicts_eq, hlr0.shape_eq, hslr1.shape_eq]
  refine List.filterMap_congr fun ⟨s, X⟩ _ => ?_
  by_cases hcontested : c.lr0.Contested s
  · have hdiff := ((h.shaped c.diff (by simp)).isEmpty_iff).1 hempty s X
    rw [(h.narrows s X).eq_of_diff_eq_nil hcontested hdiff]
  · -- The difference says nothing about this row, but neither table has a conflict in it.
    have hshort : (c.lr0.cell s X).length < 2 := not_le.1 fun hX => hcontested ⟨X, hX⟩
    have hshort' := (h.narrows s X).sublist.length_le.trans_lt hshort
    simp [Conflict.ofCell?, hshort, hshort']

end Built

/-- One symbol of look-ahead takes reductions away and nothing else, and the difference is what was
taken from contested rows. So a grammar that needs no look-ahead has an empty difference, look-ahead
without a difference leaves all conflicts, and it makes a difference where it settles all. -/
theorem lookahead_narrows (h : compile options source = .ok c) :
    (∀ s X, c.Narrows s X) ∧
    (c.isLr0 = true → c.isSlr1 = true ∧ c.diff.isEmpty = true) ∧
    (c.diff.isEmpty = true → c.lr0.conflicts = c.slr1.conflicts) ∧
    (c.isSlr1 = true → c.isLr0 = false → c.diff.isEmpty = false) := by
  have hbuilt := built_of_compile h
  refine ⟨hbuilt.narrows, fun hlr0 => ?_, hbuilt.conflicts_eq_of_isEmpty, fun hslr1 hlr0 => ?_⟩
  · have hfree := hbuilt.isLr0_iff.1 hlr0
    refine ⟨hbuilt.isSlr1_iff.2 fun s hs => hfree s (hbuilt.contested_of_slr1 hs), ?_⟩
    refine (hbuilt.shaped c.diff (by simp)).isEmpty_iff.2 fun s X => ?_
    exact (hbuilt.narrows s X).diff_eq_nil (hfree s)
  · by_contra hdiff
    rw [Bool.not_eq_false] at hdiff
    have hfree : c.isLr0 = true := hbuilt.isLr0_iff.2 fun s hs =>
      hbuilt.isSlr1_iff.1 hslr1 s (hbuilt.contested_of_isEmpty hdiff hs)
    rw [hlr0] at hfree
    cases hfree

/-- For the rules `S -> 'a' | 'a' 'b'`, look-ahead settles the one conflict, in state 1 on `b`. In
the same row it also takes the reduction on `a` away, which the difference has. -/
theorem lookahead_narrows_of_short_and_long : ∃ c, compile {} "S -> 'a' | 'a' 'b' ;" = .ok c ∧
    c.isSlr1 = true ∧ c.isLr0 = false ∧ c.diff.isEmpty = false ∧ c.lr0.Contested 1 ∧
    (c.lr0.cell 1 (.terminal 0)).length < 2 ∧ c.diff.cell 1 (.terminal 0) = [.reduce 1] := by
  have hsource : (compile {} "S -> 'a' | 'a' 'b' ;").toOption.map (fun c =>
      (c.isSlr1, c.isLr0, c.lr0.cell 1 (.terminal 0), c.lr0.cell 1 (.terminal 1),
        c.slr1.cell 1 (.terminal 0))) =
      some (true, false, [.reduce 1], [.shift 3, .reduce 1], []) := by
    decide +kernel
  obtain ⟨c, hok, hparts⟩ := Option.map_eq_some_iff.1 hsource
  simp only [Prod.mk.injEq] at hparts
  obtain ⟨hisSlr1, hisLr0, hlr0, hconflict, hslr1⟩ := hparts
  have hcompile := eq_ok_of_toOption hok
  obtain ⟨hnarrows, -, -, hsettles⟩ := lookahead_narrows hcompile
  have hcontested : c.lr0.Contested 1 := ⟨.terminal 1, by rw [hconflict]; decide⟩
  refine ⟨c, hcompile, hisSlr1, hisLr0, hsettles hisSlr1 hisLr0, hcontested, ?_, ?_⟩
  · rw [hlr0]
    decide
  · rw [(hnarrows 1 (.terminal 0)).diff_eq hcontested, hlr0, hslr1]
    decide

end Compilation

end ShiftReduce
