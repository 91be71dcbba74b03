import ShiftReduce.Proofs.Compilation.Safety
import ShiftReduce.Proofs.Dfa.Collection

/-!
# What each cell holds

A cell of a filled table is a list that can be written down: first the action of the move of its
state, if there is one, and then the reductions of the complete items that may be ended on its
symbol, in the order of the numbers of these items. From this list the actions of each cell and
their order can be read off.
-/

namespace ShiftReduce

/-- In a pass over numbered elements in which only one number gives something, it gives all. -/
theorem flatMap_zipIdx_of_ne {α β : Type} {xs : List α} {step : α × Nat → List β} {i : Nat}
    (h : ∀ x j, j ≠ i → step (x, j) = []) :
    xs.zipIdx.flatMap step = xs[i]?.elim [] fun x => step (x, i) := by
  induction xs using List.reverseRecOn with
  | nil => rfl
  | append_singleton xs x ih =>
    rw [List.zipIdx_append, List.flatMap_append, ih]
    by_cases hi : i = xs.length
    · subst hi
      simp
    · have hlast : step (x, xs.length) = [] := h x xs.length (Ne.symm hi)
      rcases Nat.lt_or_gt_of_ne hi with hlt | hgt
      · simp [hlast, List.getElem?_append_left hlt]
      · have hnone : xs[i]? = none := List.getElem?_eq_none (by omega)
        have hnone' : (xs ++ [x])[i]? = none := List.getElem?_eq_none (by simp; omega)
        simp [hlast, hnone, hnone']

/-- The numbers of the items of a state. A state that does not exist has none. -/
def Dfa.idsAt (dfa : Dfa) (s : StateId) : List ItemId := dfa.states[s]?.elim [] (·.items.ids)

/-- The numbers of the items of a state are ascending. -/
theorem Dfa.ascending_idsAt (dfa : Dfa) (s : StateId) : (dfa.idsAt s).Pairwise (· < ·) := by
  unfold idsAt
  cases dfa.states[s]? with
  | none => exact .nil
  | some state => exact state.items.ascending

namespace Table

variable {g : Grammar} {items : ItemTable} {dfa : Dfa} {kind : TableKind}
  {allowed : RuleId → Except Failure (List Symbol)} {table : Table} {s : StateId} {X : Symbol}
  {action : Action} {id : ItemId}

/-- The action of the move of a state on a symbol. -/
def moveAction? (dfa : Dfa) (s : StateId) (X : Symbol) : Option Action :=
  (dfa.move? s X).bind fun t => (edgeAction ⟨s, X, t⟩).toOption

/-- The reduction of an item, if its dot is at the end and its rule may be ended on the symbol. -/
def reductionOn? (g : Grammar) (items : ItemTable)
    (allowed : RuleId → Except Failure (List Symbol)) (X : Symbol) (id : ItemId) : Option Action :=
  match items.get id with
  | .ok item =>
    match item.isReduction g, allowed item.rule with
    | .ok true, .ok symbols => if X ∈ symbols then some (reduction item.rule) else none
    | _, _ => none
  | .error _ => none

/-- The list of the actions of a cell: a move, and then reductions by ascending item numbers. -/
def contents (g : Grammar) (items : ItemTable) (dfa : Dfa)
    (allowed : RuleId → Except Failure (List Symbol)) (s : StateId) (X : Symbol) : List Action :=
  (moveAction? dfa s X).toList ++ (dfa.idsAt s).filterMap (reductionOn? g items allowed X)

/-- An action that ends a rule is a reduction. -/
@[simp] theorem isReduction_reduction (r : RuleId) : (reduction r).isReduction = true := by
  unfold reduction
  split <;> rfl

/-- Different rules are ended by different actions. -/
theorem reduction_injective {r r' : RuleId} (h : reduction r = reduction r') : r = r' := by
  unfold reduction at h
  split at h <;> split at h <;> simp_all

/-- The action of a transition is no reduction. -/
theorem isReduction_of_edgeAction {edge : Edge} (h : edgeAction edge = .ok action) :
    action.isReduction = false := by
  cases action with
  | reduce r => exact absurd h edgeAction_ne_reduce
  | accept => exact absurd h edgeAction_ne_accept
  | _ => rfl

/-- The move of a state on a symbol is the action of its transition. -/
theorem moveAction?_eq_some : moveAction? dfa s X = some action ↔
    ∃ t, dfa.move? s X = some t ∧ edgeAction ⟨s, X, t⟩ = .ok action := by
  have hok : ∀ result : Except Failure Action,
      result.toOption = some action ↔ result = .ok action := by
    rintro (failure | found)
    · simp [Except.toOption]
    · simp [Except.toOption]
  simp [moveAction?, Option.bind_eq_some_iff, hok]

/-- A reduction comes from the item with the given number. -/
theorem reductionOn?_eq_some (h : items.Valid g) :
    reductionOn? g items allowed X id = some action ↔ ∃ item, items.items[id]? = some item ∧
      item.Complete g ∧ action = reduction item.rule ∧ Allows allowed item.rule X := by
  cases hid : items.items[id]? with
  | none => simp [reductionOn?, ItemTable.get, entry, hid]
  | some item =>
    obtain ⟨done, hdone, hcomplete⟩ := (h.in_of_getElem? hid).isReduction_eq
    simp only [reductionOn?, ItemTable.get_eq hid, hdone, Option.some.injEq, exists_eq_left']
    cases done with
    | false =>
      have hnot : ¬ item.Complete g := fun hitem => Bool.false_ne_true (hcomplete.2 hitem)
      simp [hnot]
    | true =>
      unfold Allows
      cases allowed item.rule with
      | error failure => simp
      | ok symbols => simp [hcomplete.1, and_comm, eq_comm]

/-- The entries of an item for a cell of its state are copies of its reduction. -/
theorem mem_actionsAt_itemEntries (h : items.Valid g) :
    action ∈ actionsAt (itemEntries g items allowed s id) s X ↔
      reductionOn? g items allowed X id = some action := by
  rw [mem_actionsAt, reductionOn?_eq_some h]
  cases hid : items.items[id]? with
  | none => simp [itemEntries, ItemTable.get, entry, hid]
  | some item =>
    rw [mem_itemEntries (h.in_of_getElem? hid) hid]
    simp

/-- The entries of an item are for cells of its state. -/
theorem state_of_mem_itemEntries {entry : Entry}
    (h : entry ∈ itemEntries g items allowed s id) : entry.state = s := by
  unfold itemEntries at h
  split at h
  · split at h
    · obtain ⟨Y, -, rfl⟩ := List.mem_map.1 h
      rfl
    · cases h
  · cases h

/-- The entries of a cell that come from a pass are those of its steps. -/
theorem actionsAt_flatMap {α : Type} (xs : List α) (step : α → List Entry) (s : StateId)
    (X : Symbol) :
    actionsAt (xs.flatMap step) s X = xs.flatMap fun x => actionsAt (step x) s X := by
  simp only [actionsAt, List.filter_flatMap, List.map_flatMap]

/-- The actions of entries at a place are in the order of the entries. -/
theorem actionsAt_append (first second : List Entry) (s : StateId) (X : Symbol) :
    actionsAt (first ++ second) s X = actionsAt first s X ++ actionsAt second s X := by
  simp only [actionsAt, List.filter_append, List.map_append]

/-- A cell gets the reductions of the items of its own state. -/
theorem actionsAt_states (dfa : Dfa) (s : StateId) (X : Symbol) :
    actionsAt (dfa.states.toList.zipIdx.flatMap fun state =>
        state.1.items.ids.flatMap (itemEntries g items allowed state.2)) s X =
      (dfa.idsAt s).flatMap fun id => actionsAt (itemEntries g items allowed s id) s X := by
  rw [actionsAt_flatMap, flatMap_zipIdx_of_ne, Array.getElem?_toList, Dfa.idsAt]
  · cases dfa.states[s]? with
    | none => rfl
    | some state => exact actionsAt_flatMap _ _ s X
  · intro state s' hne
    rw [List.eq_nil_iff_forall_not_mem]
    intro action hmem
    obtain ⟨id, -, hentry⟩ := List.mem_flatMap.1 (mem_actionsAt.1 hmem)
    exact hne (state_of_mem_itemEntries hentry).symm

/-- Different items give a symbol different reductions. -/
theorem reductionOn?_injective {id' : ItemId} (h : items.Valid g)
    (hid : reductionOn? g items allowed X id = some action)
    (hid' : reductionOn? g items allowed X id' = some action) : id = id' := by
  obtain ⟨item, hitem, ⟨rule, hrule, hdot⟩, haction, -⟩ := (reductionOn?_eq_some h).1 hid
  obtain ⟨item', hitem', ⟨rule', hrule', hdot'⟩, haction', -⟩ := (reductionOn?_eq_some h).1 hid'
  have hsame : item.rule = item'.rule := reduction_injective (haction.symm.trans haction')
  rw [hsame] at hrule
  obtain rfl := Option.some.inj (hrule.symm.trans hrule')
  have heq : item = item' := by
    cases item
    cases item'
    simp_all
  exact h.id_unique hitem (heq ▸ hitem')

/-- A move is no reduction. -/
theorem isReduction_of_moveAction? (h : moveAction? dfa s X = some action) :
    action.isReduction = false := by
  obtain ⟨t, -, haction⟩ := moveAction?_eq_some.1 h
  exact isReduction_of_edgeAction haction

/-- The action of a complete item is a reduction. -/
theorem isReduction_of_reductionOn? (hvalid : items.Valid g)
    (h : reductionOn? g items allowed X id = some action) : action.isReduction = true := by
  obtain ⟨item, -, -, rfl, -⟩ := (reductionOn?_eq_some hvalid).1 h
  exact isReduction_reduction item.rule

/-- The reductions of a cell are listed by ascending item numbers. -/
theorem pairwise_reductions (dfa : Dfa) (s : StateId) (X : Symbol) :
    ((dfa.idsAt s).filterMap (reductionOn? g items allowed X)).Pairwise fun a b =>
      ∃ i ∈ dfa.idsAt s, ∃ j ∈ dfa.idsAt s, i < j ∧ reductionOn? g items allowed X i = some a ∧
        reductionOn? g items allowed X j = some b := by
  rw [List.pairwise_filterMap]
  exact (dfa.ascending_idsAt s).imp_of_mem fun {i j} hi hj hlt a ha b hb =>
    ⟨i, hi, j, hj, hlt, ha, hb⟩

/-- No action is listed twice. -/
theorem nodup_contents (h : items.Valid g) (dfa : Dfa) (s : StateId) (X : Symbol) :
    (contents g items dfa allowed s X).Nodup := by
  refine List.nodup_append.2 ⟨?_, ?_, fun a ha b hb => ?_⟩
  · cases moveAction? dfa s X <;> simp
  · refine (pairwise_reductions dfa s X).imp fun {a b} ⟨i, _, j, _, hlt, hi, hj⟩ hab => ?_
    rw [hab] at hi
    exact Nat.ne_of_lt hlt (reductionOn?_injective h hi hj)
  · rintro rfl
    obtain ⟨id, -, hid⟩ := List.mem_filterMap.1 hb
    have hmove := isReduction_of_moveAction? (Option.mem_toList.1 ha)
    rw [isReduction_of_reductionOn? h hid] at hmove
    cases hmove

/-- The actions of a cell that are no reductions are the move of the state. -/
theorem filter_contents (hvalid : items.Valid g) :
    (contents g items dfa allowed s X).filter (!·.isReduction) =
      (moveAction? dfa s X).toList := by
  have hmove : (moveAction? dfa s X).toList.filter (!·.isReduction) =
      (moveAction? dfa s X).toList := by
    refine List.filter_eq_self.2 fun action haction => ?_
    rw [isReduction_of_moveAction? (Option.mem_toList.1 haction)]
    rfl
  have hreductions : ((dfa.idsAt s).filterMap (reductionOn? g items allowed X)).filter
      (!·.isReduction) = [] := by
    refine List.filter_eq_nil_iff.2 fun action haction => ?_
    obtain ⟨id, -, hid⟩ := List.mem_filterMap.1 haction
    simp [isReduction_of_reductionOn? hvalid hid]
  rw [contents, List.filter_append, hmove, hreductions, List.append_nil]

/-- A cell of a filled table holds its contents, in their order. -/
theorem cell_eq_contents (h : dfa.Canonical g items)
    (hok : fill kind g items dfa allowed = .ok table) (s : StateId) (X : Symbol) :
    table.cell s X = contents g items dfa allowed s X := by
  obtain ⟨-, -, -, hcells⟩ := (writes_of_fill hok).cell_eq (rectangular_empty _ _)
  have hmove : ∀ action, action ∈ actionsAt (dfa.edges.toList.flatMap edgeEntries) s X ↔
      moveAction? dfa s X = some action := by
    intro action
    rw [mem_actionsAt, mem_edges_flatMap h, moveAction?_eq_some]
  -- The entries of transitions come first, then those of the items by their numbers. Copies of an
  -- entry do not change the cell.
  rw [hcells s X, cell_empty, entries, actionsAt_append, actionsAt_states, List.foldl_append,
    foldl_pushUnique_copies hmove fun _ _ => List.not_mem_nil, List.nil_append]
  exact foldl_pushUnique_flatMap (fun id _ action => mem_actionsAt_itemEntries h.valid)
    (nodup_contents h.valid dfa s X)

end Table

namespace Compilation

variable {options : ReadOptions} {source : String} {c : Compilation} {table : Table} {s : StateId}
  {X : Symbol} {r : RuleId} {allowed : RuleId → Except Failure (List Symbol)}

/-- A state has the item of a rule with the dot at the end. -/
def Finishes (c : Compilation) (s : StateId) (r : RuleId) : Prop :=
  ∃ rule, c.grammar.rules[r]? = some rule ∧ ⟨r, rule.length⟩ ∈ c.dfa.itemsAt c.items s

/-- One symbol of look-ahead lets a rule be ended: the symbol is in FOLLOW of the head of the rule,
and for the augmented rule it is the end of input. -/
def LetsEnd (c : Compilation) (X : Symbol) (r : RuleId) : Prop :=
  if r = augmentedRule then X = .endOfInput
  else ∃ rule follows, c.grammar.rules[r]? = some rule ∧
    c.sets.follow (.nonterminal rule.head) = .ok follows ∧ X ∈ follows

/-- The item with the given number has the dot at the end, and the action ends its rule. -/
def EndsItem (c : Compilation) (id : ItemId) (action : Action) : Prop :=
  ∃ item, c.items.items[id]? = some item ∧ item.Complete c.grammar ∧
    action = Table.reduction item.rule

/-- The order of the actions in a cell: only reductions come after another action, and among
reductions the numbers of their items in the state ascend. -/
def Precedes (c : Compilation) (s : StateId) (a b : Action) : Prop :=
  b.isReduction = true ∧ (a.isReduction = true → ∃ i ∈ c.dfa.idsAt s, ∃ j ∈ c.dfa.idsAt s,
    i < j ∧ c.EndsItem i a ∧ c.EndsItem j b)

/-- What the cell of a state and a symbol should hold, given which rules may be ended there. -/
structure Prescribes (c : Compilation) (s : StateId) (X : Symbol) (ends : RuleId → Prop)
    (actions : List Action) : Prop where
  nodup : actions.Nodup
  shift_iff : ∀ t, .shift t ∈ actions ↔ X.isInput = true ∧ c.dfa.move? s X = some t
  goto_iff : ∀ t, .goto t ∈ actions ↔ X.isNonterminal = true ∧ c.dfa.move? s X = some t
  reduce_iff : ∀ r, .reduce r ∈ actions ↔
    X.isInput = true ∧ r ≠ augmentedRule ∧ c.Finishes s r ∧ ends r
  accept_iff : .accept ∈ actions ↔ X.isInput = true ∧
    ⟨augmentedRule, 2⟩ ∈ c.dfa.itemsAt c.items s ∧ ends augmentedRule
  ordered : actions.Pairwise (c.Precedes s)

/-- A state finishes a rule if it has a complete item of the rule. -/
theorem finishes_iff : c.Finishes s r ↔
    ∃ item ∈ c.dfa.itemsAt c.items s, item.Complete c.grammar ∧ item.rule = r := by
  constructor
  · rintro ⟨rule, hrule, hitem⟩
    exact ⟨_, hitem, ⟨rule, hrule, rfl⟩, rfl⟩
  · rintro ⟨⟨_, _⟩, hitem, ⟨rule, hrule, rfl⟩, rfl⟩
    exact ⟨rule, hrule, hitem⟩

/-- The augmented rule has two symbols. -/
theorem finishes_augmentedRule_iff (hg : c.grammar.Linked) :
    c.Finishes s augmentedRule ↔ ⟨augmentedRule, 2⟩ ∈ c.dfa.itemsAt c.items s := by
  constructor
  · rintro ⟨rule, hrule, hitem⟩
    obtain rfl := Option.some.inj (hg.augmented.symm.trans hrule)
    exact hitem
  · intro hitem
    exact ⟨_, hg.augmented, hitem⟩

/-- The contents of a cell are in the order of the actions in a cell. -/
theorem ordered_contents (hvalid : c.items.Valid c.grammar) (s : StateId) (X : Symbol) :
    (Table.contents c.grammar c.items c.dfa allowed s X).Pairwise (c.Precedes s) := by
  have hends {id : ItemId} {action : Action}
      (h : Table.reductionOn? c.grammar c.items allowed X id = some action) :
      c.EndsItem id action := by
    obtain ⟨item, hitem, hcomplete, haction, -⟩ := (Table.reductionOn?_eq_some hvalid).1 h
    exact ⟨item, hitem, hcomplete, haction⟩
  refine List.pairwise_append.2 ⟨?_, ?_, fun a ha b hb => ?_⟩
  · cases Table.moveAction? c.dfa s X <;> simp
  · refine (Table.pairwise_reductions c.dfa s X).imp fun {a b} ⟨i, hi, j, hj, hlt, ha, hb⟩ => ?_
    exact ⟨Table.isReduction_of_reductionOn? hvalid hb, fun _ =>
      ⟨i, hi, j, hj, hlt, hends ha, hends hb⟩⟩
  · obtain ⟨id, -, hid⟩ := List.mem_filterMap.1 hb
    refine ⟨Table.isReduction_of_reductionOn? hvalid hid, fun hreduction => ?_⟩
    rw [Table.isReduction_of_moveAction? (Option.mem_toList.1 ha)] at hreduction
    cases hreduction

namespace Built

/-- The cells of the LR(0) table hold their contents. -/
theorem lr0_cell_eq (h : c.Built options source) (s : StateId) (X : Symbol) :
    c.lr0.cell s X = Table.contents c.grammar c.items c.dfa
      (fun _ => .ok (Table.shapeOf c.grammar c.dfa).inputs) s X :=
  Table.cell_eq_contents h.canonical h.lr0 s X

/-- The cells of the SLR(1) table hold their contents. -/
theorem slr1_cell_eq (h : c.Built options source) (s : StateId) (X : Symbol) :
    c.slr1.cell s X = Table.contents c.grammar c.items c.dfa
      (Table.followInputs c.grammar c.sets) s X :=
  Table.cell_eq_contents h.canonical h.slr1 s X

/-- In the LR(0) table every rule can be ended on every input symbol. -/
theorem lr0_allows_iff (hX : X ∈ c.grammar.columns) :
    Table.Allows (fun _ => .ok (Table.shapeOf c.grammar c.dfa).inputs) r X ↔
      X.isInput = true ∧ True := by
  rw [Table.allows_inputs, ← Shape.mem_columns]
  exact and_congr_right fun _ => iff_true_intro hX

/-- In the SLR(1) table a rule is ended on the symbols that let it end. -/
theorem slr1_allows_iff :
    Table.Allows (Table.followInputs c.grammar c.sets) r X ↔ X.isInput = true ∧ c.LetsEnd X r := by
  rw [Table.allows_followInputs, LetsEnd]
  split
  · constructor
    · rintro rfl
      exact ⟨rfl, rfl⟩
    · exact And.right
  · rfl

/-- A table that drives the machine and has the contents of its cells holds what it should. -/
theorem prescribes {ends : RuleId → Prop} (h : c.Built options source)
    (hdrives : table.Drives c.grammar c.items c.dfa allowed)
    (hcell : table.cell s X = Table.contents c.grammar c.items c.dfa allowed s X)
    (hallows : ∀ r, Table.Allows allowed r X ↔ X.isInput = true ∧ ends r) :
    c.Prescribes s X ends (table.cell s X) where
  nodup := hdrives.nodup s X
  shift_iff t := hdrives.shift_iff
  goto_iff t := hdrives.goto_iff
  reduce_iff r := by
    rw [hdrives.reduce_iff, hallows, finishes_iff]
    tauto
  accept_iff := by
    rw [hdrives.accept_iff, hallows, ← finishes_iff,
      finishes_augmentedRule_iff h.wellFormed.toLinked]
    tauto
  ordered := by
    rw [hcell]
    exact ordered_contents h.canonical.valid s X

end Built

/-- In a compilation every cell holds exactly the actions that it should, each once, with the shift
or goto first and reductions by ascending item numbers. The LR(0) table ends rules on every input
symbol, and the SLR(1) table on those that let them end. -/
theorem cells_exact (h : compile options source = .ok c) :
    ∀ s < c.dfa.states.size, ∀ X ∈ c.grammar.columns,
      c.Prescribes s X (fun _ => True) (c.lr0.cell s X) ∧
      c.Prescribes s X (c.LetsEnd X) (c.slr1.cell s X) := by
  intro s _ X hX
  have hbuilt := built_of_compile h
  exact ⟨hbuilt.prescribes hbuilt.drives_lr0 (hbuilt.lr0_cell_eq s X) fun _ =>
      Built.lr0_allows_iff hX,
    hbuilt.prescribes hbuilt.drives_slr1 (hbuilt.slr1_cell_eq s X) fun _ => Built.slr1_allows_iff⟩

/-- For the rules `S -> 'a' | 'a' 'b'`, state 1 comes after `a`. In its cell for `b` the LR(0) table
shifts and reduces, in this order, and the SLR(1) table only shifts, so that `b` does not let the
rule `S -> 'a'` end. -/
theorem cells_exact_of_short_and_long : ∃ c, compile {} "S -> 'a' | 'a' 'b' ;" = .ok c ∧
    1 < c.dfa.states.size ∧ .terminal 1 ∈ c.grammar.columns ∧
    c.Prescribes 1 (.terminal 1) (fun _ => True) [.shift 3, .reduce 1] ∧
    c.Prescribes 1 (.terminal 1) (c.LetsEnd (.terminal 1)) [.shift 3] ∧
    c.Finishes 1 1 ∧ ¬ c.LetsEnd (.terminal 1) 1 := by
  have hsource : (compile {} "S -> 'a' | 'a' 'b' ;").toOption.map (fun c =>
      (c.dfa.states.size, c.grammar.terminals.size, c.lr0.cell 1 (.terminal 1),
        c.slr1.cell 1 (.terminal 1))) = some (5, 2, [.shift 3, .reduce 1], [.shift 3]) := by
    decide +kernel
  obtain ⟨c, hok, hparts⟩ := Option.map_eq_some_iff.1 hsource
  simp only [Prod.mk.injEq] at hparts
  obtain ⟨hstates, hterminals, hlr0, hslr1⟩ := hparts
  have hcompile := eq_ok_of_toOption hok
  have hstate : 1 < c.dfa.states.size := by omega
  have hcolumn : .terminal 1 ∈ c.grammar.columns := by simp [hterminals]
  obtain ⟨hfirst, hsecond⟩ := cells_exact hcompile 1 hstate (.terminal 1) hcolumn
  rw [hlr0] at hfirst
  rw [hslr1] at hsecond
  have hreduce := (hfirst.reduce_iff 1).1 (by simp)
  refine ⟨c, hcompile, hstate, hcolumn, hfirst, hsecond, hreduce.2.2.1, fun hends => ?_⟩
  have hmem := (hsecond.reduce_iff 1).2 ⟨hreduce.1, hreduce.2.1, hreduce.2.2.1, hends⟩
  simp at hmem

end Compilation

end ShiftReduce
