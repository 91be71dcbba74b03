import ShiftReduce.Dfa
import ShiftReduce.Proofs.Bounds.Curtail

/-!
# Automata under bounds

A table of items takes room for its items, and an automaton for its states and transitions. Under
bounds both automata are built as without bounds, up to the item, the state or the transition that
would pass a bound.
-/

namespace ShiftReduce

open Charged

variable {g : Grammar} {bounds : Bounds}

/-- A table takes room for its items and carries its bounds. -/
instance : Charged ItemTable where
  load table := .single .items table.size
  under bounds table := { table with bounds }

/-- A set of numbers stands for items that are charged for in their table. -/
instance : Charged ItemSet := weightless ItemSet

/-- A set that is being closed is charged for no more than a set. -/
instance : Charged ItemSet.Closing := weightless ItemSet.Closing

/-- A set of numbers takes no room. -/
@[simp]
theorem load_itemSet (set : ItemSet) : load set = ⊥ := rfl

namespace ItemTable

/-- A look-up of an item, and then the rest of the request. -/
theorem curtails_item {α : Type} [Charged α] {before : Load} {table : ItemTable} {id : ItemId}
    {next next' : Item → ItemM α}
    (h : ∀ item, bounds.CurtailsFrom before (next item) (next' item) table) :
    bounds.CurtailsFrom before (ItemTable.item id >>= next) (ItemTable.item id >>= next')
      table := by
  have hlift (next : Item → ItemM α) (others : Bounds) :
      outcome ((ItemTable.item id >>= next) (under others table)) =
        table.get id >>= fun item => outcome (next item (under others table)) := by
    rw [← outcome_liftStep_bind]
    rfl
  unfold Bounds.CurtailsFrom
  rw [hlift, hlift]
  exact .step_bind fun item _ => h item

/-- An item is added as without bounds, as long as there is room. -/
theorem curtails_add (g : Grammar) (table : ItemTable) (item : Item) :
    bounds.Curtails (load table) ((under .unbounded table).add g item)
      ((under bounds table).add g item) := by
  unfold add
  refine .step_bind fun _ _ => ?_
  refine .allow_bind ?_
  refine .pure { table with items := table.items.push item } ?_
  have hsize : table.size + 1 = (table.items.push item).size := by simp [size]
  show load table ⊔ .single .items (table.size + 1) = .single .items (table.items.push item).size
  rw [hsize]
  exact sup_eq_right.2 (Load.single_mono (by simp [size]))

/-- An item without a number is added to the table. -/
theorem outcome_intern {item : Item} {table : ItemTable} (h : table.find? item = none) :
    outcome (intern g item table) =
      table.add g item >>= fun larger => pure (table.size, larger) := by
  simp only [intern, h]
  cases table.add g item <;> rfl

/-- An item that has a number already is not charged for. -/
theorem curtails_intern (g : Grammar) (item : Item) (table : ItemTable) :
    bounds.CurtailsFrom (load table) (intern g item) (intern g item) table := by
  unfold Bounds.CurtailsFrom
  cases hfind : table.find? item with
  | some id =>
    have hfound (others : Bounds) :
        intern g item (under others table) = .ok id (under others table) := by
      have hsame : (under others table).find? item = some id := hfind
      simp only [intern, hsame]
    rw [hfound, hfound]
    exact .pure (id, table) (by simp)
  | none =>
    have hnew (others : Bounds) : (under others table).find? item = none := hfind
    rw [outcome_intern (hnew _), outcome_intern (hnew _)]
    refine (curtails_add g table item).bind fun larger => ?_
    exact .pure (table.size, larger) (by simp)

end ItemTable

namespace ItemSet

/-- The items of rules are added as without bounds, as long as there is room. -/
theorem curtails_addRules (g : Grammar) (set : ItemSet) (rules : List RuleId) (table : ItemTable) :
    bounds.CurtailsFrom (load set ⊔ load table) (set.addRules g rules) (set.addRules g rules)
      table := by
  refine .foldlM (fun rule _ set after => ?_) set table
  refine (ItemTable.curtails_intern g ⟨rule, 0⟩ after).bind_beside fun id after => ?_
  exact .result (by simp)

/-- A set is expanded by one of its items as without bounds, as long as there is room. -/
theorem curtails_expand (g : Grammar) (closing : Closing) (id : ItemId) (table : ItemTable) :
    bounds.CurtailsFrom (load closing ⊔ load table) (closing.expand g id) (closing.expand g id)
      table := by
  unfold Closing.expand
  refine ItemTable.curtails_item fun item => ?_
  refine .step_bind fun next => ?_
  split
  · split
    · exact .result rfl
    · refine .step_bind fun rules => ?_
      refine (curtails_addRules g closing.set rules table).bind fun set after => ?_
      exact .result rfl
  · exact .result rfl

/-- A pass over a set is made as without bounds, as long as there is room. -/
theorem curtails_pass (g : Grammar) (closing : Closing) (table : ItemTable) :
    bounds.CurtailsFrom (load closing ⊔ load table) (closing.pass g) (closing.pass g) table :=
  .foldlM (fun id _ closing after => curtails_expand g closing id after) closing table

/-- Passes are made as without bounds, as long as there is room. -/
theorem curtails_passes (g : Grammar) (fuel : Nat) (closing : Closing) (table : ItemTable) :
    bounds.CurtailsFrom (load closing ⊔ load table) (Closing.passes g fuel closing)
      (Closing.passes g fuel closing) table := by
  induction fuel generalizing closing table with
  | zero => exact .result rfl
  | succ fuel ih =>
    refine (curtails_pass g closing table).bind fun larger after => ?_
    show bounds.CurtailsFrom _ (if larger.done.length = closing.done.length then _ else _)
      (if larger.done.length = closing.done.length then _ else _) after
    split
    · exact .result rfl
    · exact ih larger after

/-- A set is closed as without bounds, as long as there is room. -/
theorem curtails_closure (g : Grammar) (set : ItemSet) (table : ItemTable) :
    bounds.CurtailsFrom (load set ⊔ load table) (set.closure g) (set.closure g) table := by
  refine (curtails_passes g _ { set } table).bind fun closing after => ?_
  exact .result rfl

/-- An advanced item is added as without bounds, as long as there is room. -/
theorem curtails_addAdvanced (g : Grammar) (symbol : Symbol) (kernel : ItemSet) (id : ItemId)
    (table : ItemTable) :
    bounds.CurtailsFrom (load kernel ⊔ load table) (addAdvanced g symbol kernel id)
      (addAdvanced g symbol kernel id) table := by
  unfold addAdvanced
  refine ItemTable.curtails_item fun item => ?_
  refine .step_bind fun next => ?_
  split
  · refine (ItemTable.curtails_intern g item.advance table).bind_beside fun id after => ?_
    exact .result (by simp)
  · exact .result rfl

/-- The set that is reached on a symbol is the same under bounds. -/
theorem curtails_goto (g : Grammar) (set : ItemSet) (symbol : Symbol) (table : ItemTable) :
    bounds.CurtailsFrom (load table) (set.goto g symbol) (set.goto g symbol) table := by
  have hkernel : bounds.CurtailsFrom (load empty ⊔ load table) (set.kernel g symbol)
      (set.kernel g symbol) table :=
    .foldlM (fun id _ kernel after => curtails_addAdvanced g symbol kernel id after) empty table
  rw [load_itemSet, bot_sup_eq] at hkernel
  refine hkernel.bind fun kernel after => ?_
  show bounds.CurtailsFrom _ (if kernel.isEmpty then _ else _)
    (if kernel.isEmpty then _ else _) after
  split
  · exact .result rfl
  · exact curtails_closure g kernel after

end ItemSet

namespace Nfa

/-- An automaton takes room for its states and its transitions. -/
instance : Charged Nfa where
  load nfa := .single .states nfa.states.size ⊔ .single .transitions nfa.edges.size
  under _ nfa := nfa

/-- The room of an automaton after one more state. -/
theorem load_of_state {nfa nfa' : Nfa} (hstates : nfa'.states.size = nfa.states.size + 1)
    (hedges : nfa'.edges.size = nfa.edges.size) :
    load nfa ⊔ .single .states (nfa.states.size + 1) = load nfa' := by
  funext store
  cases store <;> simp [load, Load.single, hstates, hedges]

/-- The room of an automaton after one more transition. -/
theorem load_of_edge {nfa nfa' : Nfa} (hstates : nfa'.states.size = nfa.states.size)
    (hedges : nfa'.edges.size = nfa.edges.size + 1) :
    load nfa ⊔ .single .transitions (nfa.edges.size + 1) = load nfa' := by
  funext store
  cases store <;> simp [load, Load.single, hstates, hedges]

/-- A state for an item is charged for beside the item. -/
theorem curtails_addState (g : Grammar) (nfa : Nfa) (item : Item) (table : ItemTable) :
    bounds.CurtailsFrom (load nfa ⊔ load table) (nfa.addState g .unbounded item)
      (nfa.addState g bounds item) table := by
  refine (ItemTable.curtails_intern g item table).bind_beside fun id after => ?_
  refine .allow_bind (.result ?_)
  rw [load_nat, bot_sup_eq, sup_right_comm]
  exact congrArg (· ⊔ load after) (load_of_state (by simp) rfl)

/-- A transition is charged for, and the counts at its ends are not. -/
theorem curtails_addEdge (nfa : Nfa) (edge : Edge) :
    bounds.Curtails (load nfa) (nfa.addEdge .unbounded edge) (nfa.addEdge bounds edge) := by
  apply Bounds.Curtails.allow_bind
  refine .step_bind fun left hleft => .step_bind fun entered hentered => .result ?_
  obtain ⟨-, rfl⟩ := update_eq_ok.1 hleft
  obtain ⟨-, rfl⟩ := update_eq_ok.1 hentered
  exact load_of_edge (by simp) (by simp)

/-- A state is connected to the state of an item as without bounds, as long as there is room. -/
theorem curtails_connect (g : Grammar) (source : Nat) (symbol : Symbol) (nfa : Nfa) (item : Item)
    (table : ItemTable) :
    bounds.CurtailsFrom (load nfa ⊔ load table) (nfa.connect g .unbounded source symbol item)
      (nfa.connect g bounds source symbol item) table := by
  refine (ItemTable.curtails_intern g item table).bind_beside fun id after => ?_
  refine .step_bind fun target => ?_
  rw [load_nat, bot_sup_eq]
  exact .lifted (curtails_addEdge nfa ⟨source, symbol, target⟩) after

/-- A state gets its transitions as without bounds, as long as there is room. -/
theorem curtails_connectAll (g : Grammar) (nfa : Nfa) (source : State × Nat) (table : ItemTable) :
    bounds.CurtailsFrom (load nfa ⊔ load table) (nfa.connectAll g .unbounded source)
      (nfa.connectAll g bounds source) table := by
  obtain ⟨state, number⟩ := source
  refine .step_bind fun next => ?_
  cases next with
  | none => exact .result rfl
  | some symbol =>
    refine (curtails_connect g number symbol nfa state.item.advance table).bind fun nfa after => ?_
    cases symbol with
    | nonterminal n =>
      refine .step_bind fun rules => ?_
      exact .foldlM (fun rule _ nfa after => curtails_connect g number .epsilon nfa ⟨rule, 0⟩ after)
        nfa after
    | _ => exact .result rfl

/-- To look for the start state takes no room. -/
theorem curtails_startState (nfa : Nfa) (table : ItemTable) :
    bounds.CurtailsFrom (load table) nfa.startState nfa.startState table := by
  cases hfind : table.find? ⟨augmentedRule, 0⟩ with
  | none =>
    have hnone (others : Bounds) : nfa.startState (under others table) =
        .error (.mismatch .noStartItem) (under others table) := by
      have hsame : (under others table).find? ⟨augmentedRule, 0⟩ = none := hfind
      simp only [startState, hsame]
    unfold Bounds.CurtailsFrom
    rw [hnone, hnone]
    exact .error _
  | some id =>
    have hsome (others : Bounds) : nfa.startState (under others table) =
        (liftStep (nfa.stateOf id) >>= pure) (under others table) := by
      have hsame : (under others table).find? ⟨augmentedRule, 0⟩ = some id := hfind
      simp only [startState, hsame, bind_pure]
    have hlift : bounds.CurtailsFrom (load table) (liftStep (nfa.stateOf id) >>= pure)
        (liftStep (nfa.stateOf id) >>= pure) table :=
      .step_bind fun state => .result (by simp)
    unfold Bounds.CurtailsFrom at hlift ⊢
    rwa [hsome, hsome]

/-- Under bounds the item automaton is built as without bounds, as long as there is room. -/
theorem curtails_build (g : Grammar) (table : ItemTable) :
    bounds.CurtailsFrom (load table) (Nfa.build g .unbounded) (Nfa.build g bounds) table := by
  have hempty : load ({} : Nfa) = ⊥ := by
    funext store
    cases store <;> rfl
  have hstates : bounds.CurtailsFrom (load ({} : Nfa) ⊔ load table)
      (g.allItems.foldlM (addState g .unbounded) {}) (g.allItems.foldlM (addState g bounds) {})
      table :=
    .foldlM (fun item _ nfa after => curtails_addState g nfa item after) {} table
  rw [hempty, bot_sup_eq] at hstates
  refine hstates.bind fun nfa after => ?_
  refine (curtails_startState nfa after).bind_beside fun start after => ?_
  rw [load_nat, bot_sup_eq]
  exact .foldlM (fun source _ nfa after => curtails_connectAll g nfa source after)
    { nfa with start } after

end Nfa

namespace Dfa

/-- An automaton takes room for its states and its transitions. -/
instance : Charged Dfa where
  load dfa := .single .states dfa.states.size ⊔ .single .transitions dfa.edges.size
  under _ dfa := dfa

namespace Growth

/-- A growing automaton takes the room of the automaton so far and of its items. -/
instance : Charged Growth where
  load growth := load (ofGrowth growth) ⊔ load growth.items
  under bounds growth := { growth with items := under bounds growth.items }

/-- The room of a growing automaton after one more state. -/
theorem load_addState (growth : Growth) (state : State) :
    load growth ⊔ .single .states (growth.states.size + 1) = load (growth.addState state) := by
  funext store
  cases store <;> simp [load, Load.single, addState, ofGrowth]

/-- The room of a growing automaton after one more transition. -/
theorem load_addEdge (growth : Growth) (edge : Edge) :
    load growth ⊔ .single .transitions (growth.edges.size + 1) = load (growth.addEdge edge) := by
  funext store
  cases store <;> simp [load, Load.single, addEdge, ofGrowth]

/-- A request on the items ends in a growing automaton as it does on the items alone. -/
theorem outcome_onItems {α : Type} (request : ItemM α) (growth : Growth) :
    outcome (GrowM.onItems request growth) =
      outcome (request growth.items) >>= fun reached =>
        pure (reached.1, { growth with items := reached.2 }) := by
  simp only [GrowM.onItems]
  cases request growth.items <;> rfl

/-- Requests on the items leave the automaton as it is. -/
theorem curtails_onItems {α : Type} [Charged α] {request : ItemM α} {growth : Growth}
    (h : bounds.CurtailsFrom (load growth.items) request request growth.items) :
    bounds.CurtailsFrom (load growth) (GrowM.onItems request) (GrowM.onItems request) growth := by
  unfold Bounds.CurtailsFrom
  rw [outcome_onItems, outcome_onItems]
  apply Bounds.Curtails.bind_beside h
  rintro ⟨a, items⟩
  exact .pure (a, { growth with items }) (sup_left_comm _ _ _)

/-- A set of items that is a state already is not charged for. -/
theorem curtails_intern (g : Grammar) (set : ItemSet) (growth : Growth) :
    bounds.CurtailsFrom (load growth) (intern g .unbounded set) (intern g bounds set) growth := by
  unfold Bounds.CurtailsFrom
  cases hfind : growth.find? set with
  | some id =>
    have hfound (limits others : Bounds) : intern g limits set (under others growth) =
        .ok id (under others growth) := by
      have hsame : (under others growth).find? set = some id := hfind
      simp only [intern, get_bind_run, hsame]
      rfl
    rw [hfound, hfound]
    exact .pure (id, growth) (by simp)
  | none =>
    have hnew (limits others : Bounds) : outcome (intern g limits set (under others growth)) = (do
        let state ← State.ofSet g growth.items set
        limits.allow .states (growth.states.size + 1)
        return (growth.states.size, under others (growth.addState state))) := by
      have hsame : (under others growth).find? set = none := hfind
      simp only [intern, get_bind_run, hsame, outcome_liftStep_bind]
      rfl
    rw [hnew, hnew]
    refine .step_bind fun state _ => .allow_bind ?_
    refine .pure (growth.states.size, growth.addState state) ?_
    rw [load_addState, load_pair, load_nat, bot_sup_eq]

/-- A transition of a growing automaton is added as without bounds, as long as there is room. -/
theorem curtails_addEdge (edge : Edge) (growth : Growth) :
    bounds.CurtailsFrom (load growth)
      (do liftStep (Bounds.unbounded.allow .transitions ((← get).edges.size + 1))
          modify (·.addEdge edge))
      (do liftStep (bounds.allow .transitions ((← get).edges.size + 1))
          modify (·.addEdge edge)) growth := by
  have hrun (limits others : Bounds) :
      outcome ((do liftStep (limits.allow .transitions ((← get).edges.size + 1))
                   modify (·.addEdge edge) : GrowM Unit) (under others growth)) =
        limits.allow .transitions (growth.edges.size + 1) >>= fun _ =>
          pure ((), under others (growth.addEdge edge)) :=
    outcome_liftStep_bind _ _ _
  unfold Bounds.CurtailsFrom
  rw [hrun, hrun]
  refine .allow_bind (.pure ((), growth.addEdge edge) ?_)
  rw [load_addEdge, load_pair, load_unit, bot_sup_eq]

/-- A state is expanded on a symbol as without bounds, as long as there is room. -/
theorem curtails_expandOn (g : Grammar) (source : StateId) (set : ItemSet) (symbol : Symbol)
    (growth : Growth) :
    bounds.CurtailsFrom (load growth) (expandOn g .unbounded source set symbol)
      (expandOn g bounds source set symbol) growth := by
  refine (curtails_onItems (ItemSet.curtails_goto g set symbol _)).bind fun reached growth => ?_
  show bounds.CurtailsFrom _ (if reached.isEmpty then _ else _)
    (if reached.isEmpty then _ else _) growth
  split
  · exact .result rfl
  · rw [load_itemSet, bot_sup_eq]
    refine (curtails_intern g reached growth).bind fun target growth => ?_
    rw [load_nat, bot_sup_eq]
    exact curtails_addEdge ⟨source, symbol, target⟩ growth

/-- States are expanded as without bounds, as long as there is room. -/
theorem curtails_expandFrom (g : Grammar) (fuel : Nat) (source : StateId) (growth : Growth) :
    bounds.CurtailsFrom (load growth) (expandFrom g .unbounded fuel source)
      (expandFrom g bounds fuel source) growth := by
  induction fuel generalizing source growth with
  | zero => exact .result (by simp)
  | succ fuel ih =>
    unfold Bounds.CurtailsFrom
    cases hstate : growth.states[source]? with
    | none =>
      have hend (limits others : Bounds) : expandFrom g limits (fuel + 1) source
          (under others growth) = .ok () (under others growth) := by
        have hsame : (under others growth).states[source]? = none := hstate
        simp only [expandFrom, get_bind_run, hsame]
        rfl
      rw [hend, hend]
      exact .pure ((), growth) (by simp)
    | some state =>
      have hnext (limits others : Bounds) : expandFrom g limits (fuel + 1) source
          (under others growth) = (state.next.forM (expandOn g limits source state.items) >>=
            fun _ => expandFrom g limits fuel (source + 1)) (under others growth) := by
        have hsame : (under others growth).states[source]? = some state := hstate
        simp only [expandFrom, get_bind_run, hsame]
      rw [hnext, hnext]
      refine Bounds.CurtailsFrom.bind (.forM (fun symbol _ growth => ?_) growth) fun _ growth => ?_
      · exact curtails_expandOn g source state.items symbol growth
      · rw [load_unit, bot_sup_eq]
        exact ih (source + 1) growth

/-- The set of the start state is found as without bounds, as long as there is room. -/
theorem curtails_startSet (g : Grammar) (table : ItemTable) :
    bounds.CurtailsFrom (load table) (startSet g) (startSet g) table := by
  refine .step_bind fun rules => ?_
  have hrules : bounds.CurtailsFrom _ _ _ table := ItemSet.curtails_addRules g .empty rules table
  rw [load_itemSet, bot_sup_eq] at hrules
  exact hrules.bind fun kernel after => ItemSet.curtails_closure g kernel after

/-- An automaton grows as without bounds, as long as there is room. -/
theorem curtails_grow (g : Grammar) (growth : Growth) :
    bounds.CurtailsFrom (load growth) (grow g .unbounded) (grow g bounds) growth := by
  refine (curtails_onItems (curtails_startSet g _)).bind fun set growth => ?_
  rw [load_itemSet, bot_sup_eq]
  refine (curtails_intern g set growth).bind fun start growth => ?_
  rw [load_nat, bot_sup_eq]
  exact curtails_expandFrom g _ start growth

end Growth

/-- Under bounds the canonical collection is built as without bounds, as long as there is room. -/
theorem curtails_build (g : Grammar) (table : ItemTable) :
    bounds.CurtailsFrom (load table) (Dfa.build g .unbounded) (Dfa.build g bounds) table := by
  have hrun (limits : Bounds) (table : ItemTable) : outcome (Dfa.build g limits table) =
      outcome (Growth.grow g limits { items := table }) >>= fun reached =>
        pure (ofGrowth reached.2, reached.2.items) := by
    unfold Dfa.build
    cases Growth.grow g limits { items := table } <;> rfl
  have hempty : load ({ items := table } : Growth) = load table := by
    funext store
    cases store <;> simp [load, Load.single, ofGrowth]
  have hgrow : bounds.CurtailsFrom _ _ _ _ := Growth.curtails_grow g { items := table }
  rw [hempty] at hgrow
  unfold Bounds.CurtailsFrom
  rw [hrun, hrun]
  apply Bounds.Curtails.bind hgrow
  rintro ⟨_, growth⟩
  exact .pure (ofGrowth growth, growth.items) (by rw [load_pair, load_unit, bot_sup_eq]; rfl)

end Dfa

end ShiftReduce
