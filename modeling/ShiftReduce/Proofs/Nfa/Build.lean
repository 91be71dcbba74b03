import ShiftReduce.Proofs.Dfa.Canonical

/-!
# The item automaton holds all items and their moves

An item moves on the symbol after its dot to the item with the dot advanced, and without reading
anything to the starts of the rules of a non-terminal after its dot. The automaton that is built has
a state for every item of the grammar and a transition for every move of an item, in the order of
items and moves.
-/

namespace ShiftReduce

namespace Grammar

/-- The moves of an item with their symbols. -/
def moves (g : Grammar) (item : Item) : List (Symbol × Item) :=
  match (g.rules[item.rule]?).bind (·.body[item.dot]?) with
  | none => []
  | some (.nonterminal n) => (.nonterminal n, item.advance) ::
      ((g.nonterminals[n]?).elim [] (·.rules)).map fun id => (.epsilon, ⟨id, 0⟩)
  | some X => [(X, item.advance)]

variable {g : Grammar} {item next : Item} {X : Symbol}

/-- The symbol at the dot of an item is the one that it waits for. -/
theorem bind_body_eq_some :
    (g.rules[item.rule]?).bind (·.body[item.dot]?) = some X ↔ item.Awaits g X := by
  simp only [Option.bind_eq_some_iff, Item.Awaits]

/-- An item that waits for nothing does not move. -/
theorem moves_eq_nil (h : ∀ X, ¬ item.Awaits g X) : g.moves item = [] := by
  have hnone : (g.rules[item.rule]?).bind (·.body[item.dot]?) = none := by
    rw [Option.eq_none_iff_forall_ne_some]
    exact fun X hX => h X (bind_body_eq_some.1 hX)
  simp only [moves, hnone]

/-- An item that waits for a non-terminal moves on it and to the starts of its rules. -/
theorem moves_nonterminal {n : NonterminalId} (h : item.Awaits g (.nonterminal n))
    {rules : List RuleId} (hrules : g.rulesFor n = .ok rules) :
    g.moves item = (.nonterminal n, item.advance) :: rules.map fun id => (.epsilon, ⟨id, 0⟩) := by
  obtain ⟨nt, hnt, hrules⟩ := bind_eq_ok.1 hrules
  obtain rfl := Except.ok.inj hrules
  simp only [moves, bind_body_eq_some.2 h, entry_eq_ok.1 hnt, Option.elim_some]

/-- An item that waits for another symbol moves on it only. -/
theorem moves_of_awaits (h : item.Awaits g X) (hX : ∀ n, X ≠ .nonterminal n) :
    g.moves item = [(X, item.advance)] := by
  unfold moves
  rw [bind_body_eq_some.2 h]
  split
  · rename_i hnone
    cases hnone
  · rename_i n hn
    exact absurd (Option.some.inj hn) (hX n)
  · rename_i Y _ hY
    rw [Option.some.inj hY]

/-- What the moves of an item are. -/
theorem mem_moves (hg : g.CrossReferenced) : (X, next) ∈ g.moves item ↔
    item.Awaits g X ∧ next = item.advance ∨ X = .epsilon ∧ ∃ n id,
      item.Awaits g (.nonterminal n) ∧ g.Heads n id ∧ next = ⟨id, 0⟩ := by
  by_cases hwaits : ∃ Y, item.Awaits g Y
  · obtain ⟨Y, hY⟩ := hwaits
    have hunique : ∀ {Z}, item.Awaits g Z ↔ Z = Y :=
      fun {Z} => ⟨fun hZ => hZ.unique hY, fun heq => heq ▸ hY⟩
    cases Y with
    | nonterminal n =>
      obtain ⟨-, rules, hrules, hheads⟩ := rulesFor_of_awaits hg hY
      rw [moves_nonterminal hY hrules]
      simp only [List.mem_cons, Prod.mk.injEq, List.mem_map, hheads, hunique]
      refine or_congr Iff.rfl ⟨?_, ?_⟩
      · rintro ⟨id, hid, rfl, rfl⟩
        exact ⟨rfl, n, id, rfl, hid, rfl⟩
      · rintro ⟨rfl, n', id, hn, hid, rfl⟩
        cases hn
        exact ⟨id, hid, rfl, rfl⟩
    | terminal t => rw [moves_of_awaits hY (by simp)]; simp [hunique]
    | epsilon => rw [moves_of_awaits hY (by simp)]; simp [hunique]
    | endOfInput => rw [moves_of_awaits hY (by simp)]; simp [hunique]
  · rw [not_exists] at hwaits
    rw [moves_eq_nil hwaits]
    simp [hwaits]

end Grammar

namespace Nfa

/-- The item of a state. -/
def itemAt? (nfa : Nfa) (i : Nat) : Option Item := nfa.states[i]?.map (·.item)

/-- A state with an item exists. -/
theorem lt_of_itemAt? {nfa : Nfa} {i : Nat} {item : Item} (h : nfa.itemAt? i = some item) :
    i < nfa.states.size := by
  obtain ⟨state, hstate, -⟩ := Option.map_eq_some_iff.1 h
  exact (Array.getElem?_eq_some_iff.1 hstate).1

/-- A transition for a move of the item of a state. -/
def Realizes (nfa : Nfa) (edge : Edge) (move : Nat × Symbol × Item) : Prop :=
  edge.source = move.1 ∧ edge.symbol = move.2.1 ∧ nfa.itemAt? edge.target = some move.2.2

/-- The item automaton of a grammar. -/
structure Faithful (g : Grammar) (table : ItemTable) (nfa : Nfa) : Prop where
  valid : table.Valid g
  /-- Every item of the grammar has a state, in the order of rules and dots. -/
  items_eq : nfa.states.toList.map (·.item) = g.allItems
  /-- A state knows the number of its item. -/
  named : ∀ state ∈ nfa.states, table.items[state.id]? = some state.item
  start_eq : nfa.itemAt? nfa.start = some ⟨augmentedRule, 0⟩
  /-- Every move of an item has a transition, in the order of items and moves. -/
  edges_eq : List.Forall₂ nfa.Realizes nfa.edges.toList
    (g.allItems.zipIdx.flatMap fun source => (g.moves source.1).map (source.2, ·))

variable {g : Grammar} {bounds : Bounds} {table after : ItemTable} {nfa nfa' : Nfa} {item : Item}

/-- The states of an automaton while they are added. -/
structure Populated (table : ItemTable) (items : List Item) (nfa : Nfa) : Prop where
  items_eq : nfa.states.toList.map (·.item) = items
  named : ∀ state ∈ nfa.states, table.items[state.id]? = some state.item

/-- The states fit every larger table. -/
theorem Populated.mono {items : List Item} (h : nfa.Populated table items)
    (hgrows : table.Grows g after) : nfa.Populated after items :=
  ⟨h.items_eq, fun state hstate => hgrows.getElem? (h.named state hstate)⟩

/-- There are as many states as items. -/
theorem Populated.size_eq {items : List Item} (h : nfa.Populated table items) :
    nfa.states.size = items.length := by
  rw [← h.items_eq, List.length_map, Array.length_toList]

/-- The states have the items in order. -/
theorem Populated.itemAt?_eq {items : List Item} (h : nfa.Populated table items) (i : Nat) :
    nfa.itemAt? i = items[i]? := by
  rw [← h.items_eq, List.getElem?_map, Array.getElem?_toList, itemAt?]

/-- A state for one more item. -/
theorem addState_meets {items : List Item} (hvalid : table.Valid g) (hitem : item.In g)
    (h : nfa.Populated table items) (hedges : nfa.edges = #[]) :
    ItemM.Meets g bounds (nfa.addState g bounds item) table fun larger after =>
      larger.Populated after (items ++ [item]) ∧ larger.edges = #[] := by
  refine (ItemM.intern_meets hvalid hitem).bind fun id after hgrows hid => ?_
  refine Meets.allow_bind hgrows.valid (.pure hgrows.valid ⟨⟨?_, ?_⟩, hedges⟩)
  · simp [h.items_eq]
  · intro state hstate
    rcases Array.mem_push.1 hstate with hold | rfl
    · exact hgrows.getElem? (h.named state hold)
    · exact hid

/-- The states for all items. -/
theorem addStates_meets (hvalid : table.Valid g) :
    ItemM.Meets g bounds (g.allItems.foldlM (addState g bounds) {}) table fun nfa after =>
      nfa.Populated after g.allItems ∧ nfa.edges = #[] := by
  refine Meets.foldlM (fun done (nfa : Nfa) after => nfa.Populated after done ∧ nfa.edges = #[])
    hvalid ?_ ⟨⟨rfl, by simp⟩, rfl⟩
  intro done item rest nfa after hsplit hgrows ⟨hstates, hedges⟩
  exact addState_meets hgrows.valid (Grammar.mem_allItems.1 (by simp [hsplit])) hstates hedges

/-- The state of an item can be looked up by the number of the item. -/
theorem Populated.stateOf_eq {id : ItemId} (h : nfa.Populated table g.allItems)
    (hvalid : table.Valid g) (hid : table.items[id]? = some item) :
    ∃ i, nfa.stateOf id = .ok i ∧ nfa.itemAt? i = some item := by
  have hmem : item ∈ nfa.states.toList.map (·.item) := by
    rw [h.items_eq]
    exact Grammar.mem_allItems.2 (hvalid.in_of_getElem? hid)
  obtain ⟨state, hstate, rfl⟩ := List.mem_map.1 hmem
  have hstate' := Array.mem_toList_iff.1 hstate
  have hname : state.id = id := hvalid.id_unique (h.named state hstate') hid
  cases hfind : nfa.states.findIdx? (·.id == id) with
  | none =>
    have hmiss := Array.findIdx?_eq_none_iff.1 hfind state hstate'
    simp [hname] at hmiss
  | some i =>
    obtain ⟨hlt, hfound, -⟩ := Array.findIdx?_eq_some_iff_getElem.1 hfind
    have hother := h.named _ (Array.getElem_mem hlt)
    rw [eq_of_beq hfound, hid] at hother
    refine ⟨i, by simp only [stateOf, hfind], ?_⟩
    rw [itemAt?, Array.getElem?_eq_getElem hlt, Option.map_some, ← hother]

/-- What new transitions leave of an automaton: its states with their items. -/
structure SameStates (nfa nfa' : Nfa) : Prop where
  start_eq : nfa'.start = nfa.start
  states_eq : ∀ i : Nat, (nfa'.states[i]?).map (fun state => (state.id, state.item)) =
    (nfa.states[i]?).map fun state => (state.id, state.item)

namespace SameStates

/-- New transitions do not change the items of states. -/
theorem itemAt?_eq (h : SameStates nfa nfa') (i : Nat) : nfa'.itemAt? i = nfa.itemAt? i := by
  have hitem := congrArg (Option.map Prod.snd) (h.states_eq i)
  simp only [Option.map_map] at hitem
  exact hitem

/-- A transition for a move stays one when others are added. -/
theorem realizes_iff (h : SameStates nfa nfa') {edge : Edge} {move : Nat × Symbol × Item} :
    nfa'.Realizes edge move ↔ nfa.Realizes edge move := by
  unfold Realizes
  rw [h.itemAt?_eq]

/-- States keep their items and the numbers of these. -/
theorem populated {items : List Item} (h : SameStates nfa nfa')
    (hstates : nfa.Populated table items) : nfa'.Populated table items := by
  have hpairs : nfa'.states.toList.map (fun state => (state.id, state.item)) =
      nfa.states.toList.map fun state => (state.id, state.item) := by
    apply List.ext_getElem?
    intro i
    simpa using h.states_eq i
  constructor
  · have hitems := congrArg (List.map Prod.snd) hpairs
    simp only [List.map_map] at hitems
    exact hitems.trans hstates.items_eq
  · intro state hstate
    have hmem : (state.id, state.item) ∈ nfa'.states.toList.map fun s => (s.id, s.item) :=
      List.mem_map_of_mem (f := fun s : State => (s.id, s.item)) (Array.mem_toList_iff.2 hstate)
    rw [hpairs] at hmem
    obtain ⟨old, hold, heq⟩ := List.mem_map.1 hmem
    obtain ⟨hid, hitem⟩ := Prod.mk.inj heq
    rw [← hid, ← hitem]
    exact hstates.named old (Array.mem_toList_iff.1 hold)

end SameStates

/-- A transition between states of the automaton is added if there is room for it. -/
theorem exists_addEdge {edge : Edge} (hsource : edge.source < nfa.states.size)
    (htarget : edge.target < nfa.states.size) :
    ∃ larger : Nfa, (∀ bounds : Bounds, nfa.addEdge bounds edge =
        (bounds.allow .transitions (nfa.edges.size + 1)).map fun _ => larger) ∧
      SameStates nfa larger ∧ larger.edges = nfa.edges.push edge := by
  let left := nfa.states.modify edge.source fun s => { s with outward := s.outward + 1 }
  let entered := left.modify edge.target fun s => { s with inward := s.inward + 1 }
  have hleft : update nfa.states edge.source _ = .ok left := update_eq_ok.2 ⟨hsource, rfl⟩
  have htarget : edge.target < left.size := by rwa [Array.size_modify]
  have hentered : update left edge.target _ = .ok entered := update_eq_ok.2 ⟨htarget, rfl⟩
  refine ⟨{ nfa with states := entered, edges := nfa.edges.push edge }, fun bounds => ?_,
    ⟨rfl, fun i => ?_⟩, rfl⟩
  · unfold addEdge
    cases bounds.allow .transitions (nfa.edges.size + 1) with
    | error failure => rfl
    | ok room =>
      refine bind_eq_ok.2 ⟨room, rfl, bind_eq_ok.2 ⟨left, hleft, ?_⟩⟩
      exact bind_eq_ok.2 ⟨entered, hentered, rfl⟩
  · simp only [entered, left, Array.getElem?_modify]
    split <;> split <;> simp [Option.map_map, Function.comp_def]

/-- A new transition comes last. -/
theorem addEdge_meets {edge : Edge} (hvalid : table.Valid g)
    (hsource : edge.source < nfa.states.size) (htarget : edge.target < nfa.states.size) :
    ItemM.Meets g bounds (liftStep (nfa.addEdge bounds edge)) table fun larger _ =>
      SameStates nfa larger ∧ larger.edges = nfa.edges.push edge := by
  obtain ⟨larger, hadd, hsame, hedges⟩ := exists_addEdge hsource htarget
  unfold ItemM.Meets Meets Ensures liftStep
  rw [hadd bounds]
  cases hallow : bounds.allow .transitions (nfa.edges.size + 1) with
  | error failure => exact ⟨.refl hvalid, .inr (Bounds.refuses_of_allow hallow)⟩
  | ok room => exact ⟨.refl hvalid, hsame, hedges⟩

/-- The transition for a move. -/
theorem connect_meets {source : Nat} {X : Symbol} (hvalid : table.Valid g) (hitem : item.In g)
    (hstates : nfa.Populated table g.allItems) (hsource : source < nfa.states.size) :
    ItemM.Meets g bounds (nfa.connect g bounds source X item) table fun larger _ =>
      SameStates nfa larger ∧ ∃ edge, larger.edges = nfa.edges.push edge ∧
        nfa.Realizes edge (source, X, item) := by
  refine (ItemM.intern_meets hvalid hitem).bind fun id after hgrows hid => ?_
  obtain ⟨i, hi, hitemAt⟩ := (hstates.mono hgrows).stateOf_eq hgrows.valid hid
  have htarget : i < nfa.states.size := lt_of_itemAt? hitemAt
  refine Meets.liftStep_bind hi ((addEdge_meets hgrows.valid hsource htarget).mono ?_)
  rintro larger later - ⟨hsame, hedges⟩
  exact ⟨hsame, _, hedges, rfl, rfl, hitemAt⟩

/-- An automaton with transitions for some moves. -/
structure Connected (table : ItemTable) (g : Grammar) (start : Nat)
    (moves : List (Nat × Symbol × Item)) (nfa : Nfa) : Prop where
  start_eq : nfa.start = start
  populated : nfa.Populated table g.allItems
  edges_eq : List.Forall₂ nfa.Realizes nfa.edges.toList moves

variable {start : Nat} {moves : List (Nat × Symbol × Item)}

/-- One more transition. -/
theorem Connected.connect_meets {source : Nat} {X : Symbol} (h : nfa.Connected table g start moves)
    (hvalid : table.Valid g) (hitem : item.In g) (hsource : source < g.allItems.length) :
    ItemM.Meets g bounds (nfa.connect g bounds source X item) table fun larger after =>
      larger.Connected after g start (moves ++ [(source, X, item)]) := by
  rw [← h.populated.size_eq] at hsource
  refine (Nfa.connect_meets hvalid hitem h.populated hsource).mono ?_
  rintro larger after hgrows ⟨hsame, edge, hedges, hedge⟩
  refine ⟨hsame.start_eq.trans h.start_eq, hsame.populated (h.populated.mono hgrows), ?_⟩
  rw [hedges, Array.toList_push]
  have hall := List.rel_append h.edges_eq (.cons hedge .nil)
  exact hall.imp fun _ _ hrealizes => hsame.realizes_iff.2 hrealizes

/-- The transitions for all moves of a state. -/
theorem connectAll_meets {state : State} {number : Nat} (hg : g.CrossReferenced)
    (h : nfa.Connected table g start moves) (hvalid : table.Valid g) (hitem : state.item.In g)
    (hnumber : number < g.allItems.length) :
    ItemM.Meets g bounds (nfa.connectAll g bounds (state, number)) table fun larger after =>
      larger.Connected after g start (moves ++ (g.moves state.item).map (number, ·)) := by
  obtain ⟨next, hnext, hawaits⟩ := hitem.next?_eq
  refine Meets.liftStep_bind hnext ?_
  cases next with
  | none =>
    have hnone : ∀ X, ¬ state.item.Awaits g X := fun X hX => by simpa using (hawaits X).2 hX
    rw [Grammar.moves_eq_nil hnone, List.map_nil, List.append_nil]
    exact .pure hvalid h
  | some X =>
    have hX := (hawaits X).1 rfl
    refine (h.connect_meets hvalid hX.advance_in hnumber).bind
      fun larger after hgrows hlarger => ?_
    cases X with
    | nonterminal n =>
      obtain ⟨-, rules, hrules, hheads⟩ := Grammar.rulesFor_of_awaits hg hX
      refine Meets.liftStep_bind hrules ?_
      rw [Grammar.moves_nonterminal hX hrules]
      refine (Meets.foldlM (fun done (larger : Nfa) after => larger.Connected after g start
        (moves ++ [(number, .nonterminal n, state.item.advance)] ++
          done.map fun id => (number, .epsilon, ⟨id, 0⟩))) hgrows.valid ?_
        (by simpa using hlarger)).mono ?_
      · intro done id rest last later hsplit hlater hlast
        have hid : Item.In g ⟨id, 0⟩ := Item.in_of_heads ((hheads id).1 (by simp [hsplit]))
        refine (hlast.connect_meets hlater.valid hid hnumber).mono fun _ _ _ hconnected => ?_
        simpa using hconnected
      · intro last later _ hlast
        simpa [Function.comp_def] using hlast
    | terminal t =>
      rw [Grammar.moves_of_awaits hX (by simp)]
      exact .pure hgrows.valid hlarger
    | epsilon =>
      rw [Grammar.moves_of_awaits hX (by simp)]
      exact .pure hgrows.valid hlarger
    | endOfInput =>
      rw [Grammar.moves_of_awaits hX (by simp)]
      exact .pure hgrows.valid hlarger

/-- The start state is that of the augmented rule with the dot at the start. -/
theorem startState_meets (hg : g.Linked) (hvalid : table.Valid g)
    (h : nfa.Populated table g.allItems) :
    ItemM.Meets g bounds nfa.startState table fun start _ =>
      nfa.itemAt? start = some ⟨augmentedRule, 0⟩ := by
  have hitem : (⟨augmentedRule, 0⟩ : Item) ∈ nfa.states.toList.map (·.item) := by
    rw [h.items_eq]
    exact Grammar.mem_allItems.2 ⟨_, hg.augmented, Nat.zero_le _⟩
  obtain ⟨state, hstate, hitem⟩ := List.mem_map.1 hitem
  have hid := h.named state (Array.mem_toList_iff.1 hstate)
  rw [hitem] at hid
  obtain ⟨start, hstart, hitemAt⟩ := h.stateOf_eq hvalid hid
  unfold ItemM.Meets Meets Ensures startState
  simp only [hvalid.find?_eq hid, hstart]
  exact ⟨.refl hvalid, hitemAt⟩

/-- What is built is the item automaton of the grammar. -/
theorem build_meets (hg : g.Linked) (hvalid : table.Valid g) :
    ItemM.Meets g bounds (build g bounds) table fun nfa after => nfa.Faithful g after := by
  refine (addStates_meets hvalid).bind fun nfa middle hmiddle ⟨hstates, hedges⟩ => ?_
  refine (startState_meets hg hmiddle.valid hstates).bind fun start after hgrows hstart => ?_
  refine (Meets.foldlM (fun done (larger : Nfa) later => larger.Connected later g start
    (done.flatMap fun source => (g.moves source.1.item).map (source.2, ·))) hgrows.valid ?_
    ⟨rfl, ?_, ?_⟩).mono ?_
  · rintro done ⟨state, number⟩ rest larger later hsplit hlater hlarger
    have hpair : (state, number) ∈ nfa.states.toList.zipIdx := by simp [hsplit]
    have hstate := List.mem_zipIdx_iff_getElem?.1 hpair
    have hitem : state.item.In g := by
      rw [← Grammar.mem_allItems, ← hstates.items_eq]
      exact List.mem_map_of_mem (List.mem_of_getElem? hstate)
    have hnumber : number < g.allItems.length := by
      rw [← hstates.items_eq, List.length_map]
      exact (List.getElem?_eq_some_iff.1 hstate).1
    refine (connectAll_meets hg.toCrossReferenced hlarger hlater.valid hitem hnumber).mono ?_
    intro _ _ _ hconnected
    simpa using hconnected
  · exact ⟨hstates.items_eq, (hstates.mono hgrows).named⟩
  · simp [hedges]
  · intro larger later hlater hlarger
    refine ⟨hlater.valid, hlarger.populated.items_eq, hlarger.populated.named, ?_, ?_⟩
    · rw [hlarger.start_eq, hlarger.populated.itemAt?_eq, ← hstates.itemAt?_eq, hstart]
    · rw [← hstates.items_eq, List.zipIdx_map, List.flatMap_map]
      exact hlarger.edges_eq

end Nfa

end ShiftReduce
