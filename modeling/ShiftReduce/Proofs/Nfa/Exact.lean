import ShiftReduce.Proofs.Nfa.Agreement

/-!
# The item automaton is exact

The item automaton has the items of the grammar as its states, in the order of rules and dots, and
the moves of the items as its transitions, none of them twice. The counters of its states tell how
many transitions leave and enter them. Since it asks for all items, a table has no further items to
get after it was built.
-/

namespace ShiftReduce

/-- An order of one of two matching lists is one of the other. -/
theorem pairwise_of_forall₂ {α β : Type} {R : α → β → Prop} {S : β → β → Prop} {xs : List α}
    {ys : List β} (h : List.Forall₂ R xs ys) (hys : ys.Pairwise S) :
    xs.Pairwise fun x x' => ∃ y y', R x y ∧ R x' y' ∧ S y y' := by
  induction h with
  | nil => exact .nil
  | cons hR hrest ih =>
    obtain ⟨hfirst, hys⟩ := List.pairwise_cons.1 hys
    refine List.pairwise_cons.2 ⟨fun x' hx' => ?_, ih hys⟩
    obtain ⟨y', hy', hR'⟩ := exists_mem_of_forall₂ hrest hx'
    exact ⟨_, y', hR, hR', hfirst y' hy'⟩

/-- The order of rules and dots. -/
def Item.Before (item other : Item) : Prop :=
  item.rule < other.rule ∨ item.rule = other.rule ∧ item.dot < other.dot

/-- An item that is before another one differs from it. -/
theorem Item.Before.ne {item other : Item} (h : item.Before other) : item ≠ other := by
  rintro rfl
  rcases h with hrule | ⟨-, hdot⟩
  · exact Nat.lt_irrefl _ hrule
  · exact Nat.lt_irrefl _ hdot

/-- The numbers of a numbered list ascend. -/
theorem pairwise_zipIdx {α : Type} (xs : List α) : xs.zipIdx.Pairwise fun x y => x.2 < y.2 := by
  have hnumbers : (xs.zipIdx.map Prod.snd).Pairwise (· < ·) := by
    rw [List.zipIdx_map_snd]
    exact List.pairwise_lt_range'
  exact List.pairwise_map.1 hnumbers

namespace Grammar

variable {g : Grammar} {item : Item} {X : Symbol}

/-- The items of a grammar are listed in the order of rules and dots. -/
theorem pairwise_allItems (g : Grammar) : g.allItems.Pairwise Item.Before := by
  refine List.pairwise_flatMap.2 ⟨?_, (pairwise_zipIdx g.rules.toList).imp ?_⟩
  · rintro ⟨rule, id⟩ -
    exact List.pairwise_map.2 (List.pairwise_lt_range.imp fun hlt => .inr ⟨rfl, hlt⟩)
  · rintro ⟨_, id⟩ ⟨_, id'⟩ hlt item hitem other hother
    obtain ⟨dot, -, rfl⟩ := List.mem_map.1 hitem
    obtain ⟨dot', -, rfl⟩ := List.mem_map.1 hother
    exact .inl hlt

/-- No item of a grammar is listed twice. -/
theorem nodup_allItems (g : Grammar) : g.allItems.Nodup := (pairwise_allItems g).imp Item.Before.ne

/-- An item that waits for a symbol moves on it first, and then to the starts of rules in the order
of the rules. -/
theorem exists_moves_eq (hg : g.CrossReferenced) (h : item.Awaits g X) :
    ∃ rules : List RuleId, rules.Pairwise (· < ·) ∧
      g.moves item = (X, item.advance) :: rules.map fun id => (.epsilon, ⟨id, 0⟩) := by
  by_cases hX : ∃ n, X = .nonterminal n
  · obtain ⟨n, rfl⟩ := hX
    obtain ⟨hn, -⟩ := rulesFor_of_awaits hg h
    obtain ⟨rules, hrules, -, hascending⟩ := hg.exists_rulesFor hn
    exact ⟨rules, hascending, moves_nonterminal h hrules⟩
  · exact ⟨[], .nil, moves_of_awaits h (not_exists.1 hX)⟩

/-- The order in which the moves of numbered items are listed: a move on a symbol comes before the
moves of its item that read nothing, and these are in the order of the rules they lead to. -/
def Precedes (move later : Nat × Symbol × Item) : Prop :=
  move.1 < later.1 ∨ move.1 = later.1 ∧ later.2.1 = .epsilon ∧
    (move.2.1 = .epsilon → move.2.2.rule < later.2.2.rule)

/-- No move comes before itself. -/
theorem not_precedes_self (move : Nat × Symbol × Item) : ¬ Precedes move move := by
  rintro (hsource | ⟨-, hepsilon, hrule⟩)
  · exact Nat.lt_irrefl _ hsource
  · exact Nat.lt_irrefl _ (hrule hepsilon)

/-- The moves of one item are in order. -/
theorem pairwise_moves (hg : g.CrossReferenced) (item : Item) (i : Nat) :
    ((g.moves item).map (i, ·)).Pairwise Precedes := by
  rw [List.pairwise_map]
  by_cases hwaits : ∃ X, item.Awaits g X
  · obtain ⟨X, hX⟩ := hwaits
    obtain ⟨rules, hascending, hmoves⟩ := exists_moves_eq hg hX
    rw [hmoves, List.pairwise_cons, List.pairwise_map]
    refine ⟨fun move hmove => ?_, hascending.imp fun hlt => .inr ⟨rfl, rfl, fun _ => hlt⟩⟩
    obtain ⟨id, -, rfl⟩ := List.mem_map.1 hmove
    exact .inr ⟨rfl, rfl, fun hepsilon => absurd hepsilon (hX.ne_epsilon hg)⟩
  · rw [moves_eq_nil (not_exists.1 hwaits)]
    exact .nil

/-- The moves of all items are in order. -/
theorem pairwise_allMoves (hg : g.CrossReferenced) :
    (g.allItems.zipIdx.flatMap fun source => (g.moves source.1).map (source.2, ·)).Pairwise
      Precedes := by
  refine List.pairwise_flatMap.2 ⟨fun source _ => pairwise_moves hg source.1 source.2,
    (pairwise_zipIdx g.allItems).imp ?_⟩
  intro source later hlt move hmove move' hmove'
  obtain ⟨_, -, rfl⟩ := List.mem_map.1 hmove
  obtain ⟨_, -, rfl⟩ := List.mem_map.1 hmove'
  exact .inl hlt

end Grammar

namespace Nfa

variable {g : Grammar} {bounds : Bounds} {table after : ItemTable} {nfa larger : Nfa}
  {item : Item} {i j : Nat}

/-- The counters of the states tell how many transitions leave and enter them. -/
def Counted (nfa : Nfa) : Prop :=
  ∀ i state, nfa.states[i]? = some state →
    state.outward = nfa.edges.toList.countP (·.source == i) ∧
    state.inward = nfa.edges.toList.countP (·.target == i)

namespace Counted

/-- A new transition is counted at both ends, also if they are the same state. -/
theorem addEdge {edge : Edge} (h : nfa.Counted) (hadd : nfa.addEdge bounds edge = .ok larger) :
    larger.Counted := by
  obtain ⟨_, -, hadd⟩ := bind_eq_ok.1 hadd
  obtain ⟨left, hleft, hadd⟩ := bind_eq_ok.1 hadd
  obtain ⟨entered, hentered, hadd⟩ := bind_eq_ok.1 hadd
  obtain rfl := Except.ok.inj hadd
  obtain ⟨-, rfl⟩ := update_eq_ok.1 hleft
  obtain ⟨-, rfl⟩ := update_eq_ok.1 hentered
  intro i state hstate
  simp only [Array.getElem?_modify] at hstate
  cases hold : nfa.states[i]? with
  | none => simp [hold] at hstate
  | some old =>
    obtain ⟨hout, hin⟩ := h i old hold
    simp only [Array.toList_push, List.countP_append, List.countP_singleton, ← hout, ← hin,
      beq_iff_eq]
    rw [hold] at hstate
    by_cases hsource : edge.source = i <;> by_cases htarget : edge.target = i <;>
      simp only [hsource, htarget, if_true, if_false, Option.map_some, Option.some.injEq]
        at hstate ⊢ <;>
      simp [← hstate]

/-- The transition to the state of an item is counted. -/
theorem connect {source : Nat} {X : Symbol} (h : nfa.Counted) (table : ItemTable) :
    Ensures (nfa.connect g bounds source X item) table (fun larger _ => larger.Counted)
      (fun _ _ => True) := by
  refine Ensures.bind (Ensures.trivial _ table) fun id after _ => ?_
  refine Ensures.bind (Ensures.trivial _ after) fun target later _ => ?_
  exact (Ensures.lifted _ later).mono (fun _ _ hadd => h.addEdge hadd.1) fun _ _ _ => trivial

/-- All transitions that leave a state are counted. -/
theorem connectAll {source : State × Nat} (h : nfa.Counted) (table : ItemTable) :
    Ensures (nfa.connectAll g bounds source) table (fun larger _ => larger.Counted)
      (fun _ _ => True) := by
  refine Ensures.bind (Ensures.trivial _ table) fun next after _ => ?_
  cases next with
  | none => exact .pure h
  | some X =>
    refine Ensures.bind (h.connect after) fun larger later hlarger => ?_
    cases X with
    | nonterminal n =>
      refine Ensures.bind (Ensures.trivial _ later) fun rules last _ => ?_
      exact .foldlM (fun _ (nfa : Nfa) _ => nfa.Counted)
        (fun _ _ _ nfa table _ hnfa => hnfa.connect table) hlarger
    | terminal t => exact .pure hlarger
    | epsilon => exact .pure hlarger
    | endOfInput => exact .pure hlarger

/-- A new state has no transitions while there are none. -/
theorem addState (h : nfa.Counted ∧ nfa.edges = #[]) (table : ItemTable) :
    Ensures (nfa.addState g bounds item) table
      (fun larger _ => larger.Counted ∧ larger.edges = #[]) (fun _ _ => True) := by
  obtain ⟨hcounted, hedges⟩ := h
  refine Ensures.bind (Ensures.trivial _ table) fun id after _ => ?_
  refine Ensures.bind (Ensures.trivial _ after) fun _ later _ => ?_
  refine .pure ⟨fun i state hstate => ?_, hedges⟩
  rw [Array.getElem?_push] at hstate
  split at hstate
  · obtain rfl := Option.some.inj hstate
    simp [hedges]
  · exact hcounted i state hstate

/-- All transitions of the item automaton are counted. -/
theorem build (g : Grammar) (bounds : Bounds) (table : ItemTable) :
    Ensures (Nfa.build g bounds) table (fun nfa _ => nfa.Counted) (fun _ _ => True) := by
  have hempty : Counted {} ∧ ({} : Nfa).edges = #[] :=
    ⟨fun i state hstate => by simp at hstate, rfl⟩
  refine Ensures.bind (Ensures.foldlM (fun _ (nfa : Nfa) _ => nfa.Counted ∧ nfa.edges = #[])
    (fun _ _ _ nfa table _ hnfa => addState hnfa table) hempty) fun nfa middle hnfa => ?_
  refine Ensures.bind (Ensures.trivial _ middle) fun start after _ => ?_
  exact .foldlM (fun _ (nfa : Nfa) _ => nfa.Counted)
    (fun _ _ _ nfa table _ hnfa => hnfa.connectAll table) hnfa.1

end Counted

/-- A transition stands for one move. -/
theorem Realizes.unique {edge : Edge} {move move' : Nat × Symbol × Item}
    (h : nfa.Realizes edge move) (h' : nfa.Realizes edge move') : move = move' := by
  obtain ⟨hsource, hsymbol, hitem⟩ := h
  obtain ⟨hsource', hsymbol', hitem'⟩ := h'
  exact Prod.ext (hsource.symm.trans hsource') (Prod.ext (hsymbol.symm.trans hsymbol')
    (Option.some.inj (hitem.symm.trans hitem')))

namespace Faithful

/-- The item automaton has the items of the grammar in its states. -/
theorem populated (h : nfa.Faithful g table) : nfa.Populated table g.allItems :=
  ⟨h.items_eq, h.named⟩

/-- Different states have different items. -/
theorem itemAt?_injective (h : nfa.Faithful g table) (hi : nfa.itemAt? i = some item)
    (hj : nfa.itemAt? j = some item) : i = j := by
  rw [h.populated.itemAt?_eq] at hi hj
  obtain ⟨hlt, -⟩ := List.getElem?_eq_some_iff.1 hi
  exact (List.getElem?_inj hlt g.nodup_allItems).1 (hi.trans hj.symm)

/-- The transitions are in the order of the moves. -/
theorem pairwise_edges (h : nfa.Faithful g table) (hg : g.CrossReferenced) :
    nfa.edges.toList.Pairwise fun edge later => ∃ move move', nfa.Realizes edge move ∧
      nfa.Realizes later move' ∧ Grammar.Precedes move move' :=
  pairwise_of_forall₂ h.edges_eq (Grammar.pairwise_allMoves hg)

/-- No transition stands twice. -/
theorem nodup_edges (h : nfa.Faithful g table) (hg : g.CrossReferenced) :
    nfa.edges.toList.Nodup := by
  refine (h.pairwise_edges hg).imp ?_
  rintro edge _ ⟨move, move', hmove, hmove', hprecedes⟩ rfl
  rw [hmove.unique hmove'] at hprecedes
  exact Grammar.not_precedes_self _ hprecedes

/-- There is a transition for each move of the item of a state, and no other one. -/
theorem mem_edges (h : nfa.Faithful g table) (hg : g.CrossReferenced) {X : Symbol} :
    ⟨i, X, j⟩ ∈ nfa.edges ↔ ∃ item next, nfa.itemAt? i = some item ∧ nfa.itemAt? j = some next ∧
      (item.Awaits g X ∧ next = item.advance ∨ X = .epsilon ∧ ∃ n id,
        item.Awaits g (.nonterminal n) ∧ g.Heads n id ∧ next = ⟨id, 0⟩) := by
  constructor
  · intro hedge
    obtain ⟨item, next, hitem, hnext, hmove⟩ := h.exists_move hedge
    exact ⟨item, next, hitem, hnext, (Grammar.mem_moves hg).1 hmove⟩
  · rintro ⟨item, next, hitem, hnext, hmove⟩
    obtain ⟨k, hedge, hk⟩ := h.exists_edge hitem ((Grammar.mem_moves hg).2 hmove)
    rwa [h.itemAt?_injective hnext hk]

/-- An item that is not complete has one transition on a symbol. -/
theorem exists_symbolEdge (h : nfa.Faithful g table) (hg : g.CrossReferenced)
    (hitem : nfa.itemAt? i = some item) (hopen : ¬ item.Complete g) :
    ∃ X j, item.Awaits g X ∧ nfa.itemAt? j = some item.advance ∧
      (nfa.edgesFrom i).filter (·.symbol != .epsilon) = [⟨i, X, j⟩] := by
  have hin : item.In g := by
    rw [h.populated.itemAt?_eq] at hitem
    exact Grammar.mem_allItems.1 (List.mem_of_getElem? hitem)
  rw [hin.complete_iff] at hopen
  push Not at hopen
  obtain ⟨X, hX⟩ := hopen
  obtain ⟨j, hedge, hj⟩ := h.exists_edge hitem ((Grammar.mem_moves hg).2 (.inl ⟨hX, rfl⟩))
  have hnodup : ((nfa.edgesFrom i).filter (·.symbol != .epsilon)).Nodup :=
    ((h.nodup_edges hg).filter _).filter _
  refine ⟨X, j, hX, hj, List.perm_singleton.1 ((List.perm_ext_iff_of_nodup hnodup
    (List.nodup_singleton _)).2 fun ⟨source, Y, target⟩ => ?_)⟩
  simp only [edgesFrom, List.mem_filter, Array.mem_toList_iff, beq_iff_eq, bne_iff_ne,
    List.mem_singleton]
  constructor
  · rintro ⟨⟨hmem, rfl⟩, hY⟩
    obtain ⟨waiting, next, hwaiting, hnext, ⟨hawaits, rfl⟩ | ⟨hepsilon, -⟩⟩ :=
      (h.mem_edges hg).1 hmem
    · obtain rfl := Option.some.inj (hitem.symm.trans hwaiting)
      rw [hawaits.unique hX, h.itemAt?_injective hnext hj]
    · exact absurd hepsilon hY
  · intro hsame
    cases hsame
    exact ⟨⟨hedge, rfl⟩, hX.ne_epsilon hg⟩

/-- The transitions of a state that read nothing are in the order of the rules they lead to. -/
theorem pairwise_epsilonEdges (h : nfa.Faithful g table) (hg : g.CrossReferenced) (i : Nat) :
    (nfa.epsilonEdges i).Pairwise fun edge later => ∃ item next,
      nfa.itemAt? edge.target = some item ∧ nfa.itemAt? later.target = some next ∧
        item.rule < next.rule := by
  refine (((h.pairwise_edges hg).filter _).filter _).imp_of_mem ?_
  rintro edge later hedge hlater ⟨_, _, ⟨hsource, hsymbol, hitem⟩, ⟨hsource', -, hnext⟩, hprecedes⟩
  simp only [List.mem_filter, beq_iff_eq] at hedge hlater
  refine ⟨_, _, hitem, hnext, ?_⟩
  rcases hprecedes with hlt | ⟨-, -, hrule⟩
  · omega
  · exact hrule (hsymbol.symm.trans hedge.2)

/-- The state of an item can be looked up by the number of the item, and only by this number. -/
theorem stateOf_eq_iff (h : nfa.Faithful g table) {id : ItemId} :
    nfa.stateOf id = .ok i ↔ ∃ state, nfa.states[i]? = some state ∧ state.id = id := by
  constructor
  · intro hfound
    unfold stateOf at hfound
    split at hfound
    · rename_i k hfind
      obtain rfl := Except.ok.inj hfound
      obtain ⟨hlt, hid, -⟩ := Array.findIdx?_eq_some_iff_getElem.1 hfind
      exact ⟨_, Array.getElem?_eq_getElem hlt, eq_of_beq hid⟩
    · cases hfound
  · rintro ⟨state, hstate, rfl⟩
    obtain ⟨k, hk, hitem⟩ :=
      h.populated.stateOf_eq h.valid (h.named state (Array.mem_of_getElem? hstate))
    have hitem' : nfa.itemAt? i = some state.item := by rw [itemAt?, hstate, Option.map_some]
    rw [h.itemAt?_injective hitem' hitem]
    exact hk

/-- The items in states are those of the grammar. -/
theorem exists_state_iff (h : nfa.Faithful g table) (item : Item) :
    (∃ state ∈ nfa.states, state.item = item) ↔ item.In g := by
  rw [← Grammar.mem_allItems, ← h.items_eq, List.mem_map]
  simp only [Array.mem_toList_iff]

/-- After the item automaton is built, the table has all items of the grammar. -/
theorem mem_table (h : nfa.Faithful g table) (item : Item) : item ∈ table.items ↔ item.In g := by
  refine ⟨h.valid.items_in item, fun hitem => ?_⟩
  obtain ⟨state, hstate, rfl⟩ := (h.exists_state_iff item).2 hitem
  exact Array.mem_of_getElem? (h.named state hstate)

end Faithful

/-- The automaton that has the items of a grammar as its states and the moves of the items as its
transitions, with the table that it leaves. -/
structure IsItemAutomaton (g : Grammar) (table : ItemTable) (nfa : Nfa) : Prop where
  /-- Every item of the grammar has a state. -/
  exists_state_iff : ∀ item : Item, (∃ state ∈ nfa.states, state.item = item) ↔ item.In g
  /-- States are in the order of the rules and dots of their items, so no item has two. -/
  ordered : nfa.states.toList.Pairwise fun state later => state.item.Before later.item
  /-- A state knows the number of its item. -/
  named : ∀ state ∈ nfa.states, table.items[state.id]? = some state.item
  /-- The look-up of states is the inverse of that of the numbers of their items. -/
  stateOf_eq_iff : ∀ id i, nfa.stateOf id = .ok i ↔
    ∃ state, nfa.states[i]? = some state ∧ state.id = id
  table_nodup : table.items.toList.Nodup
  /-- The table has the items of the grammar. -/
  mem_table : ∀ item : Item, item ∈ table.items ↔ item.In g
  edges_nodup : nfa.edges.toList.Nodup
  /-- Transitions advance the dot over its symbol or lead to the rules of a non-terminal. -/
  mem_edges : ∀ i X j, ⟨i, X, j⟩ ∈ nfa.edges ↔ ∃ item next,
    nfa.itemAt? i = some item ∧ nfa.itemAt? j = some next ∧
      (item.Awaits g X ∧ next = item.advance ∨ X = .epsilon ∧ ∃ n id,
        item.Awaits g (.nonterminal n) ∧ g.Heads n id ∧ next = ⟨id, 0⟩)
  /-- An item that is not complete has one transition on a symbol. -/
  exists_symbolEdge : ∀ i item, nfa.itemAt? i = some item → ¬ item.Complete g →
    ∃ X j, item.Awaits g X ∧ nfa.itemAt? j = some item.advance ∧
      (nfa.edgesFrom i).filter (·.symbol != .epsilon) = [⟨i, X, j⟩]
  /-- States count the transitions that leave and enter them. -/
  counted : nfa.Counted
  mem_epsilonEdges : ∀ i edge, edge ∈ nfa.epsilonEdges i ↔
    edge ∈ nfa.edges ∧ edge.source = i ∧ edge.symbol = .epsilon
  /-- Transitions that read nothing are listed in the order of the rules they lead to. -/
  epsilonEdges_ascending : ∀ i, (nfa.epsilonEdges i).Pairwise fun edge later => ∃ item next,
    nfa.itemAt? edge.target = some item ∧ nfa.itemAt? later.target = some next ∧
      item.rule < next.rule

/-- What the construction ends with is the item automaton of the grammar. -/
theorem Faithful.isItemAutomaton (h : nfa.Faithful g table) (hg : g.CrossReferenced)
    (hcounted : nfa.Counted) : nfa.IsItemAutomaton g table where
  exists_state_iff := h.exists_state_iff
  ordered := by
    rw [← List.pairwise_map (f := State.item), h.items_eq]
    exact g.pairwise_allItems
  named := h.named
  stateOf_eq_iff _ _ := h.stateOf_eq_iff
  table_nodup := h.valid.nodup
  mem_table := h.mem_table
  edges_nodup := h.nodup_edges hg
  mem_edges _ _ _ := h.mem_edges hg
  exists_symbolEdge _ _ := h.exists_symbolEdge hg
  counted := hcounted
  mem_epsilonEdges i edge := by
    simp only [epsilonEdges, edgesFrom, List.mem_filter, Array.mem_toList_iff, beq_iff_eq,
      and_assoc]
  epsilonEdges_ascending := h.pairwise_epsilonEdges hg

/-- For a grammar that was read and a table of some of its items without bounds, the item automaton
is built. Its states are the items of the grammar in their order, its transitions are the moves of
the items, and its counters are right. The table then has all items of the grammar, so the canonical
collection is built on it without a further item. -/
theorem build_exact {options : ReadOptions} {tokens : List Token}
    (hread : Grammar.ofTokens options tokens = .ok g) (hvalid : table.Valid g)
    (hbounds : table.bounds = .unbounded) :
    ∃ nfa after, Nfa.build g .unbounded table = .ok nfa after ∧ table.Grows g after ∧
      nfa.IsItemAutomaton g after ∧ ∃ dfa, Dfa.build g .unbounded after = .ok dfa after := by
  have hg := Grammar.wellFormed_ofTokens hread
  obtain ⟨nfa, after, hnfa, hgrows, hfaithful⟩ :=
    (Nfa.build_meets hg.toLinked hvalid).exists_ok hbounds
  have hcounted : nfa.Counted := (Counted.build g .unbounded table).of_ok hnfa
  obtain ⟨dfa, later, hdfa, hlater, -⟩ :=
    (Dfa.build_meets hg hgrows.valid).exists_ok (hgrows.bounds_eq.trans hbounds)
  obtain rfl : later = after := hlater.eq_of_full fun item => (hfaithful.mem_table item).2
  exact ⟨nfa, later, hnfa, hgrows, hfaithful.isItemAutomaton hg.toCrossReferenced hcounted, dfa,
    hdfa⟩

/-- For the rules `S -> S 'a' | S |` and a table that has the item `S -> S . 'a'` already: the item
`S -> . S 'a'` has the fifth number and the fourth state, which four transitions leave and three
enter, one of them from itself, and the automaton is exact. -/
theorem build_exact_of_left_recursion : ∃ g nfa after,
    Grammar.ofSource {} "S -> S 'a' | S | ;" = .ok g ∧
    Nfa.build g .unbounded { items := #[⟨1, 1⟩] } = .ok nfa after ∧
    nfa.states[3]? = some { id := 4, item := ⟨1, 0⟩, inward := 3, outward := 4 } ∧
    ⟨3, .epsilon, 3⟩ ∈ nfa.edges ∧ nfa.IsItemAutomaton g after ∧
    ∃ dfa, Dfa.build g .unbounded after = .ok dfa after := by
  have hsource : (Grammar.ofSource {} "S -> S 'a' | S | ;").toOption.map (fun g =>
      (g.rules[1]?, (outcome (Nfa.build g .unbounded { items := #[⟨1, 1⟩] })).toOption.map
        fun built => (built.1.states[3]?, built.1.edges.contains ⟨3, .epsilon, 3⟩))) =
      some (some ⟨1, [.nonterminal 1, .terminal 0]⟩,
        some (some { id := 4, item := ⟨1, 0⟩, inward := 3, outward := 4 }, true)) := by
    decide +kernel
  obtain ⟨g, hok, hparts⟩ := Option.map_eq_some_iff.1 hsource
  obtain ⟨hrule, hbuilt⟩ := Prod.mk.inj hparts
  obtain ⟨⟨nfa, after⟩, hrun, hparts⟩ := Option.map_eq_some_iff.1 hbuilt
  obtain ⟨hstate, hloop⟩ := Prod.mk.inj hparts
  have hread := eq_ok_of_toOption hok
  have hvalid : ItemTable.Valid g { items := #[⟨1, 1⟩] } := by
    refine ⟨by simp, fun item hitem => ?_⟩
    obtain rfl := Array.mem_singleton.1 hitem
    exact ⟨_, hrule, by decide⟩
  obtain ⟨_, _, hnfa, -, hexact, hdfa⟩ := build_exact hread hvalid rfl
  have hsame := outcome_eq_ok.1 (eq_ok_of_toOption hrun)
  obtain ⟨rfl, rfl⟩ := EStateM.Result.ok.inj (hnfa.symm.trans hsame)
  exact ⟨g, _, _, hread, hnfa, hstate, Array.contains_iff_mem.1 hloop, hexact, hdfa⟩

end Nfa

end ShiftReduce
