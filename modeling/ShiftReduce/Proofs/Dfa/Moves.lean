import ShiftReduce.Proofs.Dfa.Canonical

/-!
# Moves of the canonical collection

A state of the canonical collection moves exactly on the symbols that its items wait for, and a move
advances these items. Items with the dot past the start can be traced back along a move, and the
start of a rule is in a state because an item of the state waits for the head of the rule.
-/

namespace ShiftReduce

namespace Dfa

variable {g : Grammar} {table : ItemTable} {dfa : Dfa} {r s t : Nat} {X : Symbol} {item : Item}

/-- A move is a transition. -/
theorem mem_edges_of_move? (h : dfa.move? s X = some t) : ⟨s, X, t⟩ ∈ dfa.edges := by
  obtain ⟨edge, hfind, rfl⟩ := Option.map_eq_some_iff.1 h
  have hmem := Array.mem_of_find?_eq_some hfind
  have hedge := Array.find?_some hfind
  simp only [Bool.and_eq_true, beq_iff_eq] at hedge
  obtain ⟨rfl, rfl⟩ := hedge
  exact hmem

namespace Consistent

/-- Transitions of one state on one symbol are the same. -/
theorem edge_eq {edge edge' : Edge} (h : dfa.Consistent g table) (hedge : edge ∈ dfa.edges)
    (hedge' : edge' ∈ dfa.edges) (hsource : edge.source = edge'.source)
    (hsymbol : edge.symbol = edge'.symbol) : edge = edge' := by
  by_contra hne
  have hsymm : Std.Symm fun edge edge' : Edge =>
      ¬ (edge.source = edge'.source ∧ edge.symbol = edge'.symbol) :=
    ⟨fun _ _ hdiffers hsame => hdiffers ⟨hsame.1.symm, hsame.2.symm⟩⟩
  exact h.edge_unique.forall (Array.mem_toList_iff.2 hedge) (Array.mem_toList_iff.2 hedge') hne
    ⟨hsource, hsymbol⟩

/-- Moves and transitions are the same. -/
theorem move?_eq_some_iff (h : dfa.Consistent g table) :
    dfa.move? s X = some t ↔ ⟨s, X, t⟩ ∈ dfa.edges := by
  refine ⟨mem_edges_of_move?, fun hmem => ?_⟩
  cases hmove : dfa.move? s X with
  | some t' =>
    have heq := h.edge_eq (mem_edges_of_move? hmove) hmem rfl rfl
    cases heq
    rfl
  | none =>
    have hnone := Array.find?_eq_none.1 (Option.map_eq_none_iff.1 hmove) _ hmem
    simp at hnone

end Consistent

namespace Canonical

/-- A larger table changes nothing. -/
theorem grow_table {after : ItemTable} (h : dfa.Canonical g table) (hgrows : table.Grows g after) :
    dfa.Canonical g after :=
  ⟨h.toConsistent.grow_table hgrows, h.nonempty, h.expanded, h.entered⟩

/-- The start state is the closure of the augmented rule with the dot at the start. -/
theorem itemsAt_start (h : dfa.Canonical g table) :
    dfa.itemsAt table start = g.closure {⟨augmentedRule, 0⟩} := by
  have hstate : dfa.states[start]? = some _ := Array.getElem?_eq_getElem h.nonempty
  rw [itemsAt_eq hstate, h.start_eq hstate]

/-- A move leads to the items that goto gives. -/
theorem itemsAt_move (h : dfa.Canonical g table) (hmove : dfa.move? s X = some t) :
    dfa.itemsAt table t = g.goto (dfa.itemsAt table s) X := by
  obtain ⟨a, b, ha, hb, -, hgoto⟩ := h.edge_goto _ (mem_edges_of_move? hmove)
  rw [itemsAt_eq ha, itemsAt_eq hb, hgoto]

/-- A state moves on the symbols that its items wait for. -/
theorem exists_move_iff (h : dfa.Canonical g table) :
    (∃ t, dfa.move? s X = some t) ↔ ∃ item ∈ dfa.itemsAt table s, item.Awaits g X := by
  constructor
  · rintro ⟨t, hmove⟩
    obtain ⟨a, b, ha, -, hnext, -⟩ := h.edge_goto _ (mem_edges_of_move? hmove)
    rw [itemsAt_eq ha]
    exact (h.mem_next ha).1 hnext
  · rintro ⟨item, ⟨state, hstate, hitem⟩, hawaits⟩
    have hnext := (h.mem_next hstate).2 ⟨item, hitem, hawaits⟩
    obtain ⟨⟨_, _, t⟩, hedge, rfl, rfl⟩ := h.expanded hstate X hnext
    exact ⟨t, h.move?_eq_some_iff.2 hedge⟩

/-- A move stays among the states. -/
theorem lt_of_move (h : dfa.Canonical g table) (hmove : dfa.move? s X = some t) :
    s < dfa.states.size ∧ t < dfa.states.size := by
  obtain ⟨a, b, ha, hb, -⟩ := h.edge_goto _ (mem_edges_of_move? hmove)
  exact ⟨(Array.getElem?_eq_some_iff.1 ha).1, (Array.getElem?_eq_some_iff.1 hb).1⟩

/-- A state other than the start state is entered by a move from an earlier state. -/
theorem exists_move_to (h : dfa.Canonical g table) (hs : s < dfa.states.size) (hstart : s ≠ start) :
    ∃ r X, dfa.move? r X = some s ∧ r < s := by
  obtain ⟨⟨r, X, _⟩, hedge, rfl, hlt⟩ := h.entered s (Nat.pos_of_ne_zero hstart) hs
  exact ⟨r, X, h.move?_eq_some_iff.2 hedge, hlt⟩

/-- The items of a state are closed. -/
theorem closed_itemsAt (h : dfa.Canonical g table) (s : Nat) :
    g.Closed (dfa.itemsAt table s) := by
  by_cases hs : s < dfa.states.size
  · by_cases hstart : s = start
    · rw [hstart, h.itemsAt_start]
      exact Grammar.closed_closure g _
    · obtain ⟨r, X, hmove, -⟩ := h.exists_move_to hs hstart
      rw [h.itemsAt_move hmove]
      exact Grammar.closed_closure g _
  · rintro item ⟨state, hstate, -⟩
    exact absurd (Array.getElem?_eq_some_iff.1 hstate).1 hs

/-- The items of a state are items of the grammar. -/
theorem in_of_mem_itemsAt (h : dfa.Canonical g table) (hitem : item ∈ dfa.itemsAt table s) :
    item.In g := by
  obtain ⟨state, -, id, -, hid⟩ := hitem
  exact h.valid.in_of_getElem? hid

/-- A move advances the items that wait for its symbol. -/
theorem advance_mem (h : dfa.Canonical g table) (hmove : dfa.move? s X = some t)
    (hitem : item ∈ dfa.itemsAt table s) (hawaits : item.Awaits g X) :
    item.advance ∈ dfa.itemsAt table t := by
  rw [h.itemsAt_move hmove]
  exact Grammar.subset_closure g _ ⟨item, hitem, hawaits, rfl⟩

/-- An item with the dot past the start was advanced by the move into its state. -/
theorem exists_of_dot_pos (h : dfa.Canonical g table) (hmove : dfa.move? s X = some t)
    (hitem : item ∈ dfa.itemsAt table t) (hdot : 0 < item.dot) :
    ∃ before ∈ dfa.itemsAt table s, before.Awaits g X ∧ item = before.advance := by
  rw [h.itemsAt_move hmove] at hitem
  exact Grammar.mem_kernel_of_dot_pos hitem hdot

/-- The items of the start state have the dot at the start. -/
theorem dot_eq_zero_of_mem_start (h : dfa.Canonical g table)
    (hitem : item ∈ dfa.itemsAt table start) : item.dot = 0 := by
  rw [h.itemsAt_start] at hitem
  by_contra hdot
  have hkernel := Grammar.mem_kernel_of_dot_pos hitem (Nat.pos_of_ne_zero hdot)
  rw [Set.mem_singleton_iff.1 hkernel] at hdot
  exact hdot rfl

/-- No move enters the start state. -/
theorem ne_start_of_move (h : dfa.Canonical g table) (hmove : dfa.move? s X = some t) :
    t ≠ start := by
  rintro rfl
  obtain ⟨item, hitem, hawaits⟩ := h.exists_move_iff.1 ⟨_, hmove⟩
  exact absurd (h.dot_eq_zero_of_mem_start (h.advance_mem hmove hitem hawaits)) (Nat.succ_ne_zero _)

/-- The start of a rule is in a state because an item of the state waits for the head of the rule,
or the rule is the augmented one and the state the start state. -/
theorem cases_of_dot_zero (h : dfa.Canonical g table) (hitem : item ∈ dfa.itemsAt table s)
    (hdot : item.dot = 0) :
    (s = start ∧ item.rule = augmentedRule) ∨ ∃ waiting ∈ dfa.itemsAt table s, ∃ n,
      waiting.Awaits g (.nonterminal n) ∧ g.Heads n item.rule := by
  have hs : s < dfa.states.size := by
    obtain ⟨state, hstate, -⟩ := hitem
    exact (Array.getElem?_eq_some_iff.1 hstate).1
  by_cases hstart : s = start
  · subst hstart
    rw [h.itemsAt_start] at hitem ⊢
    rcases Grammar.mem_closure_cases hitem with hkernel | ⟨waiting, hwaiting, n, hawaits, hheads, -⟩
    · exact .inl ⟨rfl, by rw [Set.mem_singleton_iff.1 hkernel]⟩
    · exact .inr ⟨waiting, hwaiting, n, hawaits, hheads⟩
  · obtain ⟨r, X, hmove, -⟩ := h.exists_move_to hs hstart
    rw [h.itemsAt_move hmove] at hitem ⊢
    rcases Grammar.mem_closure_cases hitem with ⟨before, -, -, rfl⟩ | hrest
    · exact absurd hdot (Nat.succ_ne_zero _)
    · obtain ⟨waiting, hwaiting, n, hawaits, hheads, -⟩ := hrest
      exact .inr ⟨waiting, hwaiting, n, hawaits, hheads⟩

/-- Only the start state has the augmented rule with the dot at the start. -/
theorem eq_start_of_mem (h : dfa.Canonical g table) (hg : g.Linked)
    (hitem : (⟨augmentedRule, 0⟩ : Item) ∈ dfa.itemsAt table s) : s = start := by
  rcases h.cases_of_dot_zero hitem rfl with ⟨hs, -⟩ | ⟨waiting, -, n, hawaits, rule, hrule, hhead⟩
  · exact hs
  · rw [hg.augmented] at hrule
    obtain rfl := Option.some.inj hrule
    obtain ⟨rule, hrule, hbody⟩ := hawaits
    exact absurd hhead.symm (hg.body_in hrule _ (List.mem_of_getElem? hbody)).1

/-- No state is without items. -/
theorem itemsAt_nonempty (h : dfa.Canonical g table) (hs : s < dfa.states.size) :
    (dfa.itemsAt table s).Nonempty := by
  by_cases hstart : s = start
  · rw [hstart, h.itemsAt_start]
    exact ⟨_, Grammar.subset_closure g _ rfl⟩
  · obtain ⟨r, X, hmove, -⟩ := h.exists_move_to hs hstart
    obtain ⟨item, hitem, hawaits⟩ := h.exists_move_iff.1 ⟨s, hmove⟩
    exact ⟨_, h.advance_mem hmove hitem hawaits⟩

end Canonical

/-- Walks go from state to state. -/
theorem walk?_cons (dfa : Dfa) (s : Nat) (X : Symbol) (symbols : List Symbol) :
    dfa.walk? s (X :: symbols) = (dfa.move? s X).bind (dfa.walk? · symbols) :=
  List.foldlM_cons

/-- A walk can go on with a move. -/
theorem walk?_concat {symbols : List Symbol} (hwalk : dfa.walk? r symbols = some s)
    (hmove : dfa.move? s X = some t) : dfa.walk? r (symbols ++ [X]) = some t := by
  have happend : dfa.walk? r (symbols ++ [X]) = (dfa.walk? r symbols).bind (dfa.walk? · [X]) :=
    List.foldlM_append
  rw [happend, hwalk, Option.bind_some, walk?_cons, hmove]
  rfl

namespace Canonical

/-- A walk leads to the items that goto gives along its string. -/
theorem itemsAt_walk {symbols : List Symbol} (h : dfa.Canonical g table)
    (hwalk : dfa.walk? s symbols = some t) :
    dfa.itemsAt table t = g.gotoAll (dfa.itemsAt table s) symbols := by
  induction symbols generalizing s with
  | nil =>
    obtain rfl := Option.some.inj hwalk
    rfl
  | cons X symbols ih =>
    rw [walk?_cons, Option.bind_eq_some_iff] at hwalk
    obtain ⟨r, hmove, hwalk⟩ := hwalk
    rw [ih hwalk, h.itemsAt_move hmove]
    rfl

/-- A walk stays among the states. -/
theorem lt_of_walk {symbols : List Symbol} (h : dfa.Canonical g table) (hs : s < dfa.states.size)
    (hwalk : dfa.walk? s symbols = some t) : t < dfa.states.size := by
  induction symbols generalizing s with
  | nil =>
    obtain rfl := Option.some.inj hwalk
    exact hs
  | cons X symbols ih =>
    rw [walk?_cons, Option.bind_eq_some_iff] at hwalk
    obtain ⟨r, hmove, hwalk⟩ := hwalk
    exact ih (h.lt_of_move hmove).2 hwalk

/-- A walk goes on as long as goto gives items. -/
theorem exists_walk_iff {symbols : List Symbol} (h : dfa.Canonical g table)
    (hs : s < dfa.states.size) :
    (∃ t, dfa.walk? s symbols = some t) ↔
      (g.gotoAll (dfa.itemsAt table s) symbols).Nonempty := by
  constructor
  · rintro ⟨t, hwalk⟩
    rw [← h.itemsAt_walk hwalk]
    exact h.itemsAt_nonempty (h.lt_of_walk hs hwalk)
  · intro hnonempty
    induction symbols generalizing s with
    | nil => exact ⟨s, rfl⟩
    | cons X symbols ih =>
      by_cases hmove : ∃ r, dfa.move? s X = some r
      · obtain ⟨r, hmove⟩ := hmove
        have hitems := h.itemsAt_move hmove
        obtain ⟨t, hwalk⟩ := ih (h.lt_of_move hmove).2 (by rw [hitems]; exact hnonempty)
        exact ⟨t, by rw [walk?_cons, hmove, Option.bind_some, hwalk]⟩
      · have hgoto : g.goto (dfa.itemsAt table s) X = ∅ := by
          rw [h.exists_move_iff] at hmove
          exact Grammar.goto_eq_empty_iff.2 fun item hitem hawaits => hmove ⟨item, hitem, hawaits⟩
        rw [Grammar.gotoAll, List.foldl_cons, hgoto] at hnonempty
        exact absurd (Grammar.gotoAll_empty g symbols) hnonempty.ne_empty

end Canonical

end Dfa

end ShiftReduce
