import ShiftReduce.Proofs.Dfa.Moves

/-!
# What is built is the canonical collection

The states of the automaton are the closed sets of items that goto reaches from the closure of the
augmented rule, each once. Its transitions are the moves of goto, each listed once, and the states
without transitions are those that only reduce. All this is said in terms of closure and goto of
sets of items and not of the numbers that the items have in a table.
-/

namespace ShiftReduce

/-- If a property holds of at most one element of a list, a search finds all elements that have
it. -/
theorem filter_eq_toList_find? {α : Type} {p : α → Bool} {xs : List α}
    (h : xs.Pairwise fun a b => ¬ (p a = true ∧ p b = true)) :
    xs.filter p = (xs.find? p).toList := by
  induction xs with
  | nil => rfl
  | cons x xs ih =>
    obtain ⟨hx, hxs⟩ := List.pairwise_cons.1 h
    by_cases hp : p x = true
    · have hnone : xs.filter p = [] := List.filter_eq_nil_iff.2 fun a ha hpa => hx a ha ⟨hp, hpa⟩
      rw [List.filter_cons_of_pos hp, List.find?_cons_of_pos hp, hnone, Option.toList_some]
    · rw [List.filter_cons_of_neg hp, List.find?_cons_of_neg hp, ih hxs]

namespace Dfa

variable {g : Grammar} {table : ItemTable} {dfa : Dfa} {s t : Nat} {X : Symbol} {state : State}

/-- The automaton is the canonical collection of a grammar. -/
structure IsCollection (g : Grammar) (table : ItemTable) (dfa : Dfa) : Prop where
  start_lt : start < dfa.states.size
  start_eq : dfa.itemsAt table start = g.closure {⟨augmentedRule, 0⟩}
  nonempty : ∀ s < dfa.states.size, (dfa.itemsAt table s).Nonempty
  distinct : ∀ s < dfa.states.size, ∀ t < dfa.states.size,
    dfa.itemsAt table s = dfa.itemsAt table t → s = t
  reachable : ∀ s < dfa.states.size, ∃ symbols, dfa.walk? start symbols = some s
  /-- A state moves on a symbol if goto reaches items. -/
  moves_iff : ∀ s X, (∃ t, dfa.move? s X = some t) ↔ (g.goto (dfa.itemsAt table s) X).Nonempty
  /-- A move leads to the state with these items. -/
  move_eq : ∀ s X t, dfa.move? s X = some t →
    t < dfa.states.size ∧ dfa.itemsAt table t = g.goto (dfa.itemsAt table s) X
  /-- The transitions that are listed for a state and a symbol are the move, once. -/
  edges_eq : ∀ s X, (dfa.edges.toList.filter fun edge => edge.source == s && edge.symbol == X) =
    ((dfa.move? s X).map fun t => ⟨s, X, t⟩).toList
  /-- No transition leaves the states that only reduce, and only those. -/
  edgesFrom_eq_nil_iff : ∀ (s : StateId) (state : State), dfa.states[s]? = some state →
    (dfa.edgesFrom s = [] ↔ state.kind.isPureReduction = true)

/-- The transitions of a state on a symbol are its move, once. -/
theorem Consistent.filter_edges (h : dfa.Consistent g table) (s : StateId) (X : Symbol) :
    (dfa.edges.toList.filter fun edge => edge.source == s && edge.symbol == X) =
      ((dfa.move? s X).map fun t => ⟨s, X, t⟩).toList := by
  have hunique : dfa.edges.toList.Pairwise fun edge edge' =>
      ¬ ((edge.source == s && edge.symbol == X) = true ∧
        (edge'.source == s && edge'.symbol == X) = true) := by
    refine h.edge_unique.imp fun {edge edge'} hdiffers hboth => hdiffers ?_
    simp only [Bool.and_eq_true, beq_iff_eq] at hboth
    obtain ⟨⟨hsource, hsymbol⟩, hsource', hsymbol'⟩ := hboth
    exact ⟨hsource.trans hsource'.symm, hsymbol.trans hsymbol'.symm⟩
  rw [filter_eq_toList_find? hunique, Array.find?_toList, move?]
  cases hfind : dfa.edges.find? fun edge => edge.source == s && edge.symbol == X with
  | none => rfl
  | some edge =>
    have hedge := Array.find?_some hfind
    simp only [Bool.and_eq_true, beq_iff_eq] at hedge
    obtain ⟨rfl, rfl⟩ := hedge
    rfl

namespace Canonical

/-- Different states have different items, whatever their numbers in the table. -/
theorem itemsAt_injective (h : dfa.Canonical g table) (hs : s < dfa.states.size)
    (ht : t < dfa.states.size) (heq : dfa.itemsAt table s = dfa.itemsAt table t) : s = t := by
  have hstate := Array.getElem?_eq_getElem hs
  have hstate' := Array.getElem?_eq_getElem ht
  rw [itemsAt_eq hstate, itemsAt_eq hstate'] at heq
  exact h.distinct hstate hstate'
    (ItemSet.eq_of_items_eq h.valid (h.within hstate) (h.within hstate') heq)

/-- A walk from the start state leads to every state. The walk to an earlier state can go on, since
a state is entered from an earlier one. -/
theorem exists_walk_to (h : dfa.Canonical g table) (hs : s < dfa.states.size) :
    ∃ symbols, dfa.walk? start symbols = some s := by
  induction s using Nat.strong_induction_on with
  | h s ih =>
    by_cases hstart : s = start
    · exact ⟨[], hstart ▸ rfl⟩
    · obtain ⟨r, X, hmove, hlt⟩ := h.exists_move_to hs hstart
      obtain ⟨symbols, hwalk⟩ := ih r hlt (h.lt_of_move hmove).1
      exact ⟨symbols ++ [X], walk?_concat hwalk hmove⟩

/-- The transitions that leave a state are on the symbols that it lists. -/
theorem edgesFrom_eq_nil_iff_next (h : dfa.Canonical g table)
    (hstate : dfa.states[s]? = some state) : dfa.edgesFrom s = [] ↔ state.next = [] := by
  simp only [edgesFrom, List.filter_eq_nil_iff, Array.mem_toList_iff, beq_iff_eq]
  constructor
  · intro hnone
    rw [List.eq_nil_iff_forall_not_mem]
    intro X hX
    obtain ⟨edge, hedge, hsource, -⟩ := h.expanded hstate X hX
    exact hnone edge hedge hsource
  · rintro hnext edge hedge rfl
    obtain ⟨a, -, ha, -, hsymbol, -⟩ := h.edge_goto edge hedge
    obtain rfl := Option.some.inj (hstate.symm.trans ha)
    rw [hnext] at hsymbol
    exact List.not_mem_nil hsymbol

/-- No transition leaves a state if it only reduces. -/
theorem edgesFrom_eq_nil_iff_kind (h : dfa.Canonical g table)
    (hstate : dfa.states[s]? = some state) :
    dfa.edgesFrom s = [] ↔ state.kind.isPureReduction = true := by
  have hnonempty := h.itemsAt_nonempty (Array.getElem?_eq_some_iff.1 hstate).1
  rw [itemsAt_eq hstate] at hnonempty
  obtain ⟨item, id, hid, -⟩ := hnonempty
  have hpos : 0 < state.items.size := List.length_pos_of_mem hid
  rw [h.edgesFrom_eq_nil_iff_next hstate, State.isPureReduction_kind,
    State.next_eq_nil_iff h.valid (h.within hstate) (h.summary hstate)]
  omega

/-- What the construction ends with is the canonical collection of the grammar. -/
theorem isCollection (h : dfa.Canonical g table) : dfa.IsCollection g table where
  start_lt := h.nonempty
  start_eq := h.itemsAt_start
  nonempty _ hs := h.itemsAt_nonempty hs
  distinct _ hs _ ht heq := h.itemsAt_injective hs ht heq
  reachable _ hs := h.exists_walk_to hs
  moves_iff _ _ := h.exists_move_iff.trans Grammar.goto_nonempty_iff.symm
  move_eq _ _ _ hmove := ⟨(h.lt_of_move hmove).2, h.itemsAt_move hmove⟩
  edges_eq := h.filter_edges
  edgesFrom_eq_nil_iff _ _ hstate := h.edgesFrom_eq_nil_iff_kind hstate

end Canonical

/-- For a grammar that was read and a table of some of its items, what is built without bounds is
the canonical collection. The table keeps its items, and gets those that were missing. -/
theorem build_collection {options : ReadOptions} {tokens : List Token}
    (hread : Grammar.ofTokens options tokens = .ok g) (hvalid : table.Valid g)
    (hbounds : table.bounds = .unbounded) :
    ∃ dfa after, build g .unbounded table = .ok dfa after ∧ table.Grows g after ∧
      dfa.IsCollection g after := by
  have hg := Grammar.wellFormed_ofTokens hread
  obtain ⟨dfa, after, hdfa, hgrows, hcanonical⟩ := (build_meets hg hvalid).exists_ok hbounds
  exact ⟨dfa, after, hdfa, hgrows, hcanonical.isCollection⟩

/-- For the rules `S -> 'a' S |` and a table that has the item `S -> 'a' . S` already, what is built
is the canonical collection, with five states. -/
theorem build_collection_of_letters :
    ∃ g dfa after, Grammar.ofSource {} "S -> 'a' S | ;" = .ok g ∧
      build g .unbounded { items := #[⟨1, 1⟩] } = .ok dfa after ∧ dfa.states.size = 5 ∧
      dfa.IsCollection g after := by
  have hsource : (Grammar.ofSource {} "S -> 'a' S | ;").toOption.map (fun g => (g.rules[1]?,
      match build g .unbounded { items := #[⟨1, 1⟩] } with
      | .ok dfa _ => dfa.states.size
      | .error _ _ => 0)) = some (some ⟨1, [.terminal 0, .nonterminal 1]⟩, 5) := by
    decide +kernel
  obtain ⟨g, hok, hparts⟩ := Option.map_eq_some_iff.1 hsource
  obtain ⟨hrule, hsize⟩ := Prod.mk.inj hparts
  have hread := eq_ok_of_toOption hok
  have hvalid : ItemTable.Valid g { items := #[⟨1, 1⟩] } := by
    refine ⟨by simp, fun item hitem => ?_⟩
    obtain rfl := Array.mem_singleton.1 hitem
    exact ⟨_, hrule, by decide⟩
  obtain ⟨dfa, after, hdfa, -, hcollection⟩ := build_collection hread hvalid rfl
  rw [hdfa] at hsize
  exact ⟨g, dfa, after, hread, hdfa, hsize, hcollection⟩

end Dfa

end ShiftReduce
