import ShiftReduce.Proofs.Dfa.Moves
import ShiftReduce.Proofs.Nfa.Build

/-!
# The two automata agree

The item automaton moves from item to item, and the canonical collection from set of items to set of
items. Along a string of symbols the items that the former can reach are those of the state that the
latter reaches. The numbers of the items do not matter: they may come from earlier requests or from
either of the two automata.
-/

namespace ShiftReduce

/-- What corresponds to an element of the first of two matching lists. -/
theorem exists_mem_of_forall₂ {α β : Type} {R : α → β → Prop} {xs : List α} {ys : List β}
    (h : List.Forall₂ R xs ys) {x : α} (hx : x ∈ xs) : ∃ y ∈ ys, R x y := by
  induction h with
  | nil => simp at hx
  | cons hR _ ih =>
    rcases List.mem_cons.1 hx with rfl | hx
    · exact ⟨_, List.mem_cons_self, hR⟩
    · obtain ⟨y, hy, hR⟩ := ih hx
      exact ⟨y, List.mem_cons_of_mem _ hy, hR⟩

namespace Nfa

/-- The number of an item that can be reached from the start along a string. -/
def Reaches (nfa : Nfa) (symbols : List Symbol) (id : ItemId) : Prop :=
  ∃ i state, nfa.Path nfa.start symbols i ∧ nfa.states[i]? = some state ∧ state.id = id

variable {g : Grammar} {table after : ItemTable} {nfa : Nfa} {i j k : Nat} {X : Symbol}
  {symbols symbols' : List Symbol} {item next : Item} {set kernel : Set Item}

/-- Paths that meet make one path. -/
theorem Path.trans (h : nfa.Path i symbols j) (h' : nfa.Path j symbols' k) :
    nfa.Path i (symbols ++ symbols') k := by
  induction h with
  | refl => exact h'
  | read hedge hX _ ih => exact .read hedge hX (ih h')
  | epsilon hedge _ ih => exact .epsilon hedge (ih h')

namespace Faithful

/-- The moves that have transitions. -/
theorem mem_allMoves (h : nfa.Faithful g table) :
    (i, X, next) ∈ (g.allItems.zipIdx.flatMap fun source => (g.moves source.1).map (source.2, ·)) ↔
      ∃ item, nfa.itemAt? i = some item ∧ (X, next) ∈ g.moves item := by
  have hitemAt : nfa.itemAt? i = g.allItems[i]? := by
    rw [← h.items_eq, List.getElem?_map, Array.getElem?_toList, itemAt?]
  simp only [List.mem_flatMap, Prod.exists, List.mem_zipIdx_iff_getElem?, List.mem_map,
    Prod.mk.injEq, hitemAt]
  grind

/-- A transition is a move of an item. -/
theorem exists_move (h : nfa.Faithful g table) (hedge : ⟨i, X, j⟩ ∈ nfa.edges) :
    ∃ item next, nfa.itemAt? i = some item ∧ nfa.itemAt? j = some next ∧
      (X, next) ∈ g.moves item := by
  obtain ⟨⟨_, _, next⟩, hmem, rfl, rfl, hnext⟩ :=
    exists_mem_of_forall₂ h.edges_eq (Array.mem_toList_iff.2 hedge)
  obtain ⟨item, hitem, hmove⟩ := h.mem_allMoves.1 hmem
  exact ⟨item, next, hitem, hnext, hmove⟩

/-- A move of an item has a transition. -/
theorem exists_edge (h : nfa.Faithful g table) (hitem : nfa.itemAt? i = some item)
    (hmove : (X, next) ∈ g.moves item) :
    ∃ j, ⟨i, X, j⟩ ∈ nfa.edges ∧ nfa.itemAt? j = some next := by
  obtain ⟨⟨_, _, j⟩, hedge, rfl, rfl, hnext⟩ :=
    exists_mem_of_forall₂ h.edges_eq.flip (h.mem_allMoves.2 ⟨item, hitem, hmove⟩)
  exact ⟨j, Array.mem_toList_iff.1 hedge, hnext⟩

/-- A path from an item of a closed set leads to an item that goto gives. -/
theorem mem_gotoAll_of_path (h : nfa.Faithful g table) (hg : g.CrossReferenced)
    (hpath : nfa.Path i symbols j) (hset : g.Closed set) (hitem : nfa.itemAt? i = some item)
    (hmem : item ∈ set) : ∃ last, nfa.itemAt? j = some last ∧ last ∈ g.gotoAll set symbols := by
  induction hpath generalizing set item with
  | refl => exact ⟨item, hitem, hmem⟩
  | read hedge hX _ ih =>
    obtain ⟨waiting, next, hwaiting, hnext, hmove⟩ := h.exists_move hedge
    obtain rfl := Option.some.inj (hitem.symm.trans hwaiting)
    rcases (Grammar.mem_moves hg).1 hmove with ⟨hawaits, rfl⟩ | ⟨heps, -⟩
    · exact ih (Grammar.closed_closure g _) hnext
        (Grammar.subset_closure g _ ⟨item, hmem, hawaits, rfl⟩)
    · exact absurd heps hX
  | epsilon hedge _ ih =>
    obtain ⟨waiting, next, hwaiting, hnext, hmove⟩ := h.exists_move hedge
    obtain rfl := Option.some.inj (hitem.symm.trans hwaiting)
    rcases (Grammar.mem_moves hg).1 hmove with ⟨hawaits, -⟩ | hstart
    · exact absurd rfl (hawaits.ne_epsilon hg)
    · obtain ⟨-, n, id, hawaits, hheads, rfl⟩ := hstart
      exact ih hset hnext (hset item hmem n hawaits id hheads)

/-- An item of a closure can be reached from the kernel without reading. -/
theorem exists_path_of_mem_closure (h : nfa.Faithful g table) (hg : g.CrossReferenced)
    (hmem : item ∈ g.closure kernel) : ∃ first ∈ kernel, ∀ i, nfa.itemAt? i = some first →
      ∃ j, nfa.Path i [] j ∧ nfa.itemAt? j = some item := by
  induction hmem with
  | kernel hitem => exact ⟨_, hitem, fun i hi => ⟨i, .refl i, hi⟩⟩
  | expand _ hawaits hheads ih =>
    obtain ⟨first, hfirst, hpaths⟩ := ih
    refine ⟨first, hfirst, fun i hi => ?_⟩
    obtain ⟨j, hpath, hj⟩ := hpaths i hi
    obtain ⟨k, hedge, hk⟩ := h.exists_edge hj
      ((Grammar.mem_moves hg).2 (.inr ⟨rfl, _, _, hawaits, hheads, rfl⟩))
    exact ⟨k, hpath.trans (.epsilon hedge (.refl k)), hk⟩

/-- An item that goto gives along a string can be reached from the kernel along the string. -/
theorem exists_path_of_mem_gotoAll (h : nfa.Faithful g table) (hg : g.CrossReferenced)
    (hmem : item ∈ g.gotoAll (g.closure kernel) symbols) :
    ∃ first ∈ kernel, ∀ i, nfa.itemAt? i = some first →
      ∃ j, nfa.Path i symbols j ∧ nfa.itemAt? j = some item := by
  induction symbols generalizing kernel with
  | nil => exact h.exists_path_of_mem_closure hg hmem
  | cons X symbols ih =>
    obtain ⟨_, ⟨waiting, hwaiting, hawaits, rfl⟩, hpaths⟩ := ih hmem
    obtain ⟨first, hfirst, hclosure⟩ := h.exists_path_of_mem_closure hg hwaiting
    refine ⟨first, hfirst, fun i hi => ?_⟩
    obtain ⟨j, hpath, hj⟩ := hclosure i hi
    obtain ⟨k, hedge, hk⟩ := h.exists_edge hj ((Grammar.mem_moves hg).2 (.inl ⟨hawaits, rfl⟩))
    obtain ⟨l, hrest, hl⟩ := hpaths k hk
    exact ⟨l, hpath.trans (.read hedge (hawaits.ne_epsilon hg) hrest), hl⟩

/-- The items that can be reached along a string are those that goto gives along it. -/
theorem reaches_iff (h : nfa.Faithful g table) (hg : g.CrossReferenced) {id : ItemId} :
    nfa.Reaches symbols id ↔ ∃ item ∈ g.gotoAll (g.closure {⟨augmentedRule, 0⟩}) symbols,
      table.items[id]? = some item := by
  constructor
  · rintro ⟨i, state, hpath, hi, rfl⟩
    obtain ⟨last, hlast, hmem⟩ := h.mem_gotoAll_of_path hg hpath (Grammar.closed_closure g _)
      h.start_eq (Grammar.subset_closure g _ (Set.mem_singleton _))
    rw [itemAt?, hi] at hlast
    refine ⟨last, hmem, ?_⟩
    rw [h.named state (Array.mem_of_getElem? hi)]
    exact hlast
  · rintro ⟨item, hmem, hid⟩
    obtain ⟨_, rfl, hpaths⟩ := h.exists_path_of_mem_gotoAll hg hmem
    obtain ⟨j, hpath, hj⟩ := hpaths _ h.start_eq
    obtain ⟨state, hstate, rfl⟩ := Option.map_eq_some_iff.1 hj
    have hnamed := h.named state (Array.mem_of_getElem? hstate)
    exact ⟨j, state, hpath, hstate, h.valid.id_unique hnamed hid⟩

/-- The item automaton of a larger table is the same. -/
theorem grow_table (h : nfa.Faithful g table) (hgrows : table.Grows g after) :
    nfa.Faithful g after :=
  ⟨hgrows.valid, h.items_eq, fun state hstate => hgrows.getElem? (h.named state hstate), h.start_eq,
    h.edges_eq⟩

end Faithful

/-- Along every string the canonical collection gets to the set of the items that the item automaton
can reach, if there are such items, and nowhere otherwise. -/
def Agrees (nfa : Nfa) (dfa : Dfa) : Prop :=
  ∀ symbols, ((∃ s, dfa.walk? Dfa.start symbols = some s) ↔ ∃ id, nfa.Reaches symbols id) ∧
    ∀ s, dfa.walk? Dfa.start symbols = some s → ∃ state, dfa.states[s]? = some state ∧
      state.items.ids.Pairwise (· < ·) ∧ ∀ id, id ∈ state.items.ids ↔ nfa.Reaches symbols id

/-- Automata that share a table of items agree. -/
theorem Faithful.agrees {dfa : Dfa} (h : nfa.Faithful g table) (hdfa : dfa.Canonical g table)
    (hg : g.CrossReferenced) : nfa.Agrees dfa := by
  intro symbols
  have hreaches : ∀ id, nfa.Reaches symbols id ↔
      ∃ item ∈ g.gotoAll (dfa.itemsAt table Dfa.start) symbols, table.items[id]? = some item := by
    intro id
    rw [hdfa.itemsAt_start]
    exact h.reaches_iff hg
  have hstart : Dfa.start < dfa.states.size := hdfa.nonempty
  constructor
  · constructor
    · rintro ⟨s, hwalk⟩
      obtain ⟨item, hmem⟩ := hdfa.itemsAt_nonempty (hdfa.lt_of_walk hstart hwalk)
      have ⟨_, _, id, _, hid⟩ := hmem
      rw [hdfa.itemsAt_walk hwalk] at hmem
      exact ⟨id, (hreaches id).2 ⟨item, hmem, hid⟩⟩
    · rintro ⟨id, hid⟩
      obtain ⟨item, hitem, -⟩ := (hreaches id).1 hid
      exact (hdfa.exists_walk_iff hstart).2 ⟨item, hitem⟩
  · intro s hwalk
    have hs := hdfa.lt_of_walk hstart hwalk
    have hstate := Array.getElem?_eq_getElem hs
    refine ⟨_, hstate, ItemSet.ascending _, fun id => ?_⟩
    rw [hreaches id, ← hdfa.itemsAt_walk hwalk, Dfa.itemsAt_eq hstate]
    constructor
    · intro hid
      obtain ⟨item, hitem⟩ := (hdfa.within hstate).exists_item hid
      exact ⟨item, ⟨id, hid, hitem⟩, hitem⟩
    · rintro ⟨item, hmem, hitem⟩
      exact (ItemSet.mem_ids_iff hdfa.valid hitem).2 hmem

/-- For a grammar that was read and a table of some of its items, both automata can be built on the
table in either order, and they agree. -/
theorem automata_agree {options : ReadOptions} {tokens : List Token}
    (hread : Grammar.ofTokens options tokens = .ok g) (hvalid : table.Valid g)
    (hbounds : table.bounds = .unbounded) :
    (∃ nfa dfa middle after, Nfa.build g .unbounded table = .ok nfa middle ∧
      Dfa.build g .unbounded middle = .ok dfa after ∧ nfa.Agrees dfa) ∧
    ∃ nfa dfa middle after, Dfa.build g .unbounded table = .ok dfa middle ∧
      Nfa.build g .unbounded middle = .ok nfa after ∧ nfa.Agrees dfa := by
  have hg := Grammar.wellFormed_ofTokens hread
  constructor
  · obtain ⟨nfa, middle, hnfa, hgrows, hfaithful⟩ :=
      (Nfa.build_meets hg.toLinked hvalid).exists_ok hbounds
    obtain ⟨dfa, after, hdfa, hlater, hcanonical⟩ :=
      (Dfa.build_meets hg hgrows.valid).exists_ok (hgrows.bounds_eq.trans hbounds)
    exact ⟨nfa, dfa, middle, after, hnfa, hdfa,
      (hfaithful.grow_table hlater).agrees hcanonical hg.toCrossReferenced⟩
  · obtain ⟨dfa, middle, hdfa, hgrows, hcanonical⟩ :=
      (Dfa.build_meets hg hvalid).exists_ok hbounds
    obtain ⟨nfa, after, hnfa, hlater, hfaithful⟩ :=
      (Nfa.build_meets hg.toLinked hgrows.valid).exists_ok (hgrows.bounds_eq.trans hbounds)
    exact ⟨nfa, dfa, middle, after, hdfa, hnfa,
      hfaithful.agrees (hcanonical.grow_table hlater) hg.toCrossReferenced⟩

/-- For the rules `S -> 'a' S |` and a table that has the item `S -> 'a' . S` already, the automata
can be built and agree. -/
theorem automata_agree_of_letters : ∃ g, Grammar.ofSource {} "S -> 'a' S | ;" = .ok g ∧
    ∃ nfa dfa middle after, Nfa.build g .unbounded { items := #[⟨1, 1⟩] } = .ok nfa middle ∧
      Dfa.build g .unbounded middle = .ok dfa after ∧ nfa.Agrees dfa := by
  have hsource : (Grammar.ofSource {} "S -> 'a' S | ;").toOption.bind (·.rules[1]?) =
      some ⟨1, [.terminal 0, .nonterminal 1]⟩ := by
    decide +kernel
  obtain ⟨g, hread, hrule⟩ := Option.bind_eq_some_iff.1 hsource
  have hvalid : ItemTable.Valid g { items := #[⟨1, 1⟩] } := by
    refine ⟨by simp, fun item hitem => ?_⟩
    obtain rfl := Array.mem_singleton.1 hitem
    exact ⟨_, hrule, by decide⟩
  exact ⟨g, eq_ok_of_toOption hread, (automata_agree (eq_ok_of_toOption hread) hvalid rfl).1⟩

end Nfa

end ShiftReduce
