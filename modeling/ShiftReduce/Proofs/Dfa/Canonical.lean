import Mathlib.Data.Finset.Powerset
import ShiftReduce.Proofs.Dfa.Outline

/-!
# The canonical collection

While the automaton grows, its states have different closed sets of items, and a transition leads to
the set that goto gives. When all states are expanded, there is a transition for every symbol that
an item of a state waits for. The growth ends because a grammar has only finitely many sets of
items. Each step of it is a step of the construction for outlines, so that the outline in the end
depends on the grammar only.
-/

namespace ShiftReduce

namespace Grammar

/-- The items of a grammar are listed. -/
theorem mem_allItems {g : Grammar} {item : Item} : item ∈ g.allItems ↔ item.In g := by
  unfold allItems Item.In
  simp only [List.mem_flatMap, Prod.exists, List.mem_zipIdx_iff_getElem?, Array.getElem?_toList,
    List.mem_map, List.mem_range]
  constructor
  · rintro ⟨rule, id, hrule, dot, hdot, rfl⟩
    exact ⟨rule, hrule, Nat.lt_succ_iff.1 hdot⟩
  · rintro ⟨rule, hrule, hdot⟩
    exact ⟨rule, item.rule, hrule, item.dot, Nat.lt_succ_iff.2 hdot, rfl⟩

end Grammar

/-- A valid table has not more items than the grammar. -/
theorem ItemTable.Valid.size_le {g : Grammar} {table : ItemTable} (h : table.Valid g) :
    table.size ≤ g.allItems.length := by
  have hsubset : table.items.toList ⊆ g.allItems := fun item hitem =>
    Grammar.mem_allItems.2 (h.items_in item (Array.mem_toList_iff.1 hitem))
  simpa [ItemTable.size] using (List.subperm_of_subset h.nodup hsubset).length_le

namespace Dfa

/-- The items of a state. A state that does not exist has none. -/
def itemsAt (dfa : Dfa) (table : ItemTable) (s : StateId) : Set Item :=
  { item | ∃ state, dfa.states[s]? = some state ∧ item ∈ state.items.items table }

/-- An automaton whose states and transitions are those of the canonical collection, but in which
states and transitions may be missing. -/
structure Consistent (g : Grammar) (table : ItemTable) (dfa : Dfa) : Prop where
  valid : table.Valid g
  within : ∀ {s : StateId} {state : State}, dfa.states[s]? = some state →
    state.items.Within table
  /-- A state keeps what its items say. -/
  summary : ∀ {s : StateId} {state : State}, dfa.states[s]? = some state →
    State.ofSet g table state.items = .ok state
  /-- State 0 is the closure of the augmented rule with the dot at the start. -/
  start_eq : ∀ {state : State}, dfa.states[start]? = some state →
    state.items.items table = g.closure {⟨augmentedRule, 0⟩}
  /-- Different states have different items. -/
  distinct : ∀ {s s' : StateId} {state state' : State}, dfa.states[s]? = some state →
    dfa.states[s']? = some state' → state.items = state'.items → s = s'
  /-- A transition leads to the state that goto gives, on a symbol that an item waits for. -/
  edge_goto : ∀ edge ∈ dfa.edges, ∃ a b, dfa.states[edge.source]? = some a ∧
    dfa.states[edge.target]? = some b ∧ edge.symbol ∈ a.next ∧
    b.items.items table = g.goto (a.items.items table) edge.symbol
  /-- A state has at most one transition on a symbol. -/
  edge_unique : dfa.edges.toList.Pairwise fun edge edge' =>
    ¬ (edge.source = edge'.source ∧ edge.symbol = edge'.symbol)

/-- The canonical collection: all states are expanded and can be reached. -/
structure Canonical (g : Grammar) (table : ItemTable) (dfa : Dfa) : Prop
    extends Consistent g table dfa where
  nonempty : 0 < dfa.states.size
  /-- A state has a transition on every symbol that its items wait for. -/
  expanded : ∀ {s : StateId} {state : State}, dfa.states[s]? = some state → ∀ X ∈ state.next,
    ∃ edge ∈ dfa.edges, edge.source = s ∧ edge.symbol = X
  /-- A transition enters every state but state 0, and comes from an earlier state. -/
  entered : ∀ s : Nat, start < s → s < dfa.states.size → ∃ edge ∈ dfa.edges,
    edge.target = s ∧ edge.source < s

variable {g : Grammar} {bounds : Bounds} {table after : ItemTable} {dfa : Dfa}

/-- The items of a state that exists. -/
theorem itemsAt_eq {s : StateId} {state : State} (hs : dfa.states[s]? = some state) :
    dfa.itemsAt table s = state.items.items table := by
  ext item
  simp [itemsAt, hs]

namespace Consistent

/-- A larger table changes nothing. -/
theorem grow_table (h : dfa.Consistent g table) (hgrows : table.Grows g after) :
    dfa.Consistent g after where
  valid := hgrows.valid
  within hs := (h.within hs).mono hgrows
  summary hs := (State.ofSet_of_grows (h.within hs) hgrows).trans (h.summary hs)
  start_eq hs := ((h.within hs).items_eq hgrows).trans (h.start_eq hs)
  distinct := h.distinct
  edge_goto edge hedge := by
    obtain ⟨a, b, ha, hb, hnext, hgoto⟩ := h.edge_goto edge hedge
    refine ⟨a, b, ha, hb, hnext, ?_⟩
    rw [(h.within ha).items_eq hgrows, (h.within hb).items_eq hgrows, hgoto]
  edge_unique := h.edge_unique

/-- A state lists the symbols that its items wait for. -/
theorem mem_next {s : StateId} {state : State} {X : Symbol} (h : dfa.Consistent g table)
    (hs : dfa.states[s]? = some state) :
    X ∈ state.next ↔ ∃ item ∈ state.items.items table, item.Awaits g X :=
  State.mem_next h.valid (h.within hs) (h.summary hs)

/-- A set of items decides the rest of its state: with equal sets, the symbols that items wait for
and the number of complete items are equal too. -/
theorem eq_of_ofSet {s : StateId} {state candidate : State} (h : dfa.Consistent g table)
    (hs : dfa.states[s]? = some state)
    (hcandidate : State.ofSet g table state.items = .ok candidate) : candidate = state :=
  Except.ok.inj (hcandidate.symm.trans (h.summary hs))

/-- A larger table does not change the outline. -/
theorem outline_eq (h : dfa.Consistent g table) (hgrows : table.Grows g after) :
    dfa.outline after = dfa.outline table := by
  have hsets : dfa.states.toList.map (·.items.items after) =
      dfa.states.toList.map (·.items.items table) := by
    refine List.map_congr_left fun state hstate => ?_
    obtain ⟨s, hs⟩ := Array.mem_iff_getElem?.1 (Array.mem_toList_iff.1 hstate)
    exact (h.within hs).items_eq hgrows
  rw [outline, outline, hsets]

/-- No set of items stands twice in the outline. -/
theorem nodup_sets (h : dfa.Consistent g table) : (dfa.outline table).sets.Nodup := by
  simp only [outline, List.Nodup, List.pairwise_map]
  rw [List.pairwise_iff_getElem]
  intro s s' hs hs' hlt heq
  have hstate : dfa.states[s]? = some dfa.states.toList[s] := by simp
  have hstate' : dfa.states[s']? = some dfa.states.toList[s'] := by simp
  exact Nat.ne_of_lt hlt (h.distinct hstate hstate'
    (ItemSet.eq_of_items_eq h.valid (h.within hstate) (h.within hstate') heq))

/-- A state with a new set of items. -/
theorem addState {set : ItemSet} {state : State} (h : dfa.Consistent g table)
    (hset : set.Within table) (hstate : State.ofSet g table set = .ok state)
    (hnew : ∀ (s : StateId) (old : State), dfa.states[s]? = some old → old.items ≠ set)
    (hstart : dfa.states = #[] → set.items table = g.closure {⟨augmentedRule, 0⟩}) :
    Consistent g table { dfa with states := dfa.states.push state } := by
  have hitems := State.items_of_ofSet h.valid hset hstate
  have hcases {s : StateId} {found : State} (hs : (dfa.states.push state)[s]? = some found) :
      dfa.states[s]? = some found ∨ s = dfa.states.size ∧ found = state := by
    rw [Array.getElem?_push] at hs
    split at hs
    · rename_i hsize
      exact .inr ⟨hsize, (Option.some.inj hs).symm⟩
    · exact .inl hs
  refine ⟨h.valid, fun hs => ?_, fun hs => ?_, fun hs => ?_, fun hs hs' heq => ?_,
    fun edge hedge => ?_, h.edge_unique⟩
  · rcases hcases hs with hold | ⟨-, rfl⟩
    · exact h.within hold
    · rwa [hitems]
  · rcases hcases hs with hold | ⟨-, rfl⟩
    · exact h.summary hold
    · rwa [hitems]
  · rcases hcases hs with hold | ⟨hzero, rfl⟩
    · exact h.start_eq hold
    · rw [hitems]
      exact hstart (Array.eq_empty_of_size_eq_zero hzero.symm)
  · rcases hcases hs with hold | ⟨rfl, rfl⟩
    · rcases hcases hs' with hold' | ⟨rfl, rfl⟩
      · exact h.distinct hold hold' heq
      · exact absurd (heq.trans hitems) (hnew _ _ hold)
    · rcases hcases hs' with hold' | ⟨rfl, rfl⟩
      · exact absurd (heq.symm.trans hitems) (hnew _ _ hold')
      · rfl
  · obtain ⟨a, b, ha, hb, hrest⟩ := h.edge_goto edge hedge
    exact ⟨a, b, getElem?_push_of_eq_some ha, getElem?_push_of_eq_some hb, hrest⟩

/-- A transition on a symbol that the state had no transition on. -/
theorem addEdge {edge : Edge} {a b : State} (h : dfa.Consistent g table)
    (ha : dfa.states[edge.source]? = some a) (hb : dfa.states[edge.target]? = some b)
    (hnext : edge.symbol ∈ a.next)
    (hgoto : b.items.items table = g.goto (a.items.items table) edge.symbol)
    (hnew : ∀ old ∈ dfa.edges, ¬ (old.source = edge.source ∧ old.symbol = edge.symbol)) :
    Consistent g table { dfa with edges := dfa.edges.push edge } := by
  refine ⟨h.valid, h.within, h.summary, h.start_eq, h.distinct, fun new hmem => ?_, ?_⟩
  · rcases Array.mem_push.1 hmem with hold | rfl
    · exact h.edge_goto new hold
    · exact ⟨a, b, ha, hb, hnext, hgoto⟩
  · simp only [Array.toList_push]
    rw [List.pairwise_append]
    refine ⟨h.edge_unique, List.pairwise_singleton .., fun old hold last hlast => ?_⟩
    rw [List.mem_singleton.1 hlast]
    exact hnew old (Array.mem_toList_iff.1 hold)

/-- There are not more states than sets of items. -/
theorem size_le (h : dfa.Consistent g table) : dfa.states.size ≤ 2 ^ g.allItems.length := by
  let ids (s : StateId) : Finset ItemId := (dfa.states[s]?.elim [] (·.items.ids)).toFinset
  have hmaps : ∀ s ∈ Finset.range dfa.states.size, ids s ∈ (Finset.range table.size).powerset := by
    intro s hs
    have hstate := Array.getElem?_eq_getElem (Finset.mem_range.1 hs)
    rw [Finset.mem_powerset]
    intro id hid
    simp only [ids, hstate, Option.elim_some, List.mem_toFinset] at hid
    exact Finset.mem_range.2 (h.within hstate id hid)
  have hinjective : Set.InjOn ids (Finset.range dfa.states.size) := by
    intro s hs s' hs' heq
    have hstate := Array.getElem?_eq_getElem (Finset.mem_range.1 hs)
    have hstate' := Array.getElem?_eq_getElem (Finset.mem_range.1 hs')
    refine h.distinct hstate hstate' (ItemSet.eq_of_mem_iff fun id => ?_)
    have hid := Finset.ext_iff.1 heq id
    simpa only [ids, hstate, hstate', Option.elim_some, List.mem_toFinset] using hid
  have hcard := Finset.card_le_card_of_injOn ids hmaps hinjective
  rw [Finset.card_powerset, Finset.card_range, Finset.card_range] at hcard
  exact hcard.trans (Nat.pow_le_pow_right (by decide) h.valid.size_le)

end Consistent

/-- What a step of the construction meets. -/
abbrev GrowM.Meets {α : Type} (g : Grammar) (bounds : Bounds) (request : GrowM α)
    (growth : Growth) (good : α → Growth → Prop) : Prop :=
  ShiftReduce.Meets Growth.items g bounds request growth good

namespace GrowM

variable {α β : Type} {growth : Growth}

/-- A step that only adds items leaves states and transitions as they are. -/
theorem onItems_meets {request : ItemM α} {good : α → ItemTable → Prop}
    (h : ItemM.Meets g bounds request growth.items good) :
    Meets g bounds (GrowM.onItems request) growth fun a after =>
      after = { growth with items := after.items } ∧ good a after.items := by
  obtain ⟨items, states, edges⟩ := growth
  unfold Meets ShiftReduce.Meets Ensures GrowM.onItems
  unfold ItemM.Meets ShiftReduce.Meets Ensures at h
  cases hrun : request items with
  | ok a after =>
    simp only [hrun] at h ⊢
    exact ⟨h.1, trivial, h.2⟩
  | error failure after =>
    simp only [hrun] at h ⊢
    exact h

end GrowM

namespace Growth

variable {growth : Growth} {set : ItemSet} {source : Nat} {done : List Symbol}

/-- A look-up finds a state with the given set of items. -/
theorem exists_of_find? {id : StateId} (h : growth.find? set = some id) :
    ∃ state, growth.states[id]? = some state ∧ state.items = set := by
  obtain ⟨hlt, hfound, -⟩ := Array.findIdx?_eq_some_iff_getElem.1 h
  exact ⟨_, Array.getElem?_eq_getElem hlt, eq_of_beq hfound⟩

/-- A look-up misses only sets of items that no state has. -/
theorem ne_of_find? (h : growth.find? set = none) {s : StateId} {state : State}
    (hs : growth.states[s]? = some state) : state.items ≠ set := by
  intro heq
  have hmiss := Array.findIdx?_eq_none_iff.1 h state (Array.mem_of_getElem? hs)
  simp [heq] at hmiss

/-- To look for a set of items is to look for the whole state of the set, symbols included. No two
states have the same set, so there is no choice between several of them. -/
theorem find?_eq_some_iff {id : StateId} {candidate : State}
    (h : Consistent g growth.items (ofGrowth growth)) (hset : set.Within growth.items)
    (hcandidate : State.ofSet g growth.items set = .ok candidate) :
    growth.find? set = some id ↔ growth.states[id]? = some candidate := by
  have hitems : candidate.items = set := State.items_of_ofSet h.valid hset hcandidate
  constructor
  · intro hfind
    obtain ⟨state, hstate, rfl⟩ := exists_of_find? hfind
    rw [h.eq_of_ofSet hstate hcandidate]
    exact hstate
  · intro hid
    cases hfind : growth.find? set with
    | none => exact absurd hitems (ne_of_find? hfind hid)
    | some found =>
      obtain ⟨state, hstate, hsame⟩ := exists_of_find? hfind
      rw [h.distinct hstate hid (hsame.trans hitems.symm)]

/-- The state with a given set of items is one that there was or the next one. -/
theorem intern_meets (h : Consistent g growth.items (ofGrowth growth))
    (hset : set.Within growth.items)
    (hstart : growth.states = #[] →
      set.items growth.items = g.closure {⟨augmentedRule, 0⟩}) :
    GrowM.Meets g bounds (intern g bounds set) growth fun id after =>
      Consistent g after.items (ofGrowth after) ∧ after.items = growth.items ∧
        after.edges = growth.edges ∧ ∃ state, state.items = set ∧
          after.states[id]? = some state ∧ (after.states = growth.states ∨
            id = growth.states.size ∧ after.states = growth.states.push state) := by
  refine Meets.get_bind ?_
  obtain ⟨state, hstate, hitems, -⟩ := State.exists_ofSet h.valid hset
  cases hfind : growth.find? set with
  | some id =>
    have hid := (find?_eq_some_iff h hset hstate).1 hfind
    exact .pure h.valid ⟨h, rfl, rfl, state, hitems, hid, .inl rfl⟩
  | none =>
    refine Meets.liftStep_bind hstate (Meets.allow_bind h.valid ?_)
    refine ⟨.refl h.valid, ?_, rfl, rfl, state, hitems, Array.getElem?_push_size, .inr ⟨rfl, rfl⟩⟩
    exact h.addState hset hstate (fun s old hs => ne_of_find? hfind hs) hstart

/-- How far the construction has come: the states before `source` are expanded, and `source` itself
on the symbols in `done`. -/
structure Frontier (growth : Growth) (source : Nat) (done : List Symbol) : Prop where
  before : ∀ {s : Nat} {state : State}, growth.states[s]? = some state → s < source →
    ∀ X ∈ state.next, ∃ edge ∈ growth.edges, edge.source = s ∧ edge.symbol = X
  here : ∀ X ∈ done, ∃ edge ∈ growth.edges, edge.source = source ∧ edge.symbol = X
  /-- There are no other transitions. -/
  edges_only : ∀ edge ∈ growth.edges,
    edge.source < source ∨ edge.source = source ∧ edge.symbol ∈ done
  entered : ∀ s : Nat, start < s → s < growth.states.size → ∃ edge ∈ growth.edges,
    edge.target = s ∧ edge.source < s

/-- The transition of a state on a symbol moves the frontier past the symbol. -/
theorem Frontier.addEdge {X : Symbol} {target : Nat} {after : Growth}
    (h : growth.Frontier source done)
    (hedges : after.edges = growth.edges.push ⟨source, X, target⟩)
    (hstates : after.states = growth.states ∨ target = growth.states.size ∧
      ∃ state, after.states = growth.states.push state)
    (hlt : source < growth.states.size) : after.Frontier source (done ++ [X]) := by
  have hkeeps {P : Edge → Prop} (hold : ∃ old ∈ growth.edges, P old) :
      ∃ old ∈ after.edges, P old := by
    obtain ⟨old, hmem, hP⟩ := hold
    exact ⟨old, by rw [hedges]; exact Array.mem_push.2 (.inl hmem), hP⟩
  have hlast : ⟨source, X, target⟩ ∈ after.edges := by
    rw [hedges]
    exact Array.mem_push_self
  refine ⟨fun {s state} hs hbefore Y hY => ?_, fun Y hY => ?_, fun new hnew => ?_,
    fun s hpos hs => ?_⟩
  · refine hkeeps (h.before ?_ hbefore Y hY)
    rcases hstates with heq | ⟨-, last, heq⟩
    · rwa [heq] at hs
    · rwa [heq, Array.getElem?_push, if_neg (by omega)] at hs
  · rcases List.mem_append.1 hY with hY | hY
    · exact hkeeps (h.here Y hY)
    · exact ⟨_, hlast, rfl, (List.mem_singleton.1 hY).symm⟩
  · rw [hedges] at hnew
    rcases Array.mem_push.1 hnew with hold | rfl
    · rcases h.edges_only new hold with hlt | ⟨heq, hmem⟩
      · exact .inl hlt
      · exact .inr ⟨heq, List.mem_append_left _ hmem⟩
    · exact .inr ⟨rfl, by simp⟩
  · by_cases hold : s < growth.states.size
    · exact hkeeps (h.entered s hpos hold)
    · rcases hstates with heq | ⟨htarget, last, heq⟩
      · rw [heq] at hs
        exact absurd hs hold
      · rw [heq, Array.size_push] at hs
        exact ⟨_, hlast, show target = s by omega, show source < s by omega⟩

/-- What one step of the construction does: the state with the given items is one that there was or
the next one, and the transition to it comes last. -/
def Expands (growth : Growth) (edge : Edge) (set : Set Item) (after : Growth) : Prop :=
  after.edges = growth.edges.push edge ∧ ∃ found, after.states[edge.target]? = some found ∧
    found.items.items after.items = set ∧ (after.states = growth.states ∨
      edge.target = growth.states.size ∧ after.states = growth.states.push found)

/-- The outline of what there is. -/
def outline (growth : Growth) : Outline := (ofGrowth growth).outline growth.items

/-- One step of the construction is one step of its outline. -/
theorem Expands.outline_eq {state : State} {X : Symbol} {target : StateId} {after : Growth}
    (h : growth.Expands ⟨source, X, target⟩ (g.goto (state.items.items growth.items) X) after)
    (hbefore : Consistent g growth.items (ofGrowth growth))
    (hafter : Consistent g after.items (ofGrowth after))
    (hgrows : growth.items.Grows g after.items) (hstate : growth.states[source]? = some state) :
    after.outline = growth.outline.expandOn g source X := by
  classical
  obtain ⟨hedges, found, hfound, hitems, hcases⟩ := h
  have hsource : growth.outline.sets.getD source ∅ = state.items.items growth.items := by
    simp [outline, Dfa.outline, ofGrowth, hstate]
  have hkept : growth.states.toList.map (·.items.items after.items) = growth.outline.sets :=
    congrArg Outline.sets (hbefore.outline_eq hgrows)
  have htarget : after.outline.sets[target]? =
      some (g.goto (state.items.items growth.items) X) := by
    simp only [outline, Dfa.outline, ofGrowth, List.getElem?_map, Array.getElem?_toList]
    rw [hfound, Option.map_some, hitems]
  have hsets : after.outline.sets = growth.outline.sets ∨
      target = growth.outline.sets.length ∧ after.outline.sets =
        growth.outline.sets ++ [g.goto (state.items.items growth.items) X] := by
    rcases hcases with heq | ⟨hlast, heq⟩
    · left
      rw [← hkept, ← heq]
      rfl
    · right
      refine ⟨by simpa [outline, Dfa.outline, ofGrowth] using hlast, ?_⟩
      rw [← hkept, ← hitems, outline, Dfa.outline, ofGrowth, heq]
      simp
  have hnodup : after.outline.sets.Nodup := hafter.nodup_sets
  -- Sets of items do not repeat, so there is one place where the set of the target can be.
  obtain ⟨hidx, hall⟩ := idxOf_of_found_or_added hnodup htarget hsets
  have hafterOutline : after.outline =
      ⟨after.outline.sets, growth.edges.push ⟨source, X, target⟩⟩ := by
    rw [← hedges]
    rfl
  rw [hafterOutline, hall, hidx, Outline.expandOn, hsource]
  rfl

/-- To expand a state on a symbol that its items wait for adds one transition. -/
theorem expandOn_meets {state : State} {X : Symbol} (hg : g.CrossReferenced)
    (h : Consistent g growth.items (ofGrowth growth)) (hfrontier : growth.Frontier source done)
    (hstate : growth.states[source]? = some state) (hX : X ∈ state.next) (hnew : X ∉ done) :
    GrowM.Meets g bounds (expandOn g bounds source state.items X) growth fun _ after =>
      Consistent g after.items (ofGrowth after) ∧ after.Frontier source (done ++ [X]) ∧
        after.states[source]? = some state ∧ ∃ target,
          growth.Expands ⟨source, X, target⟩ (g.goto (state.items.items growth.items) X) after := by
  have hwithin : state.items.Within growth.items := h.within hstate
  obtain ⟨waiting, hwaiting, hawaits⟩ := (h.mem_next hstate).1 hX
  refine (GrowM.onItems_meets (ItemSet.goto_meets hg h.valid hwithin)).bind ?_
  rintro reached middle hgrows ⟨hmiddle, hreached, hitems⟩
  have hconsistent : Consistent g middle.items (ofGrowth middle) := by
    rw [hmiddle]
    exact h.grow_table hgrows
  have hstates : middle.states = growth.states := by rw [hmiddle]
  have hedges : middle.edges = growth.edges := by rw [hmiddle]
  have hnonempty : ¬ reached.isEmpty = true := by
    rw [ItemSet.isEmpty_iff hreached, hitems, Grammar.goto_eq_empty_iff]
    exact fun hnone => hnone waiting hwaiting hawaits
  rw [if_neg hnonempty]
  have hlt : source < growth.states.size := (Array.getElem?_eq_some_iff.1 hstate).1
  have hstart : middle.states = #[] →
      reached.items middle.items = g.closure {⟨augmentedRule, 0⟩} := by
    intro hempty
    rw [← hstates, hempty] at hlt
    exact absurd hlt (by simp)
  refine (intern_meets hconsistent hreached hstart).bind ?_
  rintro target last - ⟨hlast, htable, hlastEdges, found, rfl, hfound, hcases⟩
  refine Meets.get_bind (Meets.allow_bind hlast.valid ⟨.refl hlast.valid, ?_⟩)
  have hsource : last.states[source]? = some state := by
    rcases hcases with heq | ⟨-, heq⟩
    · rw [heq, hstates, hstate]
    · rw [heq, hstates]
      exact getElem?_push_of_eq_some hstate
  have hgoto : found.items.items last.items = g.goto (state.items.items growth.items) X := by
    rw [htable, hitems]
  have hconnected : Consistent g last.items
      { ofGrowth last with edges := last.edges.push ⟨source, X, target⟩ } := by
    refine hlast.addEdge hsource hfound hX ?_ fun old hold hsame => ?_
    · rw [hgoto, htable, hwithin.items_eq hgrows]
    · have hold' : old ∈ growth.edges := by rwa [← hedges, ← hlastEdges]
      rcases hfrontier.edges_only old hold' with hbefore | ⟨-, hmem⟩
      · exact Nat.ne_of_lt hbefore hsame.1
      · rw [hsame.2] at hmem
        exact hnew hmem
  have hpushed : (last.addEdge ⟨source, X, target⟩).edges =
      growth.edges.push ⟨source, X, target⟩ := by
    rw [← hedges, ← hlastEdges]
    rfl
  rw [hstates] at hcases
  refine ⟨hconnected, hfrontier.addEdge hpushed ?_ hlt, hsource, target, hpushed, found, hfound,
    hgoto, hcases⟩
  rcases hcases with heq | ⟨hsize, heq⟩
  · exact .inl heq
  · exact .inr ⟨hsize, found, heq⟩

/-- Without symbols left, the frontier is at the next state. -/
theorem Frontier.next {state : State} (h : growth.Frontier source state.next)
    (hstate : growth.states[source]? = some state) : growth.Frontier (source + 1) [] := by
  refine ⟨fun {s found} hs hlt X hX => ?_, by simp, fun edge hedge => .inl ?_, h.entered⟩
  · rcases Nat.lt_succ_iff_lt_or_eq.1 hlt with hlt | rfl
    · exact h.before hs hlt X hX
    · rw [hstate] at hs
      obtain rfl := Option.some.inj hs
      exact h.here X hX
  · rcases h.edges_only edge hedge with hlt | ⟨heq, -⟩
    · omega
    · omega

/-- To expand a state on all its symbols moves the frontier to the next state. -/
theorem expand_meets {state : State} (hg : g.CrossReferenced)
    (h : Consistent g growth.items (ofGrowth growth)) (hfrontier : growth.Frontier source [])
    (hstate : growth.states[source]? = some state) :
    GrowM.Meets g bounds (state.next.forM (expandOn g bounds source state.items)) growth
      fun _ after => Consistent g after.items (ofGrowth after) ∧ after.Frontier (source + 1) [] ∧
        source < after.states.size ∧
        after.outline = state.next.foldl (Outline.expandOn g source) growth.outline := by
  have hnodup := State.nodup_next h.valid (h.within hstate) (h.summary hstate)
  have hall : GrowM.Meets g bounds (state.next.forM (expandOn g bounds source state.items)) growth
      fun _ after => Consistent g after.items (ofGrowth after) ∧
        after.Frontier source state.next ∧ after.states[source]? = some state ∧
        after.outline = state.next.foldl (Outline.expandOn g source) growth.outline := by
    refine Meets.forM (fun done (after : Growth) => Consistent g after.items (ofGrowth after) ∧
      after.Frontier source done ∧ after.states[source]? = some state ∧
      after.outline = done.foldl (Outline.expandOn g source) growth.outline) h.valid ?_
      ⟨h, hfrontier, hstate, rfl⟩
    intro done X rest after hsplit _ ⟨hafter, hdone, hsource, houtline⟩
    have hX : X ∈ state.next := by simp [hsplit]
    rw [hsplit, List.nodup_append] at hnodup
    have hnew : X ∉ done := fun hmem => hnodup.2.2 X hmem X List.mem_cons_self rfl
    refine (expandOn_meets hg hafter hdone hsource hX hnew).mono ?_
    rintro _ last hgrows ⟨hlast, hfrontier, hkept, target, hexpands⟩
    refine ⟨hlast, hfrontier, hkept, ?_⟩
    rw [hexpands.outline_eq hafter hlast hgrows hsource, houtline, List.foldl_concat]
  refine hall.mono ?_
  rintro _ after - ⟨hafter, hdone, hsource, houtline⟩
  exact ⟨hafter, hdone.next hsource, (Array.getElem?_eq_some_iff.1 hsource).1, houtline⟩

/-- The construction expands all states. There are not more states than steps. -/
theorem expandFrom_meets {fuel : Nat} (hg : g.CrossReferenced)
    (h : Consistent g growth.items (ofGrowth growth)) (hfrontier : growth.Frontier source [])
    (hpos : 0 < growth.states.size) (hsource : source ≤ growth.states.size)
    (hfuel : 2 ^ g.allItems.length ≤ source + fuel) :
    GrowM.Meets g bounds (expandFrom g bounds fuel source) growth fun _ after =>
      Consistent g after.items (ofGrowth after) ∧ after.Frontier after.states.size [] ∧
        0 < after.states.size ∧ after.outline = growth.outline.expandFrom g fuel source := by
  induction fuel generalizing growth source with
  | zero =>
    have hsize : growth.states.size ≤ 2 ^ g.allItems.length := h.size_le
    have heq : source = growth.states.size := by omega
    exact .pure h.valid ⟨h, heq ▸ hfrontier, hpos, rfl⟩
  | succ fuel ih =>
    refine Meets.get_bind ?_
    cases hstate : growth.states[source]? with
    | none =>
      have heq : source = growth.states.size :=
        Nat.le_antisymm hsource (Array.getElem?_eq_none_iff.1 hstate)
      have houtline : growth.outline.sets[source]? = none := by
        simp [outline, Dfa.outline, ofGrowth, heq]
      refine .pure h.valid ⟨h, heq ▸ hfrontier, hpos, ?_⟩
      rw [Outline.expandFrom, houtline]
    | some state =>
      have houtline : growth.outline.sets[source]? = some (state.items.items growth.items) := by
        simp [outline, Dfa.outline, ofGrowth, hstate]
      have hnext : state.next = g.awaited (state.items.items growth.items) :=
        State.next_eq_awaited hg h.valid (h.within hstate) (h.summary hstate)
      refine (expand_meets hg h hfrontier hstate).bind ?_
      rintro _ after - ⟨hafter, hfrontier, hlt, hexpanded⟩
      refine (ih hafter hfrontier (Nat.zero_lt_of_lt hlt) hlt (by omega)).mono ?_
      rintro _ last - ⟨hlast, hdone, hnonempty, hrest⟩
      refine ⟨hlast, hdone, hnonempty, ?_⟩
      rw [hrest, hexpanded, hnext, Outline.expandFrom, houtline]

/-- The start set is the closure of the augmented rule with the dot at the start. -/
theorem startSet_meets (hg : g.WellFormed) (hvalid : table.Valid g) :
    ItemM.Meets g bounds (startSet g) table fun set after =>
      set.Within after ∧ set.items after = g.closure {⟨augmentedRule, 0⟩} := by
  have hstart : g.Heads Grammar.start augmentedRule := ⟨_, hg.augmented, rfl⟩
  obtain ⟨rules, hrules, hheads, -⟩ := hg.exists_rulesFor (hg.head_lt hg.augmented)
  have hmem : ∀ id, id ∈ rules ↔ id = augmentedRule := by
    intro id
    rw [hheads id]
    constructor
    · rintro ⟨rule, hrule, hhead⟩
      exact hg.head_start hrule hhead
    · rintro rfl
      exact hstart
  refine Meets.liftStep_bind hrules ?_
  have hin : ∀ id ∈ rules, Item.In g ⟨id, 0⟩ :=
    fun id hid => Item.in_of_heads ((hheads id).1 hid)
  refine (ItemSet.addRules_meets hvalid (ItemSet.within_empty table) hin).bind ?_
  rintro kernel after hgrows ⟨hwithin, hitems⟩
  have hkernel : kernel.items after = {⟨augmentedRule, 0⟩} := by
    ext item
    rw [hitems item]
    simp [hmem]
  refine (ItemSet.closure_meets hg.toCrossReferenced hgrows.valid hwithin).mono ?_
  rintro set last - hset
  rwa [hkernel] at hset

/-- The first state is that of the closure of the augmented rule. -/
theorem intern_first_meets (hvalid : table.Valid g) (hwithin : set.Within table)
    (hitems : set.items table = g.closure {⟨augmentedRule, 0⟩}) :
    GrowM.Meets g bounds (intern g bounds set) { items := table } fun first after =>
      Consistent g after.items (ofGrowth after) ∧ first = start ∧ after.Frontier start [] ∧
        after.edges = #[] ∧ ∃ state, after.states = #[state] ∧
          state.items.items after.items = g.closure {⟨augmentedRule, 0⟩} := by
  have hempty : Consistent g table (ofGrowth { items := table }) :=
    ⟨hvalid, by simp [ofGrowth], by simp [ofGrowth], by simp [ofGrowth], by simp [ofGrowth],
      by simp [ofGrowth], .nil⟩
  refine (intern_meets hempty hwithin fun _ => hitems).mono ?_
  rintro first last - ⟨hlast, htable, hedges, state, hset, hstate, hcases⟩
  have hfirst : first = start ∧ last.states = #[state] := by
    rcases hcases with heq | hpushed
    · rw [heq] at hstate
      simp at hstate
    · exact hpushed
  obtain ⟨rfl, hstates⟩ := hfirst
  refine ⟨hlast, rfl, ⟨fun _ hlt => absurd hlt (Nat.not_lt_zero _), by simp, by simp [hedges], ?_⟩,
    hedges, state, hstates, by rw [hset, htable, hitems]⟩
  intro s hpos hs
  rw [hstates] at hs
  exact absurd (Nat.lt_one_iff.1 hs) (Nat.ne_of_gt hpos)

/-- The construction ends with the canonical collection. Its outline does not depend on the
table. -/
theorem grow_meets (hg : g.WellFormed) (hvalid : table.Valid g) :
    GrowM.Meets g bounds (grow g bounds) { items := table } fun _ after =>
      Canonical g after.items (ofGrowth after) ∧ after.outline = Outline.ofGrammar g := by
  refine (GrowM.onItems_meets (startSet_meets hg hvalid)).bind ?_
  rintro set middle hgrows ⟨hmiddle, hwithin, hitems⟩
  rw [hmiddle]
  refine (intern_first_meets hgrows.valid hwithin hitems).bind ?_
  rintro _ last - ⟨hlast, rfl, hfrontier, hedges, state, hstates, hstart⟩
  have houtline : last.outline = ⟨[g.closure {⟨augmentedRule, 0⟩}], #[]⟩ := by
    simp [outline, Dfa.outline, ofGrowth, hstates, hedges, hstart]
  refine (expandFrom_meets hg.toCrossReferenced hlast hfrontier (by simp [hstates])
    (Nat.zero_le _) (by simp)).mono ?_
  rintro _ after - ⟨hafter, hdone, hpos, hgrown⟩
  refine ⟨⟨hafter, hpos, fun {s found} hs X hX => ?_, hdone.entered⟩, ?_⟩
  · exact hdone.before hs (Array.getElem?_eq_some_iff.1 hs).1 X hX
  · rw [hgrown, houtline]
    rfl

end Growth

/-- What is built is the canonical collection. Its outline does not depend on the table. -/
theorem build_meets_outline (hg : g.WellFormed) (hvalid : table.Valid g) :
    ItemM.Meets g bounds (build g bounds) table fun dfa after =>
      Canonical g after dfa ∧ dfa.outline after = Outline.ofGrammar g := by
  have hgrow : GrowM.Meets g bounds (Growth.grow g bounds) { items := table } fun _ after =>
      Canonical g after.items (ofGrowth after) ∧ after.outline = Outline.ofGrammar g :=
    Growth.grow_meets hg hvalid
  unfold GrowM.Meets ShiftReduce.Meets Ensures at hgrow
  unfold ItemM.Meets ShiftReduce.Meets Ensures build
  cases hrun : Growth.grow g bounds { items := table } with
  | ok _ after =>
    simp only [hrun] at hgrow ⊢
    exact hgrow
  | error failure after =>
    simp only [hrun] at hgrow ⊢
    exact hgrow

/-- What is built is the canonical collection. -/
theorem build_meets (hg : g.WellFormed) (hvalid : table.Valid g) :
    ItemM.Meets g bounds (build g bounds) table fun dfa after => Canonical g after dfa :=
  (build_meets_outline hg hvalid).mono fun _ _ _ hdfa => hdfa.1

end Dfa

end ShiftReduce
