import Mathlib.Data.Set.Card
import ShiftReduce.Proofs.Dfa.State

/-!
# The canonical collection without numbers of items

A table numbers items in the order in which they are asked for, so one state has different numbers
in different tables. The outline of an automaton forgets these numbers: it lists the sets of items
of the states and the transitions. The construction can be said for outlines, in terms of closure
and goto of sets of items, and there it reads nothing but the grammar.
-/

namespace ShiftReduce

/-- Lists in the order of symbols that have the same symbols are equal. -/
theorem Symbol.eq_of_sorted {xs ys : List Symbol} (hxs : xs.Pairwise fun a b => a.before b = true)
    (hys : ys.Pairwise fun a b => a.before b = true) (h : ∀ X, X ∈ xs ↔ X ∈ ys) : xs = ys := by
  have hperm : xs.Perm ys := (List.perm_ext_iff_of_nodup (nodup_of_pairwise_before hxs)
    (nodup_of_pairwise_before hys)).2 h
  refine hperm.eq_of_pairwise (fun X Y _ _ hXY hYX => ?_) hxs hys
  have hXX := before_trans hXY hYX
  rw [before_irrefl] at hXX
  cases hXX

/-- An element that is looked up in a list without repetitions, or added to its end, is where a
search for it stops. -/
theorem idxOf_of_found_or_added {α : Type} [DecidableEq α] {xs ys : List α} {a : α} {i : Nat}
    (hnodup : ys.Nodup) (hfound : ys[i]? = some a)
    (hcases : ys = xs ∨ i = xs.length ∧ ys = xs ++ [a]) :
    i = xs.idxOf a ∧ ys = if a ∈ xs then xs else xs ++ [a] := by
  obtain ⟨hlt, hget⟩ := List.getElem?_eq_some_iff.1 hfound
  rcases hcases with rfl | ⟨rfl, rfl⟩
  · rw [if_pos (List.mem_of_getElem? hfound), ← hget, hnodup.idxOf_getElem]
    exact ⟨rfl, rfl⟩
  · have hnew : a ∉ xs := fun hmem =>
      (List.nodup_append.1 hnodup).2.2 a hmem a (List.mem_singleton_self a) rfl
    rw [if_neg hnew, List.idxOf_eq_length hnew]
    exact ⟨rfl, rfl⟩

namespace Grammar

variable {g : Grammar} {set : Set Item} {X : Symbol}

open Classical in
/-- The symbols that the items of a set wait for, in the order of symbols. -/
noncomputable def awaited (g : Grammar) (set : Set Item) : List Symbol :=
  (g.terminalSymbols ++ g.nonterminalSymbols ++ [Symbol.endOfInput]).filter
    fun X => ∃ item ∈ set, item.Awaits g X

/-- The symbols that a set waits for are sorted. -/
theorem sorted_awaited (g : Grammar) (set : Set Item) :
    (g.awaited set).Pairwise fun a b => a.before b = true := by
  refine List.Pairwise.filter _ ?_
  simp only [terminalSymbols, nonterminalSymbols, List.pairwise_append, List.pairwise_map,
    List.mem_append, List.mem_map, List.mem_range, List.mem_singleton]
  refine ⟨⟨?_, ?_, ?_⟩, List.pairwise_singleton .., ?_⟩
  · exact List.pairwise_lt_range.imp fun hlt => by
      simp [Symbol.before, Symbol.rank, Symbol.number, hlt]
  · exact List.pairwise_lt_range.imp fun hlt => by
      simp [Symbol.before, Symbol.rank, Symbol.number, hlt]
  · rintro _ ⟨t, -, rfl⟩ _ ⟨n, -, rfl⟩
    rfl
  · rintro _ (⟨t, -, rfl⟩ | ⟨n, -, rfl⟩) _ rfl
    · rfl
    · rfl

/-- The symbols that a set waits for are those that its items wait for. -/
theorem mem_awaited (hg : g.CrossReferenced) :
    X ∈ g.awaited set ↔ ∃ item ∈ set, item.Awaits g X := by
  simp only [awaited, List.mem_filter, decide_eq_true_eq, and_iff_right_iff_imp]
  rintro ⟨item, -, rule, hrule, hX⟩
  have hcolumn := hg.body_columns hrule X (List.mem_of_getElem? hX)
  simp only [columns, List.mem_append, List.mem_cons] at hcolumn ⊢
  tauto

end Grammar

namespace ItemSet

variable {g : Grammar} {table : ItemTable} {set : ItemSet}

/-- The numbers of a set that stand for items with a property are as many as these items. -/
theorem countP_ids (p : Item → Bool) (hvalid : table.Valid g) :
    (set.ids.countP fun id => table.items[id]?.any p) =
      Set.ncard { item ∈ set.items table | p item = true } := by
  have hnodup : (set.ids.filterMap (table.items[·]?)).Nodup := by
    refine List.Nodup.filterMap (fun id id' item hid hid' => ?_) (set.ascending.imp Nat.ne_of_lt)
    exact hvalid.id_unique hid hid'
  have hset : { item ∈ set.items table | p item = true } =
      (((set.ids.filterMap (table.items[·]?)).filter p).toFinset : Set Item) := by
    ext item
    simp [items]
  rw [hset, Set.ncard_coe_finset, List.toFinset_card_of_nodup (hnodup.filter p),
    ← List.countP_eq_length_filter, List.countP_filterMap]
  refine List.countP_congr fun id _ => ?_
  cases table.items[id]? <;> rfl

/-- A set has as many numbers as items. -/
theorem size_eq_ncard (hvalid : table.Valid g) (hset : set.Within table) :
    set.size = (set.items table).ncard := by
  have hall : set.ids.countP (fun id => table.items[id]?.any fun _ => true) = set.ids.length := by
    rw [List.countP_eq_length]
    intro id hid
    obtain ⟨item, hitem⟩ := hset.exists_item hid
    simp [hitem]
  rw [size, ← hall, countP_ids _ hvalid]
  simp

end ItemSet

namespace Dfa

namespace State

variable {g : Grammar} {table : ItemTable} {set : ItemSet} {state : State}

/-- A state lists the symbols that its items wait for, whatever the numbers of the items. -/
theorem next_eq_awaited (hg : g.CrossReferenced) (hvalid : table.Valid g)
    (hset : set.Within table) (hstate : ofSet g table set = .ok state) :
    state.next = g.awaited (set.items table) := by
  refine Symbol.eq_of_sorted (describes_of_ofSet hvalid hset hstate).2.sorted
    (g.sorted_awaited _) fun X => ?_
  rw [mem_next hvalid hset hstate, Grammar.mem_awaited hg]

/-- A state counts its items with the dot at the end. -/
theorem reductions_eq_ncard (hvalid : table.Valid g) (hset : set.Within table)
    (hstate : ofSet g table set = .ok state) :
    state.reductions = Set.ncard { item ∈ set.items table | item.Complete g } := by
  rw [(describes_of_ofSet hvalid hset hstate).2.reductions_eq, ItemSet.countP_ids _ hvalid]
  simp

end State

/-- The sets of items of the states of an automaton, and its transitions. -/
structure Outline where
  sets : List (Set Item)
  edges : Array Edge

namespace Outline

open Classical in
/-- Adds the transition of a state on a symbol, and the set of items that it leads to unless a state
has it. -/
noncomputable def expandOn (g : Grammar) (source : StateId) (outline : Outline) (X : Symbol) :
    Outline :=
  let set := g.goto (outline.sets.getD source ∅) X
  ⟨if set ∈ outline.sets then outline.sets else outline.sets ++ [set],
    outline.edges.push ⟨source, X, outline.sets.idxOf set⟩⟩

/-- Expands the states from a given one on, at most `fuel` of them. -/
noncomputable def expandFrom (g : Grammar) : (fuel : Nat) → StateId → Outline → Outline
  | 0, _, outline => outline
  | fuel + 1, source, outline =>
    match outline.sets[source]? with
    | none => outline
    | some set =>
      expandFrom g fuel (source + 1) ((g.awaited set).foldl (expandOn g source) outline)

/-- The outline of the canonical collection of a grammar. -/
noncomputable def ofGrammar (g : Grammar) : Outline :=
  expandFrom g (2 ^ g.allItems.length) start ⟨[g.closure {⟨augmentedRule, 0⟩}], #[]⟩

end Outline

/-- The outline of an automaton whose items a table numbers. -/
def outline (dfa : Dfa) (table : ItemTable) : Outline :=
  ⟨dfa.states.toList.map (·.items.items table), dfa.edges⟩

end Dfa

end ShiftReduce
