import ShiftReduce.Dfa
import ShiftReduce.Proofs.Item.Closure

/-!
# States of the canonical collection

A state keeps, besides its set of items, the symbols that its items wait for and the number of items
with the dot at the end. The symbols are listed in the order of symbols and without repetitions.
What a state keeps depends on its items only, not on the rest of the table that numbers them.
-/

namespace ShiftReduce

namespace Symbol

variable {x y z : Symbol} {xs : List Symbol}

/-- Kind and number determine a symbol. -/
theorem eq_of_rank_eq (hrank : x.rank = y.rank) (hnumber : x.number = y.number) : x = y := by
  cases x <;> cases y <;> simp_all [rank, number]

/-- The order of symbols is transitive. -/
theorem before_trans (hxy : x.before y = true) (hyz : y.before z = true) : x.before z = true := by
  simp only [before, Bool.or_eq_true, Bool.and_eq_true, decide_eq_true_eq, beq_iff_eq] at *
  omega

/-- No symbol is before itself. -/
theorem before_irrefl (x : Symbol) : x.before x = false := by
  simp [before]

/-- The order of symbols is total. -/
theorem before_of_not_before (hne : x ≠ y) (h : ¬ x.before y = true) : y.before x = true := by
  have hdiffers : ¬ (x.rank = y.rank ∧ x.number = y.number) :=
    fun heq => hne (eq_of_rank_eq heq.1 heq.2)
  simp only [before, Bool.or_eq_true, Bool.and_eq_true, decide_eq_true_eq, beq_iff_eq] at *
  omega

/-- An insertion into sorted symbols adds the symbol and keeps the others. -/
theorem mem_insertSorted : y ∈ x.insertSorted xs ↔ y = x ∨ y ∈ xs := by
  induction xs with
  | nil => simp [insertSorted]
  | cons z xs ih =>
    simp only [insertSorted]
    split
    · rename_i heq
      subst heq
      simp
    · split
      · simp
      · simp only [List.mem_cons, ih]
        grind

/-- Insertion keeps a list in the order of symbols. -/
theorem pairwise_insertSorted (h : xs.Pairwise (fun a b => a.before b = true)) :
    (x.insertSorted xs).Pairwise (fun a b => a.before b = true) := by
  induction xs with
  | nil => simp [insertSorted]
  | cons z xs ih =>
    have hz := List.pairwise_cons.1 h
    simp only [insertSorted]
    split
    · exact h
    · rename_i hne
      split
      · rename_i hbefore
        refine List.pairwise_cons.2 ⟨fun y hy => ?_, h⟩
        rcases List.mem_cons.1 hy with rfl | hy
        · exact hbefore
        · exact before_trans hbefore (hz.1 y hy)
      · rename_i hbefore
        refine List.pairwise_cons.2 ⟨fun y hy => ?_, ih hz.2⟩
        rcases mem_insertSorted.1 hy with rfl | hy
        · exact before_of_not_before hne hbefore
        · exact hz.1 y hy

/-- A list in the order of symbols has no repetitions. -/
theorem nodup_of_pairwise_before (h : xs.Pairwise (fun a b => a.before b = true)) : xs.Nodup := by
  refine h.imp fun {a b} hab => ?_
  rintro rfl
  simp [before_irrefl] at hab

end Symbol

namespace Dfa.State

variable {g : Grammar} {table after : ItemTable} {set : ItemSet} {state : State} {ids : List ItemId}
  {id : ItemId} {item : Item}

/-- A state says about the items with the given numbers which symbols they wait for, and how many of
them have the dot at the end. -/
structure Describes (g : Grammar) (table : ItemTable) (ids : List ItemId) (state : State) :
    Prop where
  sorted : state.next.Pairwise (fun a b => a.before b = true)
  mem_next : ∀ X, X ∈ state.next ↔
    ∃ id ∈ ids, ∃ item : Item, table.items[id]? = some item ∧ item.Awaits g X
  reductions_eq : state.reductions =
    ids.countP fun id => table.items[id]?.any fun item => decide (item.Complete g)

/-- To take note of an item adds it to what a state says. -/
theorem Describes.addItem (h : state.Describes g table ids) (hid : table.items[id]? = some item)
    (hitem : item.In g) :
    ∃ after, State.addItem g table state id = .ok after ∧ after.items = state.items ∧
      after.Describes g table (ids ++ [id]) := by
  have hget := ItemTable.get_eq hid
  have hmem : ∀ X, (∃ id' ∈ ids ++ [id], ∃ item' : Item, table.items[id']? = some item' ∧
      item'.Awaits g X) ↔ X ∈ state.next ∨ item.Awaits g X := by
    intro X
    rw [h.mem_next X]
    simp only [List.mem_append, List.mem_singleton, or_and_right, exists_or, exists_eq_left, hid,
      Option.some.injEq, exists_eq_left']
  have hcount := h.reductions_eq
  obtain ⟨next, hnext, hawaits⟩ := hitem.next?_eq
  cases next with
  | none =>
    have hnone : ∀ X, ¬ item.Awaits g X := fun X hX => nomatch (hawaits X).2 hX
    have hcomplete : item.Complete g := hitem.complete_iff.2 hnone
    refine ⟨{ state with reductions := state.reductions + 1 }, ?_, rfl, h.sorted, fun X => ?_, ?_⟩
    · simp only [State.addItem, hget, bind, Except.bind, hnext]
      rfl
    · rw [hmem X, or_iff_left (hnone X)]
    · simp [hcount, hid, hcomplete]
  | some Y =>
    have hY : item.Awaits g Y := (hawaits Y).1 rfl
    have hincomplete : ¬ item.Complete g := fun hend => hitem.complete_iff.1 hend Y hY
    refine ⟨{ state with next := Y.insertSorted state.next }, ?_, rfl,
      Symbol.pairwise_insertSorted h.sorted, fun X => ?_, ?_⟩
    · simp only [State.addItem, hget, bind, Except.bind, hnext]
      rfl
    · rw [hmem X, Symbol.mem_insertSorted, ← hawaits X, Option.some.injEq, eq_comm, or_comm]
    · simp [hcount, hid, hincomplete]

/-- The state with a given set of items exists, and says what there is to say about the items. -/
theorem exists_ofSet (hvalid : table.Valid g) (hset : set.Within table) :
    ∃ state, ofSet g table set = .ok state ∧ state.items = set ∧
      state.Describes g table set.ids := by
  refine foldlM_ok (fun (done : List ItemId) (state : State) =>
    state.items = set ∧ state.Describes g table done) ?_ ⟨rfl, .nil, by simp, rfl⟩
  intro done id rest state hsplit ⟨hitems, hdescribes⟩
  obtain ⟨item, hid⟩ := hset.exists_item (show id ∈ set.ids by simp [hsplit])
  obtain ⟨after, hafter, hsame, hlater⟩ := hdescribes.addItem hid (hvalid.in_of_getElem? hid)
  exact ⟨after, hafter, hsame.trans hitems, hlater⟩

/-- A state keeps its meaning when the table grows. -/
theorem ofSet_of_grows (hset : set.Within table) (hgrows : table.Grows g after) :
    ofSet g after set = ofSet g table set := by
  refine foldlM_congr (fun id hid state => ?_) _
  obtain ⟨item, hold⟩ := hset.exists_item hid
  simp only [addItem, ItemTable.get_eq hold, ItemTable.get_eq (hgrows.getElem? hold)]

section OfSet

variable (hvalid : table.Valid g) (hset : set.Within table)
  (hstate : ofSet g table set = .ok state)

include hvalid hset hstate

/-- A state of a set has the items of the set, and says what there is to say about them. -/
theorem describes_of_ofSet : state.items = set ∧ state.Describes g table set.ids := by
  obtain ⟨state', hstate', hparts⟩ := exists_ofSet hvalid hset
  obtain rfl := Except.ok.inj (hstate.symm.trans hstate')
  exact hparts

/-- A state of a set has the items of the set. -/
theorem items_of_ofSet : state.items = set := (describes_of_ofSet hvalid hset hstate).1

/-- A state lists each symbol that its items wait for once. -/
theorem nodup_next : state.next.Nodup :=
  Symbol.nodup_of_pairwise_before (describes_of_ofSet hvalid hset hstate).2.sorted

/-- A state lists exactly the symbols that its items wait for. -/
theorem mem_next {X : Symbol} :
    X ∈ state.next ↔ ∃ item ∈ set.items table, item.Awaits g X := by
  rw [(describes_of_ofSet hvalid hset hstate).2.mem_next X]
  constructor
  · rintro ⟨id, hid, item, hitem, hawaits⟩
    exact ⟨item, ⟨id, hid, hitem⟩, hawaits⟩
  · rintro ⟨item, ⟨id, hid, hitem⟩, hawaits⟩
    exact ⟨id, hid, item, hitem, hawaits⟩

/-- The items of a state wait for no symbol if all of them have the dot at the end. -/
theorem next_eq_nil_iff : state.next = [] ↔ state.items.size ≤ state.reductions := by
  obtain ⟨rfl, hdescribes⟩ := describes_of_ofSet hvalid hset hstate
  rw [ItemSet.size, hdescribes.reductions_eq, List.countP_le_length.ge_iff_eq,
    List.countP_eq_length, List.eq_nil_iff_forall_not_mem]
  constructor
  · intro hnone id hid
    obtain ⟨item, hitem⟩ := hset.exists_item hid
    have hcomplete : item.Complete g := (hvalid.in_of_getElem? hitem).complete_iff.2 fun X hX =>
      hnone X ((hdescribes.mem_next X).2 ⟨id, hid, item, hitem, hX⟩)
    simpa [hitem] using hcomplete
  · intro hall X hX
    obtain ⟨id, hid, item, hitem, hawaits⟩ := (hdescribes.mem_next X).1 hX
    have hcomplete : item.Complete g := by simpa [hitem] using hall id hid
    exact (hvalid.in_of_getElem? hitem).complete_iff.1 hcomplete X hawaits

end OfSet

/-- A state only reduces if it has items and all of them have the dot at the end. -/
theorem isPureReduction_kind (state : State) : state.kind.isPureReduction = true ↔
    0 < state.reductions ∧ state.items.size ≤ state.reductions := by
  unfold kind
  split
  all_goals
    simp only [StateKind.isPureReduction, Bool.false_eq_true, false_iff, true_iff, imp_false] at *
    omega

end Dfa.State

end ShiftReduce
