import ShiftReduce.Proofs.Item.Closure

/-!
# The loop behind the closure

A closure can be found without a bound on the number of passes and without a note of what was
expanded before: every pass adds the rules of all non-terminals that the items of the set wait for,
and the loop ends with the first pass that adds nothing. This loop ends on every set of items of a
grammar, with the same result and the same table as the closure.
-/

namespace ShiftReduce

/-- A loop that makes rounds as long as they yield, whatever their number. It ends after `count`
rounds, with what the last of them is done with or with the failure of the last of them. -/
inductive Loops {σ α : Type} (round : α → EStateM Failure σ (ForInStep α)) :
    α → σ → Nat → EStateM.Result Failure σ α → Prop
  | done {a b : α} {state after : σ} : round a state = .ok (.done b) after →
      Loops round a state 1 (.ok b after)
  | failed {a : α} {state after : σ} {failure : Failure} : round a state = .error failure after →
      Loops round a state 1 (.error failure after)
  | yield {a b : α} {state after : σ} {count : Nat} {result : EStateM.Result Failure σ α} :
      round a state = .ok (.yield b) after → Loops round b after count result →
      Loops round a state (count + 1) result

namespace ItemSet

/-- Adds the rules of the non-terminal that an item waits for, also if they were added before. -/
def addAsked (g : Grammar) (set : ItemSet) (id : ItemId) : ItemM ItemSet := do
  let item ← ItemTable.item id
  match ← liftStep (item.next? g) with
  | some (.nonterminal n) => set.addRules g (← liftStep (g.rulesFor n))
  | _ => return set

/-- One pass over a set, which is the last one if it adds nothing. -/
def closingRound (g : Grammar) (set : ItemSet) : ItemM (ForInStep ItemSet) := do
  let larger ← set.ids.foldlM (addAsked g) set
  return if larger = set then .done larger else .yield larger

variable {g : Grammar} {table : ItemTable} {set : ItemSet} {kernel : Set Item} {id : ItemId}
  {item : Item}

/-- Rules whose items are in a set already change neither the set nor the table. -/
theorem addRules_eq_self {rules : List RuleId} (hvalid : table.Valid g)
    (hrules : ∀ id ∈ rules, (⟨id, 0⟩ : Item) ∈ set.items table) :
    set.addRules g rules table = .ok set table := by
  induction rules with
  | nil => rfl
  | cons id rules ih =>
    obtain ⟨number, hnumber, hitem⟩ := hrules id List.mem_cons_self
    have hintern : ItemTable.intern g ⟨id, 0⟩ table = .ok number table := by
      simp only [ItemTable.intern, hvalid.find?_eq hitem]
    have hinsert : set.insert number = set := by
      refine eq_of_mem_iff fun k => ?_
      rw [mem_insert, or_iff_right_of_imp]
      rintro rfl
      exact hnumber
    have hrest := ih fun k hk => hrules k (List.mem_cons_of_mem id hk)
    simp only [addRules, List.foldlM_cons, Bind.bind, EStateM.bind, hintern, Pure.pure,
      EStateM.pure, hinsert]
    exact hrest

namespace Closing

variable {closing : Closing} {fuel : Nat}

/-- An item that waits for an expanded non-terminal, or for none, asks for nothing. -/
theorem expand_eq_self (hvalid : table.Valid g) (hid : table.items[id]? = some item)
    (hdone : ∀ n, item.Awaits g (.nonterminal n) → n ∈ closing.done) :
    closing.expand g id table = .ok closing table := by
  obtain ⟨next, hnext, hawaits⟩ := (hvalid.in_of_getElem? hid).next?_eq
  simp only [Closing.expand, Bind.bind, EStateM.bind, ItemTable.item, ItemTable.get_eq hid,
    liftStep, hnext]
  split
  · rename_i n
    have hn := hdone n ((hawaits _).1 rfl)
    rw [if_pos (List.contains_iff_mem.2 hn)]
    rfl
  · rfl

/-- The two ways to add what an item asks for agree: a note that a non-terminal was expanded before
saves only work that would change nothing. -/
theorem addAsked_eq (hg : g.CrossReferenced) (hvalid : table.Valid g)
    (hclosing : closing.Sound g kernel table) (hid : table.items[id]? = some item) :
    closing.set.addAsked g id table = (Closing.set <$> closing.expand g id) table := by
  obtain ⟨next, hnext, hawaits⟩ := (hvalid.in_of_getElem? hid).next?_eq
  by_cases hasks : ∃ n, item.Awaits g (.nonterminal n)
  · obtain ⟨n, hn⟩ := hasks
    obtain rfl := (hawaits _).2 hn
    obtain ⟨-, rules, hrules, hheads⟩ := Grammar.rulesFor_of_awaits hg hn
    have hasked : closing.set.addAsked g id table = closing.set.addRules g rules table := by
      simp only [addAsked, Bind.bind, EStateM.bind, ItemTable.item, ItemTable.get_eq hid,
        liftStep, hnext, hrules]
    rw [hasked]
    by_cases hdone : n ∈ closing.done
    · have hexpand : closing.expand g id table = .ok closing table := by
        refine expand_eq_self hvalid hid fun k hk => ?_
        cases hn.unique hk
        exact hdone
      have hthere : ∀ k ∈ rules, (⟨k, 0⟩ : Item) ∈ closing.set.items table :=
        fun k hk => hclosing.expanded n hdone k ((hheads k).1 hk)
      simp only [Functor.map, EStateM.map, hexpand, addRules_eq_self hvalid hthere]
    · have hnew : ¬ closing.done.contains n = true := by rwa [List.contains_iff_mem]
      simp only [Closing.expand, Bind.bind, EStateM.bind, Functor.map, EStateM.map, ItemTable.item,
        ItemTable.get_eq hid, liftStep, hnext, hrules, if_neg hnew]
      cases closing.set.addRules g rules table <;> rfl
  · have hnone : ∀ n, next ≠ some (.nonterminal n) := fun n hn => hasks ⟨n, (hawaits _).1 hn⟩
    have hexpand : closing.expand g id table = .ok closing table :=
      expand_eq_self hvalid hid fun n hn => absurd ⟨n, hn⟩ hasks
    -- The match on `next` is decided by `hnone`.
    simp only [addAsked, Bind.bind, EStateM.bind, Functor.map, EStateM.map, ItemTable.item,
      ItemTable.get_eq hid, liftStep, hnext, hexpand]
    rfl

/-- The two ways to make a pass agree. -/
theorem foldlM_addAsked_eq {ids : List ItemId} (hg : g.CrossReferenced) (hvalid : table.Valid g)
    (hclosing : closing.Sound g kernel table)
    (hids : ∀ id ∈ ids, ∃ item ∈ g.closure kernel, table.items[id]? = some item) :
    ids.foldlM (addAsked g) closing.set table =
      (Closing.set <$> ids.foldlM (Closing.expand g) closing) table := by
  induction ids generalizing closing table with
  | nil => rfl
  | cons id ids ih =>
    obtain ⟨item, hitem, hid⟩ := hids id List.mem_cons_self
    have hstep := addAsked_eq hg hvalid hclosing hid
    simp only [List.foldlM_cons, Bind.bind, EStateM.bind, hstep, Functor.map, EStateM.map]
    cases hexpand : closing.expand g id table with
    | error failure after => rfl
    | ok larger after =>
      have hmeets : ItemM.Meets g .unbounded (closing.expand g id) table _ :=
        expand_meets hg hvalid hclosing hid hitem
      obtain ⟨hgrows, hsound, -⟩ := hmeets.of_ok hexpand
      refine ih hgrows.valid hsound fun k hk => ?_
      obtain ⟨other, hother, hk⟩ := hids k (List.mem_cons_of_mem id hk)
      exact ⟨other, hother, hgrows.getElem? hk⟩

/-- A pass over a set changes nothing if all non-terminals that its items wait for are expanded. -/
theorem pass_eq_self (hvalid : table.Valid g) (hwithin : closing.set.Within table)
    (hexpanded : ∀ item ∈ closing.set.items table, ∀ n, item.Awaits g (.nonterminal n) →
      n ∈ closing.done) : closing.pass g table = .ok closing table := by
  have hids : ∀ ids ⊆ closing.set.ids,
      ids.foldlM (Closing.expand g) closing table = .ok closing table := by
    intro ids hsubset
    induction ids with
    | nil => rfl
    | cons id ids ih =>
      obtain ⟨hid, hrest⟩ := List.cons_subset.1 hsubset
      obtain ⟨item, hitem⟩ := hwithin.exists_item hid
      have hstep := expand_eq_self hvalid hitem (hexpanded item ⟨id, hid, hitem⟩)
      simp only [List.foldlM_cons, Bind.bind, EStateM.bind, hstep]
      exact ih hrest
  exact hids _ (List.Subset.refl _)

/-- No pass follows if all non-terminals that the items of a set wait for are expanded. -/
theorem passes_eq_self (hvalid : table.Valid g) (hwithin : closing.set.Within table)
    (hexpanded : ∀ item ∈ closing.set.items table, ∀ n, item.Awaits g (.nonterminal n) →
      n ∈ closing.done) (hfuel : 0 < fuel) :
    Closing.passes g fuel closing table = .ok closing table := by
  obtain ⟨rest, rfl⟩ := Nat.exists_eq_succ_of_ne_zero (Nat.ne_of_gt hfuel)
  have hpass := pass_eq_self hvalid hwithin hexpanded
  simp only [Closing.passes, Bind.bind, EStateM.bind, hpass, if_pos]
  rfl

/-- The loop runs beside the passes. It may end one pass earlier, since a pass that only notes a
non-terminal as expanded adds nothing. -/
theorem passes_loops (hg : g.CrossReferenced) (hvalid : table.Valid g)
    (hclosing : closing.Sound g kernel table)
    (hfuel : g.nonterminals.size < fuel + closing.done.length) :
    ∃ count ≤ fuel, Loops (closingRound g) closing.set table count
      ((Closing.set <$> Closing.passes g fuel closing) table) := by
  induction fuel generalizing closing table with
  | zero =>
    have hle := hclosing.length_done_le
    omega
  | succ fuel ih =>
    have hround : closing.set.ids.foldlM (addAsked g) closing.set table =
        (Closing.set <$> closing.pass g) table := by
      refine foldlM_addAsked_eq hg hvalid hclosing fun id hid => ?_
      obtain ⟨item, hitem⟩ := hclosing.within.exists_item hid
      exact ⟨item, hclosing.subset_closure ⟨id, hid, hitem⟩, hitem⟩
    simp only [Functor.map, EStateM.map] at hround ih ⊢
    simp only [Closing.passes, Bind.bind, EStateM.bind]
    cases hpass : closing.pass g table with
    | error failure after =>
      refine ⟨1, by omega, .failed ?_⟩
      simp only [closingRound, Bind.bind, EStateM.bind, hround, hpass]
    | ok larger after =>
      have hmeets : ItemM.Meets g .unbounded (closing.pass g) table _ :=
        pass_meets hg hvalid hclosing
      obtain ⟨hgrows, hsound, hfollows, hexpanded⟩ := hmeets.of_ok hpass
      have hlonger := hfollows.done_suffix.length_le
      simp only [hpass] at hround
      by_cases hset : larger.set = closing.set
      · -- Nothing was added. A pass that follows all the same expands nothing.
        have hdone : closingRound g closing.set table = .ok (.done larger.set) after := by
          simp only [closingRound, Bind.bind, EStateM.bind, hround, if_pos hset]
          rfl
        refine ⟨1, by omega, ?_⟩
        by_cases hlength : larger.done.length = closing.done.length
        · simp only [if_pos hlength]
          exact .done hdone
        · have hle := hsound.length_done_le
          have hrest : Closing.passes g fuel larger after = .ok larger after := by
            refine passes_eq_self hgrows.valid hsound.within (fun item hitem => ?_) (by omega)
            rw [hset, hclosing.within.items_eq hgrows] at hitem
            exact hexpanded item hitem
          simp only [if_neg hlength, hrest]
          exact .done hdone
      · have hyield : closingRound g closing.set table = .ok (.yield larger.set) after := by
          simp only [closingRound, Bind.bind, EStateM.bind, hround, if_neg hset]
          rfl
        have hlength : larger.done.length ≠ closing.done.length := fun heq =>
          hset (congrArg Closing.set (hfollows.eq_of_length heq))
        simp only [if_neg hlength]
        obtain ⟨count, hcount, hloops⟩ := ih hgrows.valid hsound (by omega)
        exact ⟨count + 1, by omega, .yield hyield hloops⟩

end Closing

/-- The loop ends on every set of item numbers, with the closure of the set. Every round but the
last one expands a non-terminal for the first time. -/
theorem closure_loops (hg : g.CrossReferenced) (hvalid : table.Valid g)
    (hset : set.Within table) : ∃ count ≤ g.nonterminals.size + 1,
      Loops (closingRound g) set table count (set.closure g table) := by
  have hclosure : set.closure g =
      Closing.set <$> Closing.passes g (g.nonterminals.size + 1) { set } :=
    (map_eq_pure_bind _ _).symm
  rw [hclosure]
  exact Closing.passes_loops hg hvalid (.start hset) (by simp)

end ItemSet

end ShiftReduce
