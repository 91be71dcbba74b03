import Mathlib.Data.List.Perm.Subperm
import ShiftReduce.Item.Closure
import ShiftReduce.Proofs.Item.Numbering

/-!
# Closure and goto of sets of items

The closure of a set of items is the least set above it that has, with an item that waits for a
non-terminal, the starts of all rules of the non-terminal. Passes over a set of item numbers reach
the closure of the items they stand for, and goto on numbers is goto on items. No pass is missed: a
pass that is not the last one expands a non-terminal for the first time.
-/

namespace ShiftReduce

namespace Grammar

/-- Items that a set of items asks for. -/
inductive Asks (g : Grammar) (kernel : Set Item) : Item → Prop
  | kernel {item : Item} : item ∈ kernel → Asks g kernel item
  | expand {item : Item} {n : NonterminalId} {id : RuleId} : Asks g kernel item →
      item.Awaits g (.nonterminal n) → g.Heads n id → Asks g kernel ⟨id, 0⟩

/-- The closure of a set of items. -/
def closure (g : Grammar) (kernel : Set Item) : Set Item := { item | g.Asks kernel item }

/-- The advanced forms of the items that wait for a symbol. -/
def advanced (g : Grammar) (set : Set Item) (X : Symbol) : Set Item :=
  { item | ∃ waiting ∈ set, waiting.Awaits g X ∧ item = waiting.advance }

/-- The closed set that a set of items moves to on a symbol. -/
def goto (g : Grammar) (set : Set Item) (X : Symbol) : Set Item := g.closure (g.advanced set X)

/-- The closed set that a set of items moves to along a string. -/
def gotoAll (g : Grammar) (set : Set Item) (symbols : List Symbol) : Set Item :=
  symbols.foldl g.goto set

/-- A set of items that asks for no further items. -/
def Closed (g : Grammar) (set : Set Item) : Prop :=
  ∀ item ∈ set, ∀ n, item.Awaits g (.nonterminal n) → ∀ id, g.Heads n id → (⟨id, 0⟩ : Item) ∈ set

variable {g : Grammar} {kernel set : Set Item} {item : Item} {X : Symbol}

/-- A closure has the items that it starts from. -/
theorem subset_closure (g : Grammar) (kernel : Set Item) : kernel ⊆ g.closure kernel :=
  fun _ hitem => .kernel hitem

/-- A closure is closed. -/
theorem closed_closure (g : Grammar) (kernel : Set Item) : g.Closed (g.closure kernel) :=
  fun _ hitem _ hawaits _ hheads => .expand hitem hawaits hheads

/-- The closure is the least closed set above a set. -/
theorem closure_subset (hkernel : kernel ⊆ set) (hset : g.Closed set) : g.closure kernel ⊆ set := by
  intro item hitem
  induction hitem with
  | kernel hitem => exact hkernel hitem
  | expand _ hawaits hheads ih => exact hset _ ih _ hawaits _ hheads

/-- A closed set is its own closure. -/
theorem Closed.closure_eq (h : g.Closed set) : g.closure set = set :=
  Set.Subset.antisymm (closure_subset (Set.Subset.refl _) h) (subset_closure g set)

/-- The closure of no items is empty. -/
@[simp] theorem closure_empty (g : Grammar) : g.closure ∅ = ∅ :=
  Closed.closure_eq fun _ hitem => absurd hitem (Set.notMem_empty _)

/-- An item of a closure is in the kernel or is the start of a rule that another item of the closure
asks for. -/
theorem mem_closure_cases (h : item ∈ g.closure kernel) :
    item ∈ kernel ∨ ∃ waiting ∈ g.closure kernel, ∃ n, waiting.Awaits g (.nonterminal n) ∧
      g.Heads n item.rule ∧ item.dot = 0 := by
  cases h with
  | kernel hitem => exact .inl hitem
  | expand hwaiting hawaits hheads => exact .inr ⟨_, hwaiting, _, hawaits, hheads, rfl⟩

/-- Items with the dot past the start come from the kernel. -/
theorem mem_kernel_of_dot_pos (h : item ∈ g.closure kernel) (hdot : 0 < item.dot) :
    item ∈ kernel := by
  rcases mem_closure_cases h with hitem | ⟨_, _, _, _, _, hzero⟩
  · exact hitem
  · omega

/-- A symbol leads nowhere if no item waits for it. -/
theorem goto_eq_empty_iff : g.goto set X = ∅ ↔ ∀ item ∈ set, ¬ item.Awaits g X := by
  constructor
  · intro hgoto item hitem hawaits
    have hmem : item.advance ∈ g.goto set X :=
      subset_closure g _ ⟨item, hitem, hawaits, rfl⟩
    rw [hgoto] at hmem
    exact hmem
  · intro hnone
    have hadvanced : g.advanced set X = ∅ := by
      rw [Set.eq_empty_iff_forall_notMem]
      rintro item ⟨waiting, hwaiting, hawaits, -⟩
      exact hnone waiting hwaiting hawaits
    rw [goto, hadvanced, closure_empty]

/-- A symbol leads somewhere if an item waits for it. -/
theorem goto_nonempty_iff : (g.goto set X).Nonempty ↔ ∃ item ∈ set, item.Awaits g X := by
  rw [Set.nonempty_iff_ne_empty, ne_eq, goto_eq_empty_iff]
  push Not
  rfl

/-- Nothing is reached from no items. -/
theorem gotoAll_empty (g : Grammar) (symbols : List Symbol) : g.gotoAll ∅ symbols = ∅ := by
  induction symbols with
  | nil => rfl
  | cons X symbols ih =>
    have hgoto : g.goto ∅ X = ∅ :=
      goto_eq_empty_iff.2 fun _ hitem => absurd hitem (Set.notMem_empty _)
    rw [gotoAll, List.foldl_cons, hgoto]
    exact ih

/-- The rules of a non-terminal that an item waits for can be looked up. -/
theorem rulesFor_of_awaits {n : NonterminalId} (hg : g.CrossReferenced)
    (hawaits : item.Awaits g (.nonterminal n)) :
    n < g.nonterminals.size ∧ ∃ rules, g.rulesFor n = .ok rules ∧
      ∀ id, id ∈ rules ↔ g.Heads n id := by
  obtain ⟨rule, hrule, hbody⟩ := hawaits
  have hlt : n < g.nonterminals.size := (hg.body_in hrule _ (List.mem_of_getElem? hbody)).2
  obtain ⟨rules, hrules, hmem, -⟩ := hg.exists_rulesFor hlt
  exact ⟨hlt, rules, hrules, hmem⟩

end Grammar

namespace ItemSet

variable {g : Grammar} {bounds : Bounds} {table after : ItemTable} {set : ItemSet}
  {kernel : Set Item}

/-- The starts of rules are added to the items of a set. -/
theorem addRules_meets {rules : List RuleId} (hvalid : table.Valid g) (hset : set.Within table)
    (hrules : ∀ id ∈ rules, Item.In g ⟨id, 0⟩) :
    ItemM.Meets g bounds (set.addRules g rules) table fun larger after =>
      larger.Within after ∧ ∀ item, item ∈ larger.items after ↔
        item ∈ set.items table ∨ ∃ id ∈ rules, item = ⟨id, 0⟩ := by
  refine Meets.foldlM (fun done (larger : ItemSet) after => larger.Within after ∧
    ∀ item, item ∈ larger.items after ↔ item ∈ set.items table ∨ ∃ id ∈ done, item = ⟨id, 0⟩)
    hvalid ?_ ⟨hset, by simp⟩
  intro done id rest larger after hsplit hgrows ⟨hwithin, hitems⟩
  have hid : Item.In g ⟨id, 0⟩ := hrules id (by simp [hsplit])
  refine (ItemM.intern_meets hgrows.valid hid).bind fun number later hlater hnumber => ?_
  refine .pure hlater.valid ⟨(hwithin.mono hlater).insert hnumber, fun item => ?_⟩
  rw [mem_items_insert hnumber, hwithin.items_eq hlater, hitems item]
  simp only [List.mem_append, List.mem_singleton]
  grind

namespace Closing

/-- A set on the way from a kernel to its closure. -/
structure Sound (g : Grammar) (kernel : Set Item) (table : ItemTable) (closing : Closing) :
    Prop where
  within : closing.set.Within table
  /-- The kernel is there. -/
  kernel_subset : kernel ⊆ closing.set.items table
  /-- Nothing is there that the closure does not have. -/
  subset_closure : closing.set.items table ⊆ g.closure kernel
  done_nodup : closing.done.Nodup
  done_lt : ∀ n ∈ closing.done, n < g.nonterminals.size
  /-- The rules of an expanded non-terminal are there. -/
  expanded : ∀ n ∈ closing.done, ∀ id, g.Heads n id → (⟨id, 0⟩ : Item) ∈ closing.set.items table

/-- What the later of two sets on the way to a closure has more than the earlier one. If it has
expanded no further non-terminal, the two are equal. -/
structure Follows (closing larger : Closing) : Prop where
  done_suffix : closing.done <:+ larger.done
  eq_of_length : larger.done.length = closing.done.length → larger = closing

/-- A set on the way to its closure follows itself. -/
theorem Follows.refl (closing : Closing) : Follows closing closing :=
  ⟨List.suffix_refl _, fun _ => rfl⟩

/-- Sets on the way to a closure follow each other. -/
theorem Follows.trans {a b c : Closing} (hab : Follows a b) (hbc : Follows b c) : Follows a c := by
  refine ⟨hab.done_suffix.trans hbc.done_suffix, fun hlength => ?_⟩
  have hab' := hab.done_suffix.length_le
  have hbc' := hbc.done_suffix.length_le
  have hb := hab.eq_of_length (by omega)
  subst hb
  exact hbc.eq_of_length hlength

variable {closing : Closing} {id : ItemId} {item : Item}

/-- Before the first pass a set is on the way from its own items. -/
theorem Sound.start (hset : set.Within table) : Sound g (set.items table) table { set } :=
  ⟨hset, Set.Subset.refl _, Grammar.subset_closure g _, List.nodup_nil, by simp, by simp⟩

/-- There are not more expanded non-terminals than non-terminals. -/
theorem Sound.length_done_le (h : closing.Sound g kernel table) :
    closing.done.length ≤ g.nonterminals.size := by
  have hsubset : closing.done ⊆ List.range g.nonterminals.size :=
    fun n hn => List.mem_range.2 (h.done_lt n hn)
  simpa using (List.subperm_of_subset h.done_nodup hsubset).length_le

/-- A set on the way to a closure with the rules of one more non-terminal that an item of the
closure waits for. -/
theorem Sound.expand {n : NonterminalId} {larger : ItemSet} (h : closing.Sound g kernel table)
    (hitem : item ∈ g.closure kernel) (hawaits : item.Awaits g (.nonterminal n))
    (hn : n < g.nonterminals.size) (hnew : n ∉ closing.done) (hwithin : larger.Within after)
    (hlarger : ∀ other, other ∈ larger.items after ↔
      other ∈ closing.set.items table ∨ ∃ id, g.Heads n id ∧ other = ⟨id, 0⟩) :
    Sound g kernel after ⟨larger, n :: closing.done⟩ := by
  refine ⟨hwithin, fun other hother => ?_, fun other hother => ?_, ?_, fun k hk => ?_,
    fun k hk id hheads => ?_⟩
  · exact (hlarger other).2 (.inl (h.kernel_subset hother))
  · rcases (hlarger other).1 hother with hold | ⟨id, hheads, rfl⟩
    · exact h.subset_closure hold
    · exact .expand hitem hawaits hheads
  · exact List.nodup_cons.2 ⟨hnew, h.done_nodup⟩
  · rcases List.mem_cons.1 hk with rfl | hk
    · exact hn
    · exact h.done_lt k hk
  · rcases List.mem_cons.1 hk with rfl | hk
    · exact (hlarger _).2 (.inr ⟨id, hheads, rfl⟩)
    · exact (hlarger _).2 (.inl (h.expanded k hk id hheads))

/-- To expand an item of the closure brings the rules of the non-terminal it waits for. -/
theorem expand_meets (hg : g.CrossReferenced) (hvalid : table.Valid g)
    (hclosing : closing.Sound g kernel table) (hid : table.items[id]? = some item)
    (hitem : item ∈ g.closure kernel) :
    ItemM.Meets g bounds (closing.expand g id) table fun larger after =>
      larger.Sound g kernel after ∧ Follows closing larger ∧
        ∀ n, item.Awaits g (.nonterminal n) → n ∈ larger.done := by
  obtain ⟨next, hnext, hawaits⟩ := (hvalid.in_of_getElem? hid).next?_eq
  refine (ItemM.item_meets hvalid hid).bind ?_
  rintro _ _ - ⟨rfl, rfl⟩
  refine Meets.liftStep_bind hnext ?_
  split
  · rename_i n
    have hn := (hawaits _).1 rfl
    by_cases hdone : closing.done.contains n = true
    · rw [if_pos hdone]
      refine .pure hvalid ⟨hclosing, .refl _, fun k hk => ?_⟩
      cases hn.unique hk
      exact List.contains_iff_mem.1 hdone
    · rw [if_neg hdone]
      obtain ⟨hlt, rules, hrules, hheads⟩ := Grammar.rulesFor_of_awaits hg hn
      refine Meets.liftStep_bind hrules ?_
      have hin : ∀ k ∈ rules, Item.In g ⟨k, 0⟩ := fun k hk => Item.in_of_heads ((hheads k).1 hk)
      refine (addRules_meets hvalid hclosing.within hin).bind fun larger after hgrows hlarger => ?_
      simp only [hheads] at hlarger
      have hnew : n ∉ closing.done := by simpa using hdone
      refine .pure hgrows.valid ⟨hclosing.expand hitem hn hlt hnew hlarger.1 hlarger.2,
        ⟨List.suffix_cons _ _, fun hlength => ?_⟩, fun k hk => ?_⟩
      · simp at hlength
      · cases hn.unique hk
        exact List.mem_cons_self
  · rename_i hnone
    refine .pure hvalid ⟨hclosing, .refl _, fun n hn => ?_⟩
    exact absurd ((hawaits _).2 hn) (hnone n)

/-- After a pass all non-terminals are expanded that items of the earlier set wait for. -/
theorem pass_meets (hg : g.CrossReferenced) (hvalid : table.Valid g)
    (hclosing : closing.Sound g kernel table) :
    ItemM.Meets g bounds (closing.pass g) table fun larger after =>
      larger.Sound g kernel after ∧ Follows closing larger ∧
        ∀ item ∈ closing.set.items table, ∀ n, item.Awaits g (.nonterminal n) →
          n ∈ larger.done := by
  have hpass : ItemM.Meets g bounds (closing.pass g) table fun larger after =>
      larger.Sound g kernel after ∧ Follows closing larger ∧
        ∀ id ∈ closing.set.ids, ∀ item, table.items[id]? = some item →
          ∀ n, item.Awaits g (.nonterminal n) → n ∈ larger.done := by
    refine Meets.foldlM (fun done (larger : Closing) after => larger.Sound g kernel after ∧
      Follows closing larger ∧ ∀ id ∈ done, ∀ item : Item, table.items[id]? = some item →
        ∀ n, item.Awaits g (.nonterminal n) → n ∈ larger.done) hvalid ?_
      ⟨hclosing, .refl _, by simp⟩
    intro done id rest larger after hsplit hgrows ⟨hlarger, hfollows, hdone⟩
    have hid : id ∈ closing.set.ids := by simp [hsplit]
    obtain ⟨item, hitem⟩ := hclosing.within.exists_item hid
    refine (expand_meets hg hgrows.valid hlarger (hgrows.getElem? hitem)
      (hclosing.subset_closure ⟨id, hid, hitem⟩)).mono ?_
    rintro next later - ⟨hnext, hnextFollows, hexpanded⟩
    refine ⟨hnext, hfollows.trans hnextFollows, fun k hk other hother n hn => ?_⟩
    rcases List.mem_append.1 hk with hk | hk
    · exact hnextFollows.done_suffix.subset (hdone k hk other hother n hn)
    · rw [List.mem_singleton.1 hk, hitem] at hother
      cases hother
      exact hexpanded n hn
  refine hpass.mono ?_
  rintro larger after - ⟨hlarger, hfollows, hexpanded⟩
  refine ⟨hlarger, hfollows, ?_⟩
  rintro item ⟨id, hid, hitem⟩
  exact hexpanded id hid item hitem

/-- A set whose items wait only for expanded non-terminals is the closure. -/
theorem Sound.items_eq (h : closing.Sound g kernel table)
    (hexpanded : ∀ item ∈ closing.set.items table, ∀ n, item.Awaits g (.nonterminal n) →
      n ∈ closing.done) : closing.set.items table = g.closure kernel := by
  refine Set.Subset.antisymm h.subset_closure (Grammar.closure_subset h.kernel_subset ?_)
  intro item hitem n hawaits id hheads
  exact h.expanded n (hexpanded item hitem n hawaits) id hheads

/-- Passes end with the closure, because only one pass can expand no further non-terminal. -/
theorem passes_meets {fuel : Nat} (hg : g.CrossReferenced) (hvalid : table.Valid g)
    (hclosing : closing.Sound g kernel table)
    (hfuel : g.nonterminals.size < fuel + closing.done.length) :
    ItemM.Meets g bounds (Closing.passes g fuel closing) table fun last after =>
      last.set.Within after ∧ last.set.items after = g.closure kernel := by
  induction fuel generalizing closing table with
  | zero =>
    have hle := hclosing.length_done_le
    omega
  | succ fuel ih =>
    refine (pass_meets hg hvalid hclosing).bind fun larger after hgrows hlarger => ?_
    obtain ⟨hsound, hfollows, hexpanded⟩ := hlarger
    by_cases hlength : larger.done.length = closing.done.length
    · rw [if_pos hlength]
      obtain rfl := hfollows.eq_of_length hlength
      rw [← hclosing.within.items_eq hgrows] at hexpanded
      exact .pure hgrows.valid ⟨hsound.within, hsound.items_eq hexpanded⟩
    · rw [if_neg hlength]
      have hle := hfollows.done_suffix.length_le
      exact ih hgrows.valid hsound (by omega)

end Closing

/-- The closure of a set of numbers stands for the closure of its items. -/
theorem closure_meets (hg : g.CrossReferenced) (hvalid : table.Valid g) (hset : set.Within table) :
    ItemM.Meets g bounds (set.closure g) table fun closed after =>
      closed.Within after ∧ closed.items after = g.closure (set.items table) := by
  refine (Closing.passes_meets hg hvalid (.start hset) (by simp)).bind
    fun last after hgrows hlast => ?_
  exact .pure hgrows.valid hlast

/-- The kernel of a move stands for the advanced forms of the items that wait for the symbol. -/
theorem kernel_meets {X : Symbol} (hvalid : table.Valid g) (hset : set.Within table) :
    ItemM.Meets g bounds (set.kernel g X) table fun kernel after =>
      kernel.Within after ∧ kernel.items after = g.advanced (set.items table) X := by
  have hkernel : ItemM.Meets g bounds (set.kernel g X) table fun kernel after =>
      kernel.Within after ∧ ∀ item, item ∈ kernel.items after ↔ ∃ id ∈ set.ids, ∃ waiting,
        table.items[id]? = some waiting ∧ waiting.Awaits g X ∧ item = waiting.advance := by
    refine Meets.foldlM (fun done (kernel : ItemSet) after => kernel.Within after ∧
      ∀ item, item ∈ kernel.items after ↔ ∃ id ∈ done, ∃ waiting : Item,
        table.items[id]? = some waiting ∧ waiting.Awaits g X ∧ item = waiting.advance) hvalid ?_
      ⟨within_empty table, by simp⟩
    intro done id rest kernel after hsplit hgrows ⟨hwithin, hitems⟩
    have hid : id ∈ set.ids := by simp [hsplit]
    obtain ⟨waiting, hold⟩ := hset.exists_item hid
    have hnow := hgrows.getElem? hold
    obtain ⟨next, hnext, hawaits⟩ := (hgrows.valid.in_of_getElem? hnow).next?_eq
    refine (ItemM.item_meets hgrows.valid hnow).bind ?_
    rintro _ _ - ⟨rfl, rfl⟩
    refine Meets.liftStep_bind hnext ?_
    by_cases hX : next = some X
    · rw [if_pos hX]
      have hwaits := (hawaits X).1 hX
      refine (ItemM.intern_meets hgrows.valid hwaits.advance_in).bind
        fun number later hlater hnumber => ?_
      refine .pure hlater.valid ⟨(hwithin.mono hlater).insert hnumber, fun item => ?_⟩
      rw [mem_items_insert hnumber, hwithin.items_eq hlater, hitems item]
      simp only [List.mem_append, List.mem_singleton]
      grind
    · rw [if_neg hX]
      have hwaits := fun hwaits => hX ((hawaits X).2 hwaits)
      refine .pure hgrows.valid ⟨hwithin, fun item => ?_⟩
      rw [hitems item]
      simp only [List.mem_append, List.mem_singleton]
      grind
  refine hkernel.mono fun kernel after _ ⟨hwithin, hitems⟩ => ⟨hwithin, ?_⟩
  ext item
  rw [hitems item]
  constructor
  · rintro ⟨id, hid, waiting, hwaiting, hawaits, heq⟩
    exact ⟨waiting, ⟨id, hid, hwaiting⟩, hawaits, heq⟩
  · rintro ⟨waiting, ⟨id, hid, hwaiting⟩, hawaits, heq⟩
    exact ⟨id, hid, waiting, hwaiting, hawaits, heq⟩

/-- Goto on a set of numbers stands for goto on its items. -/
theorem goto_meets {X : Symbol} (hg : g.CrossReferenced) (hvalid : table.Valid g)
    (hset : set.Within table) :
    ItemM.Meets g bounds (set.goto g X) table fun reached after =>
      reached.Within after ∧ reached.items after = g.goto (set.items table) X := by
  refine (kernel_meets hvalid hset).bind fun kernel after hgrows ⟨hwithin, hitems⟩ => ?_
  by_cases hempty : kernel.isEmpty = true
  · rw [if_pos hempty]
    refine .pure hgrows.valid ⟨hwithin, ?_⟩
    rw [Grammar.goto, ← hitems, (isEmpty_iff hwithin).1 hempty, Grammar.closure_empty]
  · rw [if_neg hempty]
    refine (closure_meets hg hgrows.valid hwithin).mono fun reached later _ hreached => ?_
    rw [hitems] at hreached
    exact hreached

end ItemSet

end ShiftReduce
