import Mathlib.Data.Set.Insert
import ShiftReduce.Item.Set
import ShiftReduce.Proofs.Grammar.WellFormed

/-!
# Numbers of items

A valid table gives every item of a grammar at most one number, and a number never changes its
meaning. Requests on a table are described by `Meets`: they only add items of the grammar, and
they fail only when the table is full. A set of item numbers stands for a set of items, and in a
valid table different sets of numbers stand for different sets of items.
-/

namespace ShiftReduce

namespace Item

/-- Items of a grammar: a rule of it and a place in the body of the rule. -/
def In (g : Grammar) (item : Item) : Prop :=
  ∃ rule, g.rules[item.rule]? = some rule ∧ item.dot ≤ rule.length

/-- The symbol stands after the dot. -/
def Awaits (g : Grammar) (item : Item) (X : Symbol) : Prop :=
  ∃ rule, g.rules[item.rule]? = some rule ∧ rule.body[item.dot]? = some X

/-- The dot stands at the end. -/
def Complete (g : Grammar) (item : Item) : Prop :=
  ∃ rule, g.rules[item.rule]? = some rule ∧ item.dot = rule.length

/-- Whether an item is complete can be decided. -/
instance (g : Grammar) (item : Item) : Decidable (item.Complete g) :=
  inferInstanceAs (Decidable (∃ rule ∈ g.rules[item.rule]?, item.dot = rule.length))

variable {g : Grammar} {item : Item}

/-- At most one symbol stands after a dot. -/
theorem Awaits.unique {X Y : Symbol} (hX : item.Awaits g X) (hY : item.Awaits g Y) : X = Y := by
  obtain ⟨rule, hrule, hX⟩ := hX
  obtain ⟨rule', hrule', hY⟩ := hY
  rw [hrule] at hrule'
  obtain rfl := Option.some.inj hrule'
  rw [hX] at hY
  exact Option.some.inj hY

/-- What stands after a dot is read. -/
theorem Awaits.ne_epsilon {X : Symbol} (h : item.Awaits g X) (hg : g.CrossReferenced) :
    X ≠ .epsilon := by
  rintro rfl
  obtain ⟨rule, hrule, hbody⟩ := h
  exact hg.body_in hrule _ (List.mem_of_getElem? hbody)

/-- An item waits for the first symbol after its dot. -/
theorem awaits_of_drop {id : RuleId} {rule : Rule} {dot : Nat} {X : Symbol} {Xs : List Symbol}
    (hrule : g.rules[id]? = some rule) (hXs : rule.body.drop dot = X :: Xs) :
    Item.Awaits g ⟨id, dot⟩ X ∧ rule.body.drop (dot + 1) = Xs := by
  refine ⟨⟨rule, hrule, ?_⟩, ?_⟩
  · rw [← List.head?_drop, hXs, List.head?_cons]
  · rw [← List.tail_drop, hXs, List.tail_cons]

/-- An item that waits for a symbol can be advanced. -/
theorem Awaits.advance_in {X : Symbol} (h : item.Awaits g X) : item.advance.In g := by
  obtain ⟨rule, hrule, hX⟩ := h
  obtain ⟨hlt, -⟩ := List.getElem?_eq_some_iff.1 hX
  exact ⟨rule, hrule, hlt⟩

/-- The start of a rule is an item. -/
theorem in_of_heads {n : NonterminalId} {id : RuleId} (h : g.Heads n id) : In g ⟨id, 0⟩ := by
  obtain ⟨rule, hrule, -⟩ := h
  exact ⟨rule, hrule, Nat.zero_le _⟩

/-- The rule of an item of the grammar can be looked up. -/
theorem In.rule_eq (h : item.In g) :
    ∃ rule, g.rules[item.rule]? = some rule ∧ g.rule item.rule = .ok rule := by
  obtain ⟨rule, hrule, -⟩ := h
  exact ⟨rule, hrule, by simp only [Grammar.rule, entry, hrule]⟩

/-- The check of an item accepts the items of the grammar. -/
theorem In.check_eq (h : item.In g) : item.check g = .ok () := by
  obtain ⟨rule, hrule, hdot⟩ := h
  simp only [Item.check, hrule, if_pos hdot]

/-- The symbol after the dot of an item of the grammar can be asked for. -/
theorem In.next?_eq (h : item.In g) :
    ∃ next, item.next? g = .ok next ∧ ∀ X, next = some X ↔ item.Awaits g X := by
  obtain ⟨rule, hrule, heq⟩ := h.rule_eq
  refine ⟨rule.body[item.dot]?, by simp only [Item.next?, heq]; rfl, fun X => ⟨fun hX => ?_, ?_⟩⟩
  · exact ⟨rule, hrule, hX⟩
  · rintro ⟨rule', hrule', hX⟩
    rw [hrule] at hrule'
    obtain rfl := Option.some.inj hrule'
    exact hX

/-- The items of the grammar that wait for no symbol have the dot at the end. -/
theorem In.complete_iff (h : item.In g) : item.Complete g ↔ ∀ X, ¬ item.Awaits g X := by
  obtain ⟨rule, hrule, hdot⟩ := h
  constructor
  · rintro ⟨rule', hrule', hend⟩ X ⟨rule'', hrule'', hX⟩
    obtain rfl := Option.some.inj (hrule'.symm.trans hrule'')
    obtain ⟨hlt, -⟩ := List.getElem?_eq_some_iff.1 hX
    exact absurd hend (Nat.ne_of_lt hlt)
  · intro hnone
    refine ⟨rule, hrule, ?_⟩
    by_contra hne
    have hlt : item.dot < rule.body.length := Nat.lt_of_le_of_ne hdot hne
    exact hnone _ ⟨rule, hrule, List.getElem?_eq_getElem hlt⟩

/-- Whether the dot of an item of the grammar is at the end can be asked. -/
theorem In.isReduction_eq (h : item.In g) :
    ∃ done, item.isReduction g = .ok done ∧ (done = true ↔ item.Complete g) := by
  obtain ⟨rule, hrule, heq⟩ := h.rule_eq
  refine ⟨item.dot == rule.length, by simp only [Item.isReduction, heq]; rfl, fun hdone => ?_, ?_⟩
  · exact ⟨rule, hrule, eq_of_beq hdone⟩
  · rintro ⟨rule', hrule', hdot⟩
    rw [hrule] at hrule'
    obtain rfl := Option.some.inj hrule'
    exact beq_iff_eq.2 hdot

end Item

namespace ItemTable

/-- A table of items of a grammar, each with one number. -/
structure Valid (g : Grammar) (table : ItemTable) : Prop where
  /-- No item has two numbers. -/
  nodup : table.items.toList.Nodup
  /-- The table holds items of the grammar only. -/
  items_in : ∀ item ∈ table.items, item.In g

/-- A valid table that has more items than another one, and the same numbers for its items. -/
structure Grows (g : Grammar) (table after : ItemTable) : Prop where
  /-- New items come last. -/
  keeps : table.items.toList <+: after.items.toList
  bounds_eq : after.bounds = table.bounds
  valid : after.Valid g

variable {g : Grammar} {table after later : ItemTable} {item : Item} {id : ItemId}

/-- A table without items is valid. -/
theorem valid_empty (g : Grammar) (bounds : Bounds) : (empty bounds).Valid g :=
  ⟨List.nodup_nil, fun item hitem => by simp [empty] at hitem⟩

/-- A number names an item of the grammar. -/
theorem Valid.in_of_getElem? (h : table.Valid g) (hid : table.items[id]? = some item) :
    item.In g :=
  h.items_in item (Array.mem_of_getElem? hid)

/-- An item has one number. -/
theorem Valid.id_unique {id' : ItemId} (h : table.Valid g) (hid : table.items[id]? = some item)
    (hid' : table.items[id']? = some item) : id = id' := by
  rw [← Array.getElem?_toList] at hid hid'
  obtain ⟨hlt, -⟩ := List.getElem?_eq_some_iff.1 hid
  exact (List.getElem?_inj hlt h.nodup).1 (hid.trans hid'.symm)

/-- A valid table grows to itself. -/
theorem Grows.refl (h : table.Valid g) : table.Grows g table := ⟨List.prefix_refl _, rfl, h⟩

/-- A table that grows twice has grown. -/
theorem Grows.trans (h : table.Grows g after) (h' : after.Grows g later) : table.Grows g later :=
  ⟨h.keeps.trans h'.keeps, h'.bounds_eq.trans h.bounds_eq, h'.valid⟩

/-- A number keeps its meaning. -/
theorem Grows.getElem? (h : table.Grows g after) (hid : table.items[id]? = some item) :
    after.items[id]? = some item := by
  obtain ⟨new, hnew⟩ := h.keeps
  rw [← Array.getElem?_toList] at hid ⊢
  rw [← hnew, List.getElem?_append_left (List.getElem?_eq_some_iff.1 hid).1, hid]

/-- Numbers stay in range. -/
theorem Grows.size_le (h : table.Grows g after) : table.size ≤ after.size := by
  simpa [ItemTable.size] using h.keeps.length_le

/-- A number of the smaller table means the same in both. -/
theorem Grows.getElem?_iff (h : table.Grows g after) (hid : id < table.size) :
    after.items[id]? = some item ↔ table.items[id]? = some item := by
  refine ⟨fun hafter => ?_, h.getElem?⟩
  have hold := h.getElem? (Array.getElem?_eq_getElem hid)
  rw [hold] at hafter
  rw [← hafter]
  exact Array.getElem?_eq_getElem hid

/-- A table that has all items of the grammar cannot grow. -/
theorem Grows.eq_of_full (h : table.Grows g after)
    (hfull : ∀ item : Item, item.In g → item ∈ table.items) : after = table := by
  obtain ⟨new, hnew⟩ := h.keeps
  have hnone : new = [] := by
    rw [List.eq_nil_iff_forall_not_mem]
    intro item hitem
    have hin : item.In g := by
      apply h.valid.items_in
      rw [← Array.mem_toList_iff, ← hnew]
      exact List.mem_append_right _ hitem
    have hnodup := h.valid.nodup
    rw [← hnew, List.nodup_append] at hnodup
    exact hnodup.2.2 item (Array.mem_toList_iff.2 (hfull item hin)) item hitem rfl
  rw [hnone, List.append_nil] at hnew
  have hitems : after.items = table.items := Array.toList_inj.1 hnew.symm
  cases table
  cases after
  simpa using ⟨hitems, h.bounds_eq⟩

/-- The item with a number of the table can be looked up. -/
theorem get_eq (hid : table.items[id]? = some item) : table.get id = .ok item := by
  simp only [ItemTable.get, entry, hid]

/-- A look-up finds the number of an item. -/
theorem getElem?_of_find? (h : table.find? item = some id) : table.items[id]? = some item := by
  obtain ⟨hlt, hfound, -⟩ := Array.findIdx?_eq_some_iff_getElem.1 h
  rw [Array.getElem?_eq_getElem hlt, eq_of_beq hfound]

/-- A look-up misses only items that the table does not have. -/
theorem not_mem_of_find? (h : table.find? item = none) : item ∉ table.items := by
  intro hmem
  have hmiss := Array.findIdx?_eq_none_iff.1 h item hmem
  simp at hmiss

/-- A look-up finds every item of a valid table. -/
theorem Valid.find?_eq (h : table.Valid g) (hid : table.items[id]? = some item) :
    table.find? item = some id := by
  cases hfind : table.find? item with
  | none => exact absurd (Array.mem_of_getElem? hid) (not_mem_of_find? hfind)
  | some id' => rw [h.id_unique hid (getElem?_of_find? hfind)]

/-- A table that has room takes a new item as its last one. -/
theorem Valid.push (h : table.Valid g) (hitem : item.In g) (hnew : item ∉ table.items) :
    table.Grows g { table with items := table.items.push item } := by
  refine ⟨⟨[item], by simp⟩, rfl, ⟨?_, fun other hother => ?_⟩⟩
  · simp only [Array.toList_push]
    rw [List.nodup_append]
    refine ⟨h.nodup, by simp, fun other hother _ hlast => ?_⟩
    rw [List.mem_singleton.1 hlast]
    rintro rfl
    exact hnew (Array.mem_toList_iff.1 hother)
  · rcases Array.mem_push.1 hother with hold | rfl
    · exact h.items_in other hold
    · exact hitem

end ItemTable

/-- A request whose state has a table of items meets `good` if it only adds items of the grammar to
the table, ensures `good` of its result, and fails only because a store is full, either by the
bounds of the table or by the given ones. -/
def Meets {σ α : Type} (items : σ → ItemTable) (g : Grammar) (bounds : Bounds)
    (request : EStateM Failure σ α) (state : σ) (good : α → σ → Prop) : Prop :=
  Ensures request state (fun a after => (items state).Grows g (items after) ∧ good a after)
    (fun failure after => (items state).Grows g (items after) ∧
      ((items state).bounds.Refuses failure ∨ bounds.Refuses failure))

namespace Meets

variable {σ α β : Type} {items : σ → ItemTable} {g : Grammar} {bounds : Bounds}
  {request : EStateM Failure σ α} {state : σ} {good good' : α → σ → Prop}

/-- What follows from what a request meets is met too. -/
theorem mono (h : Meets items g bounds request state good)
    (hgood : ∀ a after, (items state).Grows g (items after) → good a after → good' a after) :
    Meets items g bounds request state good' :=
  Ensures.mono h (fun a after ha => ⟨ha.1, hgood a after ha.1 ha.2⟩) (fun _ _ hbad => hbad)

/-- A result adds nothing to the table. -/
theorem pure {a : α} (hvalid : (items state).Valid g) (h : good a state) :
    Meets items g bounds (Pure.pure a) state good :=
  Ensures.pure ⟨.refl hvalid, h⟩

/-- What a request meets after another one has added items. -/
theorem after_grows {before : σ} (hgrows : (items before).Grows g (items state))
    (h : Meets items g bounds request state good) :
    Ensures request state (fun a after => (items before).Grows g (items after) ∧ good a after)
      (fun failure after => (items before).Grows g (items after) ∧
        ((items before).bounds.Refuses failure ∨ bounds.Refuses failure)) := by
  refine Ensures.mono h (fun a after ha => ⟨hgrows.trans ha.1, ha.2⟩) fun failure after hbad => ?_
  rw [← hgrows.bounds_eq]
  exact ⟨hgrows.trans hbad.1, hbad.2⟩

/-- Two requests, one after the other, meet what the second one meets. -/
theorem bind {next : α → EStateM Failure σ β} {final : β → σ → Prop}
    (h : Meets items g bounds request state good)
    (hnext : ∀ a after, (items state).Grows g (items after) → good a after →
      Meets items g bounds (next a) after final) :
    Meets items g bounds (request >>= next) state final :=
  Ensures.bind h fun a after ha => (hnext a after ha.1 ha.2).after_grows ha.1

/-- A pass over a list keeps an invariant about the elements visited so far. -/
theorem foldlM {xs : List β} {step : α → β → EStateM Failure σ α} (inv : List β → α → σ → Prop)
    {a : α} (hvalid : (items state).Valid g)
    (hstep : ∀ done x rest a after, xs = done ++ x :: rest → (items state).Grows g (items after) →
      inv done a after → Meets items g bounds (step a x) after (inv (done ++ [x])))
    (hstart : inv [] a state) : Meets items g bounds (xs.foldlM step a) state (inv xs) :=
  Ensures.foldlM (fun done a after => (items state).Grows g (items after) ∧ inv done a after)
    (fun done x rest a after hxs hinv =>
      (hstep done x rest a after hxs hinv.1 hinv.2).after_grows hinv.1)
    ⟨.refl hvalid, hstart⟩

/-- A pass over a list for its effect keeps an invariant about the elements visited so far. -/
theorem forM {xs : List β} {step : β → EStateM Failure σ PUnit} (inv : List β → σ → Prop)
    (hvalid : (items state).Valid g)
    (hstep : ∀ done x rest after, xs = done ++ x :: rest → (items state).Grows g (items after) →
      inv done after → Meets items g bounds (step x) after (fun _ => inv (done ++ [x])))
    (hstart : inv [] state) : Meets items g bounds (xs.forM step) state (fun _ => inv xs) :=
  Ensures.forM (fun done after => (items state).Grows g (items after) ∧ inv done after)
    (fun done x rest after hxs hinv =>
      (hstep done x rest after hxs hinv.1 hinv.2).after_grows hinv.1)
    ⟨.refl hvalid, hstart⟩

/-- A step that looks at the state. -/
theorem get_bind {next : σ → EStateM Failure σ β} {final : β → σ → Prop}
    (h : Meets items g bounds (next state) state final) :
    Meets items g bounds (get >>= next) state final := h

/-- A lifted step that succeeds only hands its result on. -/
theorem liftStep_bind {step : Except Failure α} {next : α → EStateM Failure σ β}
    {final : β → σ → Prop} {a : α} (hstep : step = .ok a)
    (h : Meets items g bounds (next a) state final) :
    Meets items g bounds (liftStep step >>= next) state final := by
  subst hstep
  exact h

/-- A lifted step that asks for room goes on if there is room. -/
theorem allow_bind {store : Store} {needed : Nat} {next : Unit → EStateM Failure σ β}
    {final : β → σ → Prop} (hvalid : (items state).Valid g)
    (h : Meets items g bounds (next ()) state final) :
    Meets items g bounds (liftStep (bounds.allow store needed) >>= next) state final := by
  cases hallow : bounds.allow store needed with
  | error failure => exact ⟨.refl hvalid, .inr (Bounds.refuses_of_allow hallow)⟩
  | ok room => exact h

/-- Without bounds a request succeeds. -/
theorem exists_ok (h : Meets items g .unbounded request state good)
    (hbounds : (items state).bounds = .unbounded) :
    ∃ a after, request state = .ok a after ∧ (items state).Grows g (items after) ∧
      good a after := by
  refine Ensures.exists_ok h ?_
  rintro failure after ⟨-, hrefuses⟩
  rw [hbounds, or_self] at hrefuses
  exact Bounds.not_refuses_unbounded failure hrefuses

end Meets

/-- What a request on a table of items meets. -/
abbrev ItemM.Meets {α : Type} (g : Grammar) (bounds : Bounds) (request : ItemM α)
    (table : ItemTable) (good : α → ItemTable → Prop) : Prop :=
  ShiftReduce.Meets (fun table => table) g bounds request table good

namespace ItemM

variable {α β : Type} {g : Grammar} {bounds : Bounds} {table : ItemTable} {item : Item}
  {id : ItemId}

/-- An item of the grammar gets a number, and keeps the one that it has. -/
theorem intern_meets (hvalid : table.Valid g) (hitem : item.In g) :
    Meets g bounds (ItemTable.intern g item) table
      fun id after => after.items[id]? = some item := by
  unfold Meets ShiftReduce.Meets Ensures ItemTable.intern
  cases hfind : table.find? item with
  | some id => exact ⟨.refl hvalid, ItemTable.getElem?_of_find? hfind⟩
  | none =>
    have hadd : table.add g item = table.bounds.allow .items (table.size + 1) >>= fun _ =>
        .ok { table with items := table.items.push item } := by
      simp only [ItemTable.add, hitem.check_eq]
      rfl
    cases hallow : table.bounds.allow .items (table.size + 1) with
    | error failure =>
      simp only [hadd, hallow]
      exact ⟨.refl hvalid, .inl (Bounds.refuses_of_allow hallow)⟩
    | ok room =>
      simp only [hadd, hallow]
      exact ⟨hvalid.push hitem (ItemTable.not_mem_of_find? hfind), Array.getElem?_push_size⟩

/-- The item with a number of the table. -/
theorem item_meets (hvalid : table.Valid g) (hid : table.items[id]? = some item) :
    Meets g bounds (ItemTable.item id) table fun found after => found = item ∧ after = table := by
  unfold Meets ShiftReduce.Meets Ensures
  simp only [ItemTable.item, ItemTable.get_eq hid, liftStep]
  exact ⟨.refl hvalid, trivial, trivial⟩

end ItemM

namespace ItemSet

/-- The items that a set of numbers stands for. -/
def items (table : ItemTable) (set : ItemSet) : Set Item :=
  { item | ∃ id ∈ set.ids, table.items[id]? = some item }

/-- All numbers of the set are in the table. -/
def Within (table : ItemTable) (set : ItemSet) : Prop := ∀ id ∈ set.ids, id < table.size

variable {g : Grammar} {table after : ItemTable} {set set' : ItemSet} {item : Item} {id : ItemId}

/-- The empty set stands for no items. -/
@[simp] theorem items_empty (table : ItemTable) : empty.items table = ∅ := by
  ext item
  simp [items, empty]

/-- The empty set has no numbers that a table does not have. -/
@[simp] theorem within_empty (table : ItemTable) : empty.Within table := by
  intro id hid
  simp [empty] at hid

/-- The set with one more number stands for one more item. -/
theorem mem_items_insert {other : Item} (hid : table.items[id]? = some item) :
    other ∈ (set.insert id).items table ↔ other = item ∨ other ∈ set.items table := by
  simp only [items, Set.mem_ofPred_eq, mem_insert]
  constructor
  · rintro ⟨k, rfl | hk, hother⟩
    · rw [hid] at hother
      exact .inl (Option.some.inj hother).symm
    · exact .inr ⟨k, hk, hother⟩
  · rintro (rfl | ⟨k, hk, hother⟩)
    · exact ⟨id, .inl rfl, hid⟩
    · exact ⟨k, .inr hk, hother⟩

/-- A number of the set is the number of an item. -/
theorem Within.exists_item (h : set.Within table) (hid : id ∈ set.ids) :
    ∃ item, table.items[id]? = some item :=
  ⟨_, Array.getElem?_eq_getElem (h id hid)⟩

/-- A set within a table stays so with one more number of the table. -/
theorem Within.insert (h : set.Within table) (hid : table.items[id]? = some item) :
    (set.insert id).Within table := by
  intro k hk
  rcases mem_insert.1 hk with rfl | hk
  · exact (Array.getElem?_eq_some_iff.1 hid).1
  · exact h k hk

/-- A set within a table is within every larger one. -/
theorem Within.mono (h : set.Within table) (hgrows : table.Grows g after) : set.Within after :=
  fun id hid => Nat.lt_of_lt_of_le (h id hid) hgrows.size_le

/-- A set of numbers means the same in a larger table. -/
theorem Within.items_eq (h : set.Within table) (hgrows : table.Grows g after) :
    set.items after = set.items table := by
  ext item
  simp only [items, Set.mem_ofPred_eq]
  exact ⟨fun ⟨id, hid, hitem⟩ => ⟨id, hid, (hgrows.getElem?_iff (h id hid)).1 hitem⟩,
    fun ⟨id, hid, hitem⟩ => ⟨id, hid, hgrows.getElem? hitem⟩⟩

/-- Numbers in a set are the numbers of its items. -/
theorem mem_ids_iff (hvalid : table.Valid g) (hid : table.items[id]? = some item) :
    id ∈ set.ids ↔ item ∈ set.items table := by
  refine ⟨fun hmem => ⟨id, hmem, hid⟩, ?_⟩
  rintro ⟨k, hk, hitem⟩
  rw [hvalid.id_unique hid hitem]
  exact hk

/-- Sets with the same numbers are equal. -/
theorem eq_of_mem_iff (h : ∀ id, id ∈ set.ids ↔ id ∈ set'.ids) : set = set' := by
  have hids : set.ids = set'.ids :=
    List.Perm.eq_of_pairwise (fun a b _ _ hab hba => absurd hba (Nat.lt_asymm hab))
      set.ascending set'.ascending
      ((List.perm_ext_iff_of_nodup (set.ascending.imp Nat.ne_of_lt)
        (set'.ascending.imp Nat.ne_of_lt)).2 h)
  cases set
  cases set'
  simpa using hids

/-- In a valid table, sets of numbers that stand for the same items are equal. -/
theorem eq_of_items_eq (hvalid : table.Valid g) (h : set.Within table) (h' : set'.Within table)
    (hitems : set.items table = set'.items table) : set = set' := by
  apply eq_of_mem_iff
  intro id
  constructor
  · intro hid
    obtain ⟨item, hitem⟩ := h.exists_item hid
    exact (mem_ids_iff hvalid hitem).2 (hitems ▸ (mem_ids_iff hvalid hitem).1 hid)
  · intro hid
    obtain ⟨item, hitem⟩ := h'.exists_item hid
    exact (mem_ids_iff hvalid hitem).2 (hitems ▸ (mem_ids_iff hvalid hitem).1 hid)

/-- A set without numbers stands for no items, and only such a set does. -/
theorem isEmpty_iff (h : set.Within table) : set.isEmpty = true ↔ set.items table = ∅ := by
  constructor
  · intro hempty
    rw [ItemSet.isEmpty, List.isEmpty_iff] at hempty
    ext item
    simp [items, hempty]
  · intro hitems
    rw [ItemSet.isEmpty, List.isEmpty_iff, List.eq_nil_iff_forall_not_mem]
    intro id hid
    obtain ⟨item, hitem⟩ := h.exists_item hid
    have hmem : item ∈ set.items table := ⟨id, hid, hitem⟩
    rw [hitems] at hmem
    exact hmem

end ItemSet

end ShiftReduce
