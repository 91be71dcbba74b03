import Mathlib.Logic.Relation
import ShiftReduce.Proofs.Dfa.Canonical
import ShiftReduce.Proofs.Nfa.Build

/-!
# The history of a table of items

A table of items is shared by everything that is built for a grammar. Whatever is asked of it, and
whether or not a request succeeds, the table changes only by single items of the grammar that are
put at its end while there is room. So numbers and items stay in one-to-one correspondence over any
sequence of requests, and a number that was handed out keeps its meaning.
-/

namespace ShiftReduce

namespace ItemTable

/-- The table gets one item that it did not have. -/
inductive Adds (g : Grammar) (table : ItemTable) : ItemTable → Prop
  | item {item : Item} {larger : ItemTable} : table.find? item = none →
      table.add g item = .ok larger → Adds g table larger

/-- The table gets any number of items, one after the other. -/
abbrev Extends (g : Grammar) : ItemTable → ItemTable → Prop := Relation.ReflTransGen (Adds g)

/-- The table is not larger than its bound. -/
def Fits (table : ItemTable) : Prop :=
  ∀ bound, table.bounds.bound .items = some bound → table.size ≤ bound

variable {g : Grammar} {table after : ItemTable} {item : Item}

/-- The check of an item accepts only items of the grammar. -/
theorem in_of_check (h : item.check g = .ok ()) : item.In g := by
  unfold Item.check at h
  cases hrule : g.rules[item.rule]? with
  | none => simp [hrule] at h
  | some rule =>
    simp only [hrule] at h
    by_cases hdot : item.dot ≤ rule.length
    · exact ⟨rule, hrule, hdot⟩
    · simp [hdot] at h

/-- An item that is added is an item of the grammar, comes last and has room. -/
theorem of_add (h : table.add g item = .ok after) :
    item.In g ∧ table.bounds.allow .items (table.size + 1) = .ok () ∧
      after = { table with items := table.items.push item } := by
  obtain ⟨_, hcheck, h⟩ := bind_eq_ok.1 h
  obtain ⟨_, hroom, h⟩ := bind_eq_ok.1 h
  exact ⟨in_of_check hcheck, hroom, (Except.ok.inj h).symm⟩

/-- An item is not added because the grammar does not have it or because the table is full. -/
theorem of_add_error {failure : Failure} (h : table.add g item = .error failure) :
    failure = .mismatch (.noItem item.rule item.dot) ∨ table.bounds.Refuses failure := by
  unfold add at h
  cases hcheck : item.check g with
  | error other =>
    have hmismatch : other = .mismatch (.noItem item.rule item.dot) := by
      unfold Item.check at hcheck
      split at hcheck
      · split at hcheck
        · cases hcheck
        · exact (Except.error.inj hcheck).symm
      · exact (Except.error.inj hcheck).symm
    rw [hcheck] at h
    exact .inl ((Except.error.inj h).symm.trans hmismatch)
  | ok _ =>
    rw [hcheck] at h
    cases hroom : table.bounds.allow .items (table.size + 1) with
    | error other =>
      rw [hroom] at h
      exact .inr (Except.error.inj h ▸ Bounds.refuses_of_allow hroom)
    | ok _ =>
      rw [hroom] at h
      cases h

/-- One more item keeps a table valid and its numbers as they are. -/
theorem Adds.grows (h : table.Adds g after) (hvalid : table.Valid g) : table.Grows g after := by
  obtain ⟨hfind, hadd⟩ := h
  obtain ⟨hitem, -, rfl⟩ := of_add hadd
  exact hvalid.push hitem (not_mem_of_find? hfind)

/-- One more item does not take a table past its bound. -/
theorem Adds.fits (h : table.Adds g after) : after.Fits := by
  obtain ⟨-, hadd⟩ := h
  obtain ⟨-, hroom, rfl⟩ := of_add hadd
  intro bound hbound
  simp only [Bounds.allow, hbound] at hroom
  split at hroom
  · cases hroom
  · rename_i hle
    simpa [size] using hle

/-- Any number of new items keeps a table valid and its numbers as they are. -/
theorem Extends.grows (h : table.Extends g after) (hvalid : table.Valid g) :
    table.Grows g after := by
  induction h with
  | refl => exact .refl hvalid
  | tail _ hadds ih => exact ih.trans (hadds.grows ih.valid)

/-- Any number of new items does not take a table past its bound. -/
theorem Extends.fits (h : table.Extends g after) (hfits : table.Fits) : after.Fits := by
  cases h with
  | refl => exact hfits
  | tail _ hadds => exact hadds.fits

end ItemTable

/-- A request whose state has a table of items does nothing to the table but add items to it,
whether it succeeds or not. -/
def OnlyAdds {σ α : Type} (items : σ → ItemTable) (g : Grammar) (request : EStateM Failure σ α) :
    Prop :=
  ∀ state, Ensures request state (fun _ after => (items state).Extends g (items after))
    (fun _ after => (items state).Extends g (items after))

namespace OnlyAdds

variable {σ α β : Type} {items : σ → ItemTable} {g : Grammar} {request : EStateM Failure σ α}

/-- A result adds nothing. -/
theorem pure (a : α) : OnlyAdds items g (Pure.pure a) := fun _ => .refl

/-- Two requests that only add items do so together. -/
theorem bind {next : α → EStateM Failure σ β} (h : OnlyAdds items g request)
    (hnext : ∀ a, OnlyAdds items g (next a)) : OnlyAdds items g (request >>= next) := by
  intro state
  refine Ensures.bind (h state) fun a middle hmiddle => ?_
  exact (hnext a middle).mono (fun _ _ hafter => hmiddle.trans hafter)
    (fun _ _ hafter => hmiddle.trans hafter)

/-- A pass over a list only adds items if its steps do. -/
theorem foldlM {step : α → β → EStateM Failure σ α} (hstep : ∀ a x, OnlyAdds items g (step a x))
    (xs : List β) (a : α) : OnlyAdds items g (xs.foldlM step a) := by
  induction xs generalizing a with
  | nil => exact .pure a
  | cons x xs ih =>
    rw [List.foldlM_cons]
    exact (hstep a x).bind ih

/-- A pass over a list for its effect only adds items if its steps do. -/
theorem forM {step : β → EStateM Failure σ PUnit} (hstep : ∀ x, OnlyAdds items g (step x))
    (xs : List β) : OnlyAdds items g (xs.forM step) := by
  induction xs with
  | nil => exact .pure _
  | cons x xs ih =>
    rw [List.forM]
    exact (hstep x).bind fun _ => ih

/-- A lifted step adds nothing. -/
theorem lifted (step : Except Failure α) : OnlyAdds items g (liftStep step) := by
  intro state
  refine (Ensures.lifted step state).mono ?_ ?_
  · rintro _ _ ⟨-, rfl⟩
    exact .refl
  · rintro _ _ ⟨-, rfl⟩
    exact .refl

/-- A request that looks at the state first. -/
theorem get_bind {next : σ → EStateM Failure σ α} (h : ∀ state, OnlyAdds items g (next state)) :
    OnlyAdds items g (get >>= next) := fun state => h state state

/-- A request that changes other parts of the state. -/
theorem modify {change : σ → σ} (h : ∀ state, items (change state) = items state) :
    OnlyAdds items g (modify change) := by
  intro state
  change (items state).Extends g (items (change state))
  rw [h state]

end OnlyAdds

/-- A request on a table of items only adds items to it. -/
abbrev ItemM.OnlyAdds {α : Type} (g : Grammar) (request : ItemM α) : Prop :=
  ShiftReduce.OnlyAdds (fun table => table) g request

section Requests

variable {α : Type} {g : Grammar} {bounds : Bounds}

namespace ItemTable

/-- To ask for the number of an item adds the item at most, and adds nothing if it fails. -/
theorem intern_cases (g : Grammar) (item : Item) (table : ItemTable) :
    Ensures (intern g item) table (fun _ after => after = table ∨ table.Adds g after)
      (fun failure after => after = table ∧ table.add g item = .error failure) := by
  unfold Ensures intern
  cases hfind : table.find? item with
  | some id => exact .inl rfl
  | none =>
    cases hadd : table.add g item with
    | ok larger => exact .inr (.item hfind hadd)
    | error failure => exact ⟨rfl, rfl⟩

/-- To ask for the number of an item only adds the item. -/
theorem onlyAdds_intern (g : Grammar) (item : Item) : ItemM.OnlyAdds g (intern g item) := by
  intro table
  refine (intern_cases g item table).mono ?_ ?_
  · rintro _ after (rfl | hadds)
    · exact .refl
    · exact .single hadds
  · rintro _ _ ⟨rfl, -⟩
    exact .refl

/-- To look an item up adds nothing. -/
theorem onlyAdds_item (id : ItemId) : ItemM.OnlyAdds g (ItemTable.item id) := by
  intro table
  have hget : ItemM.OnlyAdds g (liftStep (table.get id)) := .lifted _
  exact hget table

/-- To advance an item only adds the advanced form. -/
theorem onlyAdds_advance (g : Grammar) (id : ItemId) : ItemM.OnlyAdds g (advance g id) := by
  refine (onlyAdds_item id).bind fun item => (OnlyAdds.lifted _).bind fun done => ?_
  split
  · exact .pure none
  · exact (onlyAdds_intern g _).bind fun _ => .pure _

end ItemTable

namespace ItemSet

/-- To add rules to a set only adds their first items. -/
theorem onlyAdds_addRules (g : Grammar) (set : ItemSet) (rules : List RuleId) :
    ItemM.OnlyAdds g (set.addRules g rules) :=
  .foldlM (fun _ _ => (ItemTable.onlyAdds_intern g _).bind fun _ => .pure _) rules set

/-- To expand a set by one of its items only adds first items of rules. -/
theorem onlyAdds_expand (g : Grammar) (closing : Closing) (id : ItemId) :
    ItemM.OnlyAdds g (closing.expand g id) := by
  refine (ItemTable.onlyAdds_item id).bind fun item => (OnlyAdds.lifted _).bind fun next => ?_
  split
  · split
    · exact .pure closing
    · refine (OnlyAdds.lifted _).bind fun rules => ?_
      exact (onlyAdds_addRules g _ rules).bind fun _ => .pure _
  · exact .pure closing

/-- Passes over a set only add items. -/
theorem onlyAdds_passes (g : Grammar) (fuel : Nat) (closing : Closing) :
    ItemM.OnlyAdds g (Closing.passes g fuel closing) := by
  induction fuel generalizing closing with
  | zero => exact .pure closing
  | succ fuel ih =>
    refine (OnlyAdds.foldlM (onlyAdds_expand g) _ closing).bind fun larger => ?_
    split
    · exact .pure larger
    · exact ih larger

/-- To close a set only adds items. -/
theorem onlyAdds_closure (g : Grammar) (set : ItemSet) : ItemM.OnlyAdds g (set.closure g) :=
  (onlyAdds_passes g _ _).bind fun _ => .pure _

/-- To add an advanced item to a kernel only adds the item. -/
theorem onlyAdds_addAdvanced (g : Grammar) (X : Symbol) (kernel : ItemSet) (id : ItemId) :
    ItemM.OnlyAdds g (addAdvanced g X kernel id) := by
  refine (ItemTable.onlyAdds_item id).bind fun item => (OnlyAdds.lifted _).bind fun next => ?_
  split
  · exact (ItemTable.onlyAdds_intern g _).bind fun _ => .pure _
  · exact .pure kernel

/-- To find the set that is reached on a symbol only adds items. -/
theorem onlyAdds_goto (g : Grammar) (set : ItemSet) (X : Symbol) :
    ItemM.OnlyAdds g (set.goto g X) := by
  refine (OnlyAdds.foldlM (onlyAdds_addAdvanced g X) _ empty).bind fun kernel => ?_
  split
  · exact .pure kernel
  · exact onlyAdds_closure g kernel

end ItemSet

namespace Nfa

/-- To add a state for an item only adds the item. -/
theorem onlyAdds_addState (g : Grammar) (bounds : Bounds) (nfa : Nfa) (item : Item) :
    ItemM.OnlyAdds g (nfa.addState g bounds item) :=
  (ItemTable.onlyAdds_intern g item).bind fun _ => (OnlyAdds.lifted _).bind fun _ => .pure _

/-- To connect a state to the state of an item only adds the item. -/
theorem onlyAdds_connect (g : Grammar) (bounds : Bounds) (source : Nat) (X : Symbol) (nfa : Nfa)
    (item : Item) : ItemM.OnlyAdds g (nfa.connect g bounds source X item) :=
  (ItemTable.onlyAdds_intern g item).bind fun _ => (OnlyAdds.lifted _).bind fun _ =>
    OnlyAdds.lifted _

/-- To connect a state to all states that it moves to only adds items. -/
theorem onlyAdds_connectAll (g : Grammar) (bounds : Bounds) (nfa : Nfa) (source : State × Nat) :
    ItemM.OnlyAdds g (nfa.connectAll g bounds source) := by
  refine (OnlyAdds.lifted _).bind fun next => ?_
  split
  · exact .pure nfa
  · refine (onlyAdds_connect g bounds _ _ nfa _).bind fun nfa => ?_
    split
    · refine (OnlyAdds.lifted _).bind fun rules => ?_
      exact .foldlM (fun nfa rule => onlyAdds_connect g bounds _ _ nfa _) rules nfa
    · exact .pure nfa

/-- To look for the start state adds nothing. -/
theorem onlyAdds_startState (nfa : Nfa) : ItemM.OnlyAdds g nfa.startState := by
  intro table
  unfold Ensures
  cases hfind : table.find? ⟨augmentedRule, 0⟩ with
  | some id =>
    have hrun : nfa.startState table = liftStep (nfa.stateOf id) table := by
      simp only [startState, hfind]
    have hstate : ItemM.OnlyAdds g (liftStep (nfa.stateOf id)) := .lifted _
    rw [hrun]
    exact hstate table
  | none =>
    simp only [startState, hfind]
    exact .refl

/-- To build the item automaton only adds items. -/
theorem onlyAdds_build (g : Grammar) (bounds : Bounds) : ItemM.OnlyAdds g (build g bounds) := by
  refine (OnlyAdds.foldlM (onlyAdds_addState g bounds) _ _).bind fun nfa => ?_
  exact (onlyAdds_startState nfa).bind fun start => .foldlM (onlyAdds_connectAll g bounds) _ _

end Nfa

namespace Dfa

/-- A step of the construction only adds items to the table. -/
abbrev GrowM.OnlyAdds (g : Grammar) (request : GrowM α) : Prop :=
  ShiftReduce.OnlyAdds Growth.items g request

/-- A request on the items of a growing automaton only adds items if it does so on the items alone.
-/
theorem GrowM.onlyAdds_onItems {request : ItemM α} (h : ItemM.OnlyAdds g request) :
    GrowM.OnlyAdds g (GrowM.onItems request) := by
  rintro ⟨items, states, edges⟩
  have hrun := h items
  unfold Ensures at hrun
  unfold Ensures GrowM.onItems
  cases hresult : request items with
  | ok a after =>
    simp only [hresult] at hrun ⊢
    exact hrun
  | error failure after =>
    simp only [hresult] at hrun ⊢
    exact hrun

namespace Growth

/-- To ask for the state of a set of items adds no items. -/
theorem onlyAdds_intern (g : Grammar) (bounds : Bounds) (set : ItemSet) :
    GrowM.OnlyAdds g (intern g bounds set) := by
  refine .get_bind fun growth => ?_
  split
  · exact .pure _
  · refine (OnlyAdds.lifted _).bind fun state => (OnlyAdds.lifted _).bind fun _ => ?_
    refine OnlyAdds.bind ?_ fun _ => .pure _
    exact .modify fun _ => rfl

/-- To expand a state on a symbol only adds items. -/
theorem onlyAdds_expandOn (g : Grammar) (bounds : Bounds) (source : StateId) (set : ItemSet)
    (X : Symbol) : GrowM.OnlyAdds g (expandOn g bounds source set X) := by
  refine (GrowM.onlyAdds_onItems (ItemSet.onlyAdds_goto g set X)).bind fun reached => ?_
  split
  · exact .pure _
  · refine (onlyAdds_intern g bounds reached).bind fun target => .get_bind fun growth => ?_
    exact (OnlyAdds.lifted _).bind fun _ => .modify fun _ => rfl

/-- To expand states only adds items. -/
theorem onlyAdds_expandFrom (g : Grammar) (bounds : Bounds) (fuel : Nat) (source : StateId) :
    GrowM.OnlyAdds g (expandFrom g bounds fuel source) := by
  induction fuel generalizing source with
  | zero => exact .pure _
  | succ fuel ih =>
    refine .get_bind fun growth => ?_
    split
    · exact .pure _
    · exact (OnlyAdds.forM (onlyAdds_expandOn g bounds source _) _).bind fun _ => ih (source + 1)

/-- To find the set of the start state only adds items. -/
theorem onlyAdds_startSet (g : Grammar) : ItemM.OnlyAdds g (startSet g) := by
  refine (OnlyAdds.lifted _).bind fun rules => ?_
  exact (ItemSet.onlyAdds_addRules g _ rules).bind fun kernel => ItemSet.onlyAdds_closure g kernel

/-- While an automaton grows, its table only gets items. -/
theorem onlyAdds_grow (g : Grammar) (bounds : Bounds) : GrowM.OnlyAdds g (grow g bounds) := by
  refine (GrowM.onlyAdds_onItems (onlyAdds_startSet g)).bind fun set => ?_
  exact (onlyAdds_intern g bounds set).bind fun start => onlyAdds_expandFrom g bounds _ start

end Growth

/-- To build the canonical collection only adds items. -/
theorem onlyAdds_build (g : Grammar) (bounds : Bounds) : ItemM.OnlyAdds g (build g bounds) := by
  intro items
  have hgrow := Growth.onlyAdds_grow g bounds { items }
  unfold Ensures at hgrow
  unfold Ensures build
  cases hrun : Growth.grow g bounds { items } with
  | ok _ growth =>
    simp only [hrun] at hgrow ⊢
    exact hgrow
  | error failure growth =>
    simp only [hrun] at hgrow ⊢
    exact hgrow

end Dfa

end Requests

/-- What can be asked of a table of items. -/
inductive ItemRequest where
  /-- The number of an item. -/
  | number (item : Item)
  /-- The number of the item with the dot one symbol further. -/
  | advance (id : ItemId)
  | closure (set : ItemSet)
  | goto (set : ItemSet) (symbol : Symbol)
  /-- The item automaton, with bounds of its own on states and transitions. -/
  | buildNfa (bounds : Bounds)
  /-- The canonical collection, with bounds of its own on states and transitions. -/
  | buildDfa (bounds : Bounds)
  deriving DecidableEq

namespace ItemRequest

/-- The item numbers that a request passes. -/
def ids : ItemRequest → List ItemId
  | .advance id => [id]
  | .closure set | .goto set _ => set.ids
  | _ => []

/-- Carries out a request, for what it does to the table. -/
def perform (g : Grammar) : ItemRequest → ItemM Unit
  | .number item => do let _ ← ItemTable.intern g item; return
  | .advance id => do let _ ← ItemTable.advance g id; return
  | .closure set => do let _ ← set.closure g; return
  | .goto set symbol => do let _ ← set.goto g symbol; return
  | .buildNfa bounds => do let _ ← Nfa.build g bounds; return
  | .buildDfa bounds => do let _ ← Dfa.build g bounds; return

/-- The table after a request, whether it succeeds or not. -/
def tableAfter (g : Grammar) (request : ItemRequest) (table : ItemTable) : ItemTable :=
  match request.perform g table with
  | .ok _ after => after
  | .error _ after => after

/-- Every request only adds items to the table. -/
theorem onlyAdds_perform (g : Grammar) (request : ItemRequest) :
    ItemM.OnlyAdds g (request.perform g) := by
  cases request with
  | number item => exact (ItemTable.onlyAdds_intern g item).bind fun _ => .pure _
  | advance id => exact (ItemTable.onlyAdds_advance g id).bind fun _ => .pure _
  | closure set => exact (ItemSet.onlyAdds_closure g set).bind fun _ => .pure _
  | goto set X => exact (ItemSet.onlyAdds_goto g set X).bind fun _ => .pure _
  | buildNfa bounds => exact (Nfa.onlyAdds_build g bounds).bind fun _ => .pure _
  | buildDfa bounds => exact (Dfa.onlyAdds_build g bounds).bind fun _ => .pure _

/-- A request extends the table, whether it succeeds or not. -/
theorem extends_tableAfter (g : Grammar) (request : ItemRequest) (table : ItemTable) :
    table.Extends g (request.tableAfter g table) := by
  have hrun := onlyAdds_perform g request table
  unfold Ensures at hrun
  unfold tableAfter
  cases hresult : request.perform g table with
  | ok _ after =>
    simp only [hresult] at hrun ⊢
    exact hrun
  | error failure after =>
    simp only [hresult] at hrun ⊢
    exact hrun

end ItemRequest

namespace ItemTable

variable {g : Grammar} {bounds : Bounds} {table last : ItemTable} {requests : List ItemRequest}
  {item : Item} {id : ItemId}

/-- The table after requests, one after the other, whatever becomes of each of them. -/
def afterAll (g : Grammar) (requests : List ItemRequest) (table : ItemTable) : ItemTable :=
  requests.foldl (fun table request => request.tableAfter g table) table

/-- Requests extend the table, whatever becomes of each of them. -/
theorem extends_afterAll (g : Grammar) (requests : List ItemRequest) (table : ItemTable) :
    table.Extends g (table.afterAll g requests) := by
  induction requests generalizing table with
  | nil => exact .refl
  | cons request requests ih =>
    exact (ItemRequest.extends_tableAfter g request table).trans (ih (request.tableAfter g table))

/-- Requests on a table, one after the other, and the table in the end. A request passes only
numbers that the table has at this time. -/
inductive History (g : Grammar) : ItemTable → List ItemRequest → ItemTable → Prop
  | nil (table : ItemTable) : History g table [] table
  | cons {table last : ItemTable} {request : ItemRequest} {requests : List ItemRequest} :
      (∀ id ∈ request.ids, id < table.size) →
      History g (request.tableAfter g table) requests last →
      History g table (request :: requests) last

/-- The table after a history is the one after its requests. -/
theorem History.eq_afterAll (h : History g table requests last) :
    last = table.afterAll g requests := by
  induction h with
  | nil => rfl
  | cons _ _ ih => exact ih

/-- A history extends the table. -/
theorem History.extends (h : History g table requests last) : table.Extends g last := by
  rw [h.eq_afterAll]
  exact extends_afterAll g requests table

/-- A table without items fits any bounds. -/
theorem fits_empty (bounds : Bounds) : (empty bounds).Fits := fun _ _ => Nat.zero_le _

/-- Whatever was asked of a table that was empty at first, it is valid. -/
theorem History.valid (h : History g (empty bounds) requests table) : table.Valid g :=
  (h.extends.grows (valid_empty g bounds)).valid

/-- In a valid table the two look-ups are inverse to each other. -/
theorem Valid.find?_eq_some_iff (h : table.Valid g) :
    table.find? item = some id ↔ id < table.size ∧ table.get id = .ok item := by
  rw [get, entry_eq_ok]
  constructor
  · intro hfind
    have hid := getElem?_of_find? hfind
    exact ⟨(Array.getElem?_eq_some_iff.1 hid).1, hid⟩
  · rintro ⟨-, hid⟩
    exact h.find?_eq hid

/-- To advance an item of the table gives the number of its advanced form, or nothing if the dot is
at the end. -/
theorem advance_meets (hvalid : table.Valid g) (hid : table.items[id]? = some item) :
    ItemM.Meets g bounds (advance g id) table fun next after =>
      (next = none ↔ item.Complete g) ∧
        ∀ k, next = some k → after.items[k]? = some item.advance := by
  have hin := hvalid.in_of_getElem? hid
  obtain ⟨done, hdone, hcomplete⟩ := hin.isReduction_eq
  refine (ItemM.item_meets hvalid hid).bind ?_
  rintro item table - ⟨rfl, rfl⟩
  refine Meets.liftStep_bind hdone ?_
  cases done with
  | true => exact .pure hvalid ⟨by simpa using hcomplete, by simp⟩
  | false =>
    have hopen : ¬ item.Complete g := fun hend => Bool.false_ne_true (hcomplete.2 hend)
    obtain ⟨X, hX⟩ : ∃ X, item.Awaits g X := by
      by_contra hnone
      exact hopen (hin.complete_iff.2 fun X hX => hnone ⟨X, hX⟩)
    refine (ItemM.intern_meets hvalid hX.advance_in).bind fun k after hgrows hk => ?_
    refine .pure hgrows.valid ⟨by simpa using hopen, ?_⟩
    rintro _ ⟨⟩
    exact hk

end ItemTable

/-- A request that meets its description fails only because a store is full. -/
theorem Meets.ensures_full {σ α : Type} {items : σ → ItemTable} {g : Grammar} {bounds : Bounds}
    {request : EStateM Failure σ α} {state : σ} {good : α → σ → Prop}
    (h : Meets items g bounds request state good) :
    Ensures request state (fun _ _ => True)
      (fun failure _ => ∃ store bound, failure = .full store bound) := by
  refine Ensures.mono h (fun _ _ _ => trivial) ?_
  rintro failure _ ⟨-, ⟨store, bound, -, hfull⟩ | ⟨store, bound, -, hfull⟩⟩
  · exact ⟨store, bound, hfull⟩
  · exact ⟨store, bound, hfull⟩

namespace ItemRequest

variable {g : Grammar} {table : ItemTable} {request : ItemRequest}

/-- A request that passes numbers of the table fails only because a store is full, or because the
grammar does not have the item whose number is asked for. -/
theorem perform_ensures (hg : g.WellFormed) (hvalid : table.Valid g)
    (hids : ∀ id ∈ request.ids, id < table.size) :
    Ensures (request.perform g) table (fun _ _ => True) (fun failure after =>
      ((∃ cause, failure = .mismatch cause) ∨ ∃ store bound, failure = .full store bound) ∧
        ∀ item, request = .number item → after = table) := by
  have hfull {α : Type} {run : ItemM α} (hother : ∀ item, request ≠ .number item)
      (h : Ensures run table (fun _ _ => True)
        (fun failure _ => ∃ store bound, failure = .full store bound)) :
      Ensures (run >>= fun _ => pure ()) table (fun _ _ => True) (fun failure after =>
        ((∃ cause, failure = .mismatch cause) ∨ ∃ store bound, failure = .full store bound) ∧
          ∀ item, request = .number item → after = table) := by
    refine Ensures.bind (h.mono (fun _ _ hgood => hgood) fun _ _ hbad => ⟨.inr hbad, ?_⟩)
      fun _ _ _ => .pure trivial
    exact fun item heq => absurd heq (hother item)
  cases request with
  | number item =>
    refine Ensures.bind ((ItemTable.intern_cases g item table).mono (fun _ _ hgood => hgood) ?_)
      fun _ _ _ => .pure trivial
    rintro failure _ ⟨rfl, hadd⟩
    refine ⟨?_, fun _ _ => rfl⟩
    rcases ItemTable.of_add_error hadd with hmismatch | ⟨store, bound, -, hfull⟩
    · exact .inl ⟨_, hmismatch⟩
    · exact .inr ⟨store, bound, hfull⟩
  | advance id =>
    have hid : table.items[id]? = some _ :=
      Array.getElem?_eq_getElem (hids id (List.mem_singleton.2 rfl))
    have hmeets : ItemM.Meets g table.bounds _ table _ := ItemTable.advance_meets hvalid hid
    exact hfull nofun hmeets.ensures_full
  | closure set =>
    have hmeets : ItemM.Meets g table.bounds _ table _ :=
      ItemSet.closure_meets hg.toCrossReferenced hvalid hids
    exact hfull nofun hmeets.ensures_full
  | goto set X =>
    have hmeets : ItemM.Meets g table.bounds (set.goto g X) table _ :=
      ItemSet.goto_meets hg.toCrossReferenced hvalid hids
    exact hfull nofun hmeets.ensures_full
  | buildNfa bounds => exact hfull nofun (Nfa.build_meets hg.toLinked hvalid).ensures_full
  | buildDfa bounds => exact hfull nofun (Dfa.build_meets hg hvalid).ensures_full

end ItemRequest

namespace ItemTable

/-- For a grammar that was read, take any sequence of requests on a table that was empty at first,
with any bounds. In the table in the end, the two look-ups are inverse to each other, no item stands
twice, all items belong to the grammar, and there are not more of them than the bound. A further
request keeps the items and their numbers, also if it fails, and it fails only because a store is
full or because the grammar does not have an item. To ask for the number of one item adds nothing
if it fails. -/
theorem history_bijective {options : ReadOptions} {tokens : List Token} {g : Grammar}
    {bounds : Bounds} {requests : List ItemRequest} {table : ItemTable}
    (hread : Grammar.ofTokens options tokens = .ok g)
    (hhistory : History g (empty bounds) requests table) :
    (∀ item id, table.find? item = some id ↔ id < table.size ∧ table.get id = .ok item) ∧
    table.items.toList.Nodup ∧
    (∀ item ∈ table.items, ∃ rule, g.rules[item.rule]? = some rule ∧ item.dot ≤ rule.length) ∧
    (∀ bound, bounds.items = some bound → table.size ≤ bound) ∧
    ∀ request : ItemRequest, (∀ id ∈ request.ids, id < table.size) →
      Ensures (request.perform g) table
        (fun _ after => table.items.toList <+: after.items.toList)
        (fun failure after => table.items.toList <+: after.items.toList ∧
          ((∃ cause, failure = .mismatch cause) ∨ ∃ store bound, failure = .full store bound) ∧
          ∀ item, request = .number item → after = table) := by
  have hg := Grammar.wellFormed_ofTokens hread
  have hvalid := hhistory.valid
  have hgrows := hhistory.extends.grows (valid_empty g bounds)
  refine ⟨fun _ _ => hvalid.find?_eq_some_iff, hvalid.nodup, hvalid.items_in,
    fun bound hbound => ?_, fun request hids => ?_⟩
  · refine hhistory.extends.fits (fits_empty bounds) bound ?_
    rw [hgrows.bounds_eq]
    exact hbound
  · refine ((ItemRequest.onlyAdds_perform g request table).and
      (request.perform_ensures hg hvalid hids)).mono ?_ ?_
    · rintro _ after ⟨hextends, -⟩
      exact (hextends.grows hvalid).keeps
    · rintro failure after ⟨hextends, hfailure, hsame⟩
      exact ⟨(hextends.grows hvalid).keeps, hfailure, hsame⟩

/-- For the rules `S -> 'a' S |` and a table with room for three items: two requests succeed, one
asks for an item of a rule that does not exist, and one fails in the middle because the table is
full. The table then has three items, and finds them under their numbers. -/
theorem history_bijective_of_full_table : ∃ g table,
    Grammar.ofSource {} "S -> 'a' S | ;" = .ok g ∧
    History g (empty { items := some 3 })
      [.number ⟨1, 1⟩, .number ⟨7, 0⟩, .advance 0, .buildDfa .unbounded] table ∧
    table.items = #[⟨1, 1⟩, ⟨1, 2⟩, ⟨0, 0⟩] ∧ table.size ≤ 3 ∧
    ∀ item id, table.find? item = some id ↔ id < table.size ∧ table.get id = .ok item := by
  have hsource : (Grammar.ofSource {} "S -> 'a' S | ;").toOption.map (fun g =>
      let first := (ItemRequest.number ⟨1, 1⟩).tableAfter g (empty { items := some 3 })
      let second := (ItemRequest.number ⟨7, 0⟩).tableAfter g first
      let third := (ItemRequest.advance 0).tableAfter g second
      (second.size, ((ItemRequest.buildDfa .unbounded).tableAfter g third).items)) =
      some (1, #[⟨1, 1⟩, ⟨1, 2⟩, ⟨0, 0⟩]) := by
    decide +kernel
  obtain ⟨g, hok, hparts⟩ := Option.map_eq_some_iff.1 hsource
  obtain ⟨hsize, hitems⟩ := Prod.mk.inj hparts
  have hread := eq_ok_of_toOption hok
  have hrun : ∃ table, History g (empty { items := some 3 })
      [.number ⟨1, 1⟩, .number ⟨7, 0⟩, .advance 0, .buildDfa .unbounded] table ∧
      table.items = #[⟨1, 1⟩, ⟨1, 2⟩, ⟨0, 0⟩] := by
    refine ⟨_, .cons (by simp [ItemRequest.ids]) (.cons (by simp [ItemRequest.ids]) (.cons ?_
      (.cons (by simp [ItemRequest.ids]) (.nil _)))), hitems⟩
    intro id hid
    rw [List.mem_singleton.1 hid, hsize]
    exact Nat.zero_lt_one
  obtain ⟨table, hhistory, hitems⟩ := hrun
  obtain ⟨hfind, -, -, hbound, -⟩ := history_bijective hread hhistory
  exact ⟨g, table, hread, hhistory, hitems, hbound 3 rfl, hfind⟩

end ItemTable

end ShiftReduce
