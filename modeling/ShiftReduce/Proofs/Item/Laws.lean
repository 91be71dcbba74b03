import Mathlib.Order.Bounds.Basic
import ShiftReduce.Proofs.Item.Closure

/-!
# Laws of closure and goto

Sets of item numbers are closed and moved by requests that add items to a table, so results can be
compared only by the items that they stand for. Read in this way, the closure of a set is the least
closed set above it, and closure and goto preserve inclusions and unions. The passes that find a
closure end by themselves, whatever number of them is allowed beyond the number of non-terminals.
-/

namespace ShiftReduce

namespace Grammar

variable {g : Grammar} {first second : Set Item} {X : Symbol}

/-- The closed sets above a set of items. -/
def closedAbove (g : Grammar) (set : Set Item) : Set (Set Item) :=
  { larger | set ⊆ larger ∧ g.Closed larger }

/-- The closure is the least closed set with the given items. -/
theorem isLeast_closure (g : Grammar) (set : Set Item) :
    IsLeast (g.closedAbove set) (g.closure set) :=
  ⟨⟨subset_closure g set, closed_closure g set⟩, fun _ h => closure_subset h.1 h.2⟩

/-- More items have a larger closure. -/
theorem closure_mono (h : first ⊆ second) : g.closure first ⊆ g.closure second :=
  closure_subset (h.trans (subset_closure g second)) (closed_closure g second)

/-- Two closed sets together are closed, because a rule is asked for by one item. -/
theorem Closed.union (hfirst : g.Closed first) (hsecond : g.Closed second) :
    g.Closed (first ∪ second) := by
  rintro item (hitem | hitem) n hawaits id hheads
  · exact .inl (hfirst item hitem n hawaits id hheads)
  · exact .inr (hsecond item hitem n hawaits id hheads)

/-- The closure of a union is the union of the closures. -/
theorem closure_union (g : Grammar) (first second : Set Item) :
    g.closure (first ∪ second) = g.closure first ∪ g.closure second := by
  apply Set.Subset.antisymm
  · refine closure_subset ?_ ((closed_closure g first).union (closed_closure g second))
    exact Set.union_subset_union (subset_closure g first) (subset_closure g second)
  · exact Set.union_subset (closure_mono Set.subset_union_left)
      (closure_mono Set.subset_union_right)

/-- The advanced items of a union are those of its parts. -/
theorem advanced_union (g : Grammar) (first second : Set Item) (X : Symbol) :
    g.advanced (first ∪ second) X = g.advanced first X ∪ g.advanced second X := by
  ext item
  simp only [advanced, Set.mem_ofPred_eq, Set.mem_union, or_and_right, exists_or]

/-- A union moves to the union of what its parts move to. -/
theorem goto_union (g : Grammar) (first second : Set Item) (X : Symbol) :
    g.goto (first ∪ second) X = g.goto first X ∪ g.goto second X := by
  rw [goto, advanced_union, closure_union]
  rfl

end Grammar

namespace ItemSet

variable {g : Grammar} {table : ItemTable} {set first second : ItemSet} {X : Symbol}

/-- The set with the numbers of two sets. -/
def union (first second : ItemSet) : ItemSet := second.ids.foldl insert first

/-- A set after insertions has what it had and what was inserted. -/
theorem mem_foldl_insert {ids : List ItemId} {id : ItemId} :
    id ∈ (ids.foldl insert set).ids ↔ id ∈ set.ids ∨ id ∈ ids := by
  induction ids generalizing set with
  | nil => simp
  | cons k ids ih =>
    rw [List.foldl_cons, ih, mem_insert, List.mem_cons]
    tauto

/-- A union has the numbers of both sets. -/
theorem mem_union {id : ItemId} :
    id ∈ (first.union second).ids ↔ id ∈ first.ids ∨ id ∈ second.ids :=
  mem_foldl_insert

/-- A union of numbers of a table has numbers of the table. -/
theorem Within.union (hfirst : first.Within table) (hsecond : second.Within table) :
    (first.union second).Within table := by
  intro id hid
  rcases mem_union.1 hid with hid | hid
  · exact hfirst id hid
  · exact hsecond id hid

/-- The union of two sets of numbers stands for the items of both. -/
theorem items_union (table : ItemTable) (first second : ItemSet) :
    (first.union second).items table = first.items table ∪ second.items table := by
  ext item
  simp only [items, Set.mem_ofPred_eq, Set.mem_union, mem_union, or_and_right, exists_or]

/-- The items that the result of a request stands for, in the table that the request leaves. A
request that fails has no result. -/
def resultItems : EStateM.Result Failure ItemTable ItemSet → Set Item
  | .ok set after => set.items after
  | .error _ _ => ∅

/-- The items that the closure of a set stands for. -/
def closureItems (g : Grammar) (table : ItemTable) (set : ItemSet) : Set Item :=
  resultItems (set.closure g table)

/-- The items that are reached from a set on a symbol. -/
def gotoItems (g : Grammar) (table : ItemTable) (set : ItemSet) (X : Symbol) : Set Item :=
  resultItems (set.goto g X table)

/-- The number of allowed passes does not matter if it is larger than the number of non-terminals.
The passes end before, with one that expands no further non-terminal. -/
theorem Closing.passes_eq {kernel : Set Item} {closing : Closing} {fuel fuel' : Nat}
    (hg : g.CrossReferenced) (hvalid : table.Valid g) (hclosing : closing.Sound g kernel table)
    (hfuel : g.nonterminals.size < fuel + closing.done.length)
    (hfuel' : g.nonterminals.size < fuel' + closing.done.length) :
    Closing.passes g fuel closing table = Closing.passes g fuel' closing table := by
  have hle := hclosing.length_done_le
  induction fuel generalizing fuel' closing table with
  | zero => omega
  | succ fuel ih =>
    cases fuel' with
    | zero => omega
    | succ fuel' =>
      simp only [Closing.passes, Bind.bind, EStateM.bind]
      cases hpass : closing.pass g table with
      | error failure after => rfl
      | ok larger after =>
        have hmeets : ItemM.Meets g .unbounded (closing.pass g) table _ :=
          Closing.pass_meets hg hvalid hclosing
        obtain ⟨hgrows, hsound, hfollows, -⟩ := hmeets.of_ok hpass
        dsimp only
        split
        · rfl
        · have hlonger := hfollows.done_suffix.length_le
          exact ih hgrows.valid hsound (by omega) (by omega) hsound.length_done_le

/-- What holds of the closures of the sets of numbers of a table. -/
structure ClosureLaws (g : Grammar) (table : ItemTable) : Prop where
  /-- The closure of a set is found, and the table only grows. -/
  found : ∀ set : ItemSet, set.Within table → ∃ closed after,
    set.closure g table = .ok closed after ∧ table.Grows g after ∧ closed.Within after
  /-- Passes end by themselves. -/
  ends : ∀ set : ItemSet, set.Within table → ∀ fuel, g.nonterminals.size < fuel →
    Closing.passes g fuel { set } table = Closing.passes g (g.nonterminals.size + 1) { set } table
  least : ∀ set : ItemSet, set.Within table →
    IsLeast (g.closedAbove (set.items table)) (set.closureItems g table)
  mono : ∀ first second : ItemSet, first.Within table → second.Within table →
    first.items table ⊆ second.items table →
    first.closureItems g table ⊆ second.closureItems g table
  /-- A closure is its own closure. -/
  idempotent : ∀ set : ItemSet, set.Within table → ∀ closed after,
    set.closure g table = .ok closed after → ∃ later, closed.closure g after = .ok closed later
  union : ∀ first second : ItemSet, first.Within table → second.Within table →
    (first.union second).closureItems g table =
      first.closureItems g table ∪ second.closureItems g table
  /-- Items that other requests add in the meantime make no difference. -/
  stable : ∀ set : ItemSet, set.Within table → ∀ after, table.Grows g after →
    set.closureItems g after = set.closureItems g table

/-- What holds of the moves of the sets of numbers of a table on a symbol. -/
structure GotoLaws (g : Grammar) (table : ItemTable) (X : Symbol) : Prop where
  /-- The move is found. It is empty if no item waits for the symbol, and the set itself keeps its
  items. -/
  found : ∀ set : ItemSet, set.Within table → ∃ reached after,
    set.goto g X table = .ok reached after ∧ table.Grows g after ∧ reached.Within after ∧
      (reached.isEmpty = true ↔ ∀ item ∈ set.items table, ¬ item.Awaits g X) ∧
      set.items after = set.items table
  /-- The move is the closure of the advanced items. -/
  least : ∀ set : ItemSet, set.Within table →
    IsLeast (g.closedAbove (g.advanced (set.items table) X)) (set.gotoItems g table X)
  union : ∀ first second : ItemSet, first.Within table → second.Within table →
    (first.union second).gotoItems g table X =
      first.gotoItems g table X ∪ second.gotoItems g table X
  /-- Items that other requests add in the meantime make no difference. -/
  stable : ∀ set : ItemSet, set.Within table → ∀ after, table.Grows g after →
    set.gotoItems g after X = set.gotoItems g table X

section Unbounded

variable (hg : g.CrossReferenced) (hvalid : table.Valid g) (hbounds : table.bounds = .unbounded)

include hg hvalid hbounds

/-- The closure of a set of numbers is found. -/
theorem exists_closure (hset : set.Within table) :
    ∃ closed after, set.closure g table = .ok closed after ∧ table.Grows g after ∧
      closed.Within after ∧ closed.items after = g.closure (set.items table) :=
  (closure_meets hg hvalid hset).exists_ok hbounds

/-- The items of the closure that is found are those of the closure. -/
theorem closureItems_eq (hset : set.Within table) :
    set.closureItems g table = g.closure (set.items table) := by
  obtain ⟨closed, after, hclosed, -, -, hitems⟩ := exists_closure hg hvalid hbounds hset
  rw [closureItems, hclosed]
  exact hitems

/-- The move of a set of numbers is found. -/
theorem exists_goto (X : Symbol) (hset : set.Within table) :
    ∃ reached after, set.goto g X table = .ok reached after ∧ table.Grows g after ∧
      reached.Within after ∧ reached.items after = g.goto (set.items table) X :=
  (goto_meets hg hvalid hset).exists_ok hbounds

/-- The items of the set that is reached are those that goto gives. -/
theorem gotoItems_eq (X : Symbol) (hset : set.Within table) :
    set.gotoItems g table X = g.goto (set.items table) X := by
  obtain ⟨reached, after, hreached, -, -, hitems⟩ := exists_goto hg hvalid hbounds X hset
  rw [gotoItems, hreached]
  exact hitems

/-- To close a closure gives the same numbers, since they stand for a closed set of items. -/
theorem exists_closure_of_closure {closed : ItemSet} {after : ItemTable} (hset : set.Within table)
    (hclosed : set.closure g table = .ok closed after) :
    ∃ later, closed.closure g after = .ok closed later := by
  obtain ⟨_, _, hrun, hgrows, hwithin, hitems⟩ := exists_closure hg hvalid hbounds hset
  obtain ⟨rfl, rfl⟩ := EStateM.Result.ok.inj (hclosed.symm.trans hrun)
  obtain ⟨again, later, hagain, hlater, hwithin', hitems'⟩ :=
    exists_closure hg hgrows.valid (hgrows.bounds_eq.trans hbounds) hwithin
  have hsame : again.items later = closed.items later := by
    rw [hitems', hwithin.items_eq hlater, hitems]
    exact (Grammar.closed_closure g _).closure_eq
  obtain rfl := eq_of_items_eq hlater.valid hwithin' (hwithin.mono hlater) hsame
  exact ⟨later, hagain⟩

/-- The closure that is found obeys the laws of closures. -/
theorem closureLaws : ClosureLaws g table where
  found set hset := by
    obtain ⟨closed, after, hclosed, hgrows, hwithin, -⟩ := exists_closure hg hvalid hbounds hset
    exact ⟨closed, after, hclosed, hgrows, hwithin⟩
  ends set hset fuel hfuel :=
    Closing.passes_eq hg hvalid (.start hset) hfuel (Nat.lt_succ_self _)
  least set hset := by
    rw [closureItems_eq hg hvalid hbounds hset]
    exact Grammar.isLeast_closure g _
  mono first second hfirst hsecond hsubset := by
    rw [closureItems_eq hg hvalid hbounds hfirst, closureItems_eq hg hvalid hbounds hsecond]
    exact Grammar.closure_mono hsubset
  idempotent set hset closed after hclosed :=
    exists_closure_of_closure hg hvalid hbounds hset hclosed
  union first second hfirst hsecond := by
    rw [closureItems_eq hg hvalid hbounds hfirst, closureItems_eq hg hvalid hbounds hsecond,
      closureItems_eq hg hvalid hbounds (hfirst.union hsecond), items_union,
      Grammar.closure_union]
  stable set hset after hgrows := by
    rw [closureItems_eq hg hgrows.valid (hgrows.bounds_eq.trans hbounds) (hset.mono hgrows),
      closureItems_eq hg hvalid hbounds hset, hset.items_eq hgrows]

/-- The set that is reached on a symbol obeys the laws of goto. -/
theorem gotoLaws (X : Symbol) : GotoLaws g table X where
  found set hset := by
    obtain ⟨reached, after, hreached, hgrows, hwithin, hitems⟩ :=
      exists_goto hg hvalid hbounds X hset
    refine ⟨reached, after, hreached, hgrows, hwithin, ?_, hset.items_eq hgrows⟩
    rw [isEmpty_iff hwithin, hitems, Grammar.goto_eq_empty_iff]
  least set hset := by
    rw [gotoItems_eq hg hvalid hbounds X hset]
    exact Grammar.isLeast_closure g _
  union first second hfirst hsecond := by
    rw [gotoItems_eq hg hvalid hbounds X hfirst, gotoItems_eq hg hvalid hbounds X hsecond,
      gotoItems_eq hg hvalid hbounds X (hfirst.union hsecond), items_union, Grammar.goto_union]
  stable set hset after hgrows := by
    rw [gotoItems_eq hg hgrows.valid (hgrows.bounds_eq.trans hbounds) X (hset.mono hgrows),
      gotoItems_eq hg hvalid hbounds X hset, hset.items_eq hgrows]

end Unbounded

/-- For a grammar that was read and a table of some of its items without bounds, the closure of a
set of numbers is found in finitely many passes and stands for the least closed set of items above
it. Closures preserve inclusions and unions and are closed themselves. Goto is the closure of the
items that wait for the symbol, advanced, and preserves unions. Neither depends on what else the
table has. -/
theorem closure_and_goto_laws {options : ReadOptions} {tokens : List Token}
    (hread : Grammar.ofTokens options tokens = .ok g) (hvalid : table.Valid g)
    (hbounds : table.bounds = .unbounded) :
    ClosureLaws g table ∧ ∀ X, GotoLaws g table X := by
  have hg := (Grammar.wellFormed_ofTokens hread).toCrossReferenced
  exact ⟨closureLaws hg hvalid hbounds, gotoLaws hg hvalid hbounds⟩

/-- For the rules `S -> A | 'a'` and `A -> S 'b'`, which ask for each other, and a table that has
the items `A -> . S 'b'` and `S -> 'a' .` already: the first item asks for the two rules of `S`,
whose items are new, and the laws hold. -/
theorem closure_and_goto_laws_of_mutual_recursion :
    ∃ g, Grammar.ofSource {} "S -> A | 'a' ; A -> S 'b' ;" = .ok g ∧
      let table : ItemTable := { items := #[⟨3, 0⟩, ⟨2, 1⟩] }
      (ofList [0]).closure g table =
        .ok (ofList [0, 2, 3]) { items := #[⟨3, 0⟩, ⟨2, 1⟩, ⟨1, 0⟩, ⟨2, 0⟩] } ∧
      ClosureLaws g table ∧ ∀ X, GotoLaws g table X := by
  have hsource : (Grammar.ofSource {} "S -> A | 'a' ; A -> S 'b' ;").toOption.map (fun g =>
      (g.rules[3]?, g.rules[2]?,
        (outcome ((ofList [0]).closure g { items := #[⟨3, 0⟩, ⟨2, 1⟩] })).toOption)) =
      some (some ⟨2, [.nonterminal 1, .terminal 1]⟩, some ⟨1, [.terminal 0]⟩,
        some (ofList [0, 2, 3], { items := #[⟨3, 0⟩, ⟨2, 1⟩, ⟨1, 0⟩, ⟨2, 0⟩] })) := by
    decide +kernel
  obtain ⟨g, hok, hparts⟩ := Option.map_eq_some_iff.1 hsource
  simp only [Prod.mk.injEq] at hparts
  obtain ⟨hthird, hsecond, hclosure⟩ := hparts
  have hread := eq_ok_of_toOption hok
  have hvalid : ItemTable.Valid g { items := #[⟨3, 0⟩, ⟨2, 1⟩] } := by
    refine ⟨by decide, fun item hitem => ?_⟩
    simp only [List.mem_toArray, List.mem_cons, List.not_mem_nil, or_false] at hitem
    rcases hitem with rfl | rfl
    · exact ⟨_, hthird, by decide⟩
    · exact ⟨_, hsecond, by decide⟩
  exact ⟨g, hread, outcome_eq_ok.1 (eq_ok_of_toOption hclosure),
    closure_and_goto_laws hread hvalid rfl⟩

end ItemSet

end ShiftReduce
