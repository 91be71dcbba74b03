import ShiftReduce.Proofs.Dfa.Moves
import ShiftReduce.Proofs.Item.Rounds

/-!
# The construction of the canonical collection ends

The states of the canonical collection are expanded one after the other, and to expand one may add
others. There is no bound on the rounds of this loop but the number of states at the time. It ends
all the same, since no set of items gets two states and none is empty: a grammar with `n` items has
less than `2 ^ n` such sets. Every state has at most one transition on a symbol, which bounds the
transitions.
-/

namespace ShiftReduce

namespace Grammar

variable {g : Grammar}

/-- How many items a grammar has. -/
def itemCount (g : Grammar) : Nat := (g.rules.toList.map fun rule => rule.length + 1).sum

/-- A rule has an item for each place of the dot. -/
theorem length_allItems (g : Grammar) : g.allItems.length = g.itemCount := by
  have hrules : g.rules.toList.zipIdx.map (fun numbered => numbered.1.length + 1) =
      g.rules.toList.map fun rule => rule.length + 1 := by
    conv_rhs => rw [← List.zipIdx_map_fst 0 g.rules.toList]
    rw [List.map_map]
    rfl
  simp [allItems, itemCount, List.length_flatMap, hrules]

/-- The symbols that stand in bodies of rules. -/
def mentioned (g : Grammar) : Finset Symbol := (g.rules.toList.flatMap (·.body)).toFinset

/-- A symbol that an item waits for stands in a body. -/
theorem mem_mentioned_of_awaits {item : Item} {X : Symbol} (h : item.Awaits g X) :
    X ∈ g.mentioned := by
  obtain ⟨rule, hrule, hX⟩ := h
  simp only [mentioned, List.mem_toFinset, List.mem_flatMap, Array.mem_toList_iff]
  exact ⟨rule, Array.mem_of_getElem? hrule, List.mem_of_getElem? hX⟩

/-- There are not more symbols in bodies than the grammar has symbols, with the end of input. -/
theorem CrossReferenced.card_mentioned_le (hg : g.CrossReferenced) :
    g.mentioned.card ≤ g.columns.length := by
  have hsubset : g.mentioned ⊆ g.columns.toFinset := by
    intro X hX
    simp only [mentioned, List.mem_toFinset, List.mem_flatMap, Array.mem_toList_iff] at hX ⊢
    obtain ⟨rule, hrule, hX⟩ := hX
    obtain ⟨id, hid⟩ := Array.mem_iff_getElem?.1 hrule
    exact hg.body_columns hid X hX
  exact (Finset.card_le_card hsubset).trans (List.toFinset_card_le _)

end Grammar

namespace Dfa

variable {g : Grammar} {bounds : Bounds} {table : ItemTable} {dfa : Dfa}

namespace Consistent

/-- A state that a transition enters has items. -/
theorem items_ne_empty {s : StateId} {state : State} (h : dfa.Consistent g table)
    (hentered : ∀ s : Nat, start < s → s < dfa.states.size → ∃ edge ∈ dfa.edges,
      edge.target = s ∧ edge.source < s)
    (hstate : dfa.states[s]? = some state) : state.items ≠ .empty := by
  suffices hnonempty : (state.items.items table).Nonempty by
    intro hempty
    rw [hempty, ItemSet.items_empty] at hnonempty
    exact Set.not_nonempty_empty hnonempty
  by_cases hstart : s = start
  · subst hstart
    rw [h.start_eq hstate]
    exact ⟨_, Grammar.subset_closure g _ rfl⟩
  · obtain ⟨edge, hedge, rfl, -⟩ := hentered s (Nat.pos_of_ne_zero hstart)
      (Array.getElem?_eq_some_iff.1 hstate).1
    obtain ⟨a, b, ha, hb, hnext, hgoto⟩ := h.edge_goto edge hedge
    obtain rfl := Option.some.inj (hstate.symm.trans hb)
    rw [hgoto, Grammar.goto_nonempty_iff]
    exact (h.mem_next ha).1 hnext

/-- There are fewer states than sets of items, because the empty set is none of them. -/
theorem size_lt (h : dfa.Consistent g table) (hpos : 0 < dfa.states.size)
    (hentered : ∀ s : Nat, start < s → s < dfa.states.size → ∃ edge ∈ dfa.edges,
      edge.target = s ∧ edge.source < s) : dfa.states.size < 2 ^ g.itemCount := by
  -- There is room for one more state, the one without items.
  have hmore : Consistent g table { dfa with states := dfa.states.push ⟨.empty, [], 0⟩ } := by
    refine h.addState (ItemSet.within_empty table) rfl (fun s old hs => ?_) fun hnone => ?_
    · exact h.items_ne_empty hentered hs
    · rw [hnone] at hpos
      exact absurd hpos (Nat.lt_irrefl 0)
  have hle := hmore.size_le
  rw [Grammar.length_allItems, Array.size_push] at hle
  exact hle

/-- There are not more transitions than pairs of a state and a symbol. -/
theorem size_edges_le (h : dfa.Consistent g table) :
    dfa.edges.size ≤ dfa.states.size * g.mentioned.card := by
  have hnodup : (dfa.edges.toList.map fun edge => (edge.source, edge.symbol)).Nodup := by
    rw [List.Nodup, List.pairwise_map]
    refine h.edge_unique.imp fun {edge edge'} hdiffers heq => hdiffers ?_
    exact Prod.mk.inj heq
  have hsubset : (dfa.edges.toList.map fun edge => (edge.source, edge.symbol)).toFinset ⊆
      Finset.range dfa.states.size ×ˢ g.mentioned := by
    intro pair hpair
    obtain ⟨edge, hedge, rfl⟩ := List.mem_map.1 (List.mem_toFinset.1 hpair)
    obtain ⟨a, -, ha, -, hnext, -⟩ := h.edge_goto edge (Array.mem_toList_iff.1 hedge)
    obtain ⟨item, -, hawaits⟩ := (h.mem_next ha).1 hnext
    rw [Finset.mem_product, Finset.mem_range]
    exact ⟨(Array.getElem?_eq_some_iff.1 ha).1, Grammar.mem_mentioned_of_awaits hawaits⟩
  have hcard := Finset.card_le_card hsubset
  rw [List.toFinset_card_of_nodup hnodup, Finset.card_product, Finset.card_range] at hcard
  simpa using hcard

end Consistent

namespace Growth

variable {growth : Growth} {source fuel : Nat}

/-- One round of the loop that expands states. It is the last one if there is no state left. -/
def round (g : Grammar) (bounds : Bounds) (source : StateId) : GrowM (ForInStep StateId) := do
  match (← get).states[source]? with
  | none => return .done source
  | some state =>
    state.next.forM (expandOn g bounds source state.items)
    return .yield (source + 1)

/-- The start state, before any state is expanded. -/
def first (g : Grammar) (bounds : Bounds) : GrowM StateId := do
  let set ← GrowM.onItems (startSet g)
  intern g bounds set

/-- What is left of the construction when it has ended. -/
def finish {α : Type} : EStateM.Result Failure Growth α → EStateM.Result Failure ItemTable Dfa
  | .ok _ growth => .ok (ofGrowth growth) growth.items
  | .error failure growth => .error failure growth.items

/-- The loop runs beside the bounded one, which is never stopped by its bound. -/
theorem expandFrom_loops (hg : g.CrossReferenced)
    (h : Consistent g growth.items (ofGrowth growth)) (hfrontier : growth.Frontier source [])
    (hpos : 0 < growth.states.size) (hsource : source ≤ growth.states.size)
    (hfuel : 2 ^ g.itemCount ≤ source + fuel) :
    ∃ count ≤ fuel, ∃ result, Loops (round g bounds) source growth count result ∧
      finish (expandFrom g bounds fuel source growth) = finish result := by
  induction fuel generalizing growth source with
  | zero =>
    have hlt : growth.states.size < 2 ^ g.itemCount := h.size_lt hpos hfrontier.entered
    omega
  | succ fuel ih =>
    cases hstate : growth.states[source]? with
    | none =>
      have hlast : round g bounds source growth = .ok (.done source) growth := by
        simp only [round, get_bind_run, hstate]
        rfl
      refine ⟨1, by omega, _, .done hlast, ?_⟩
      simp only [expandFrom, get_bind_run, hstate]
      rfl
    | some state =>
      have hround : round g bounds source growth =
          (do state.next.forM (expandOn g bounds source state.items)
              return .yield (source + 1) : GrowM (ForInStep StateId)) growth := by
        simp only [round, get_bind_run, hstate]
      have hfrom : expandFrom g bounds (fuel + 1) source growth =
          (do state.next.forM (expandOn g bounds source state.items)
              expandFrom g bounds fuel (source + 1) : GrowM Unit) growth := by
        simp only [expandFrom, get_bind_run, hstate]
      rw [hfrom]
      simp only [Bind.bind, EStateM.bind] at hround ⊢
      cases hexpand : state.next.forM (expandOn g bounds source state.items) growth with
      | error failure after =>
        simp only [hexpand] at hround ⊢
        exact ⟨1, by omega, _, .failed hround, rfl⟩
      | ok _ after =>
        simp only [hexpand] at hround ⊢
        have hmeets : GrowM.Meets g bounds _ growth _ := expand_meets hg h hfrontier hstate
        obtain ⟨-, hafter, hnext, hlt, -⟩ := hmeets.of_ok hexpand
        obtain ⟨count, hcount, result, hloops, hresult⟩ :=
          ih hafter hnext (Nat.zero_lt_of_lt hlt) hlt (by omega)
        exact ⟨count + 1, by omega, result, .yield hround hloops, hresult⟩

/-- The start state is there, and nothing is expanded. -/
theorem first_meets (hg : g.WellFormed) (hvalid : table.Valid g) :
    GrowM.Meets g bounds (first g bounds) { items := table } fun source after =>
      Consistent g after.items (ofGrowth after) ∧ source = start ∧ after.Frontier start [] ∧
        0 < after.states.size := by
  refine (GrowM.onItems_meets (startSet_meets hg hvalid)).bind ?_
  rintro set middle hgrows ⟨hmiddle, hwithin, hitems⟩
  rw [hmiddle]
  refine (intern_first_meets hgrows.valid hwithin hitems).mono ?_
  rintro source last - ⟨hlast, hsource, hfrontier, -, state, hstates, -⟩
  exact ⟨hlast, hsource, hfrontier, by simp [hstates]⟩

end Growth

/-- The construction with as many rounds of its loop as it takes, and their number. -/
inductive Builds (g : Grammar) (bounds : Bounds) (table : ItemTable) :
    Nat → EStateM.Result Failure ItemTable Dfa → Prop
  /-- A store is full before any state is expanded. -/
  | unstarted {growth : Growth} {failure : Failure} :
      Growth.first g bounds { items := table } = .error failure growth →
      Builds g bounds table 0 (.error failure growth.items)
  | ended {growth : Growth} {source : StateId} {count : Nat}
      {result : EStateM.Result Failure Growth StateId} :
      Growth.first g bounds { items := table } = .ok source growth →
      Loops (Growth.round g bounds) source growth count result →
      Builds g bounds table count (Growth.finish result)

/-- The automaton is what the construction ends with. There are not more rounds than sets of items,
one for each state and one that finds no state left. -/
theorem exists_builds (hg : g.WellFormed) (hvalid : table.Valid g) :
    ∃ count ≤ 2 ^ g.itemCount, Builds g bounds table count (build g bounds table) := by
  have hgrow : Growth.grow g bounds =
      Growth.first g bounds >>= Growth.expandFrom g bounds (2 ^ g.itemCount) := by
    rw [← Grammar.length_allItems]
    exact (bind_assoc _ _ _).symm
  have hbuild : build g bounds table = Growth.finish (Growth.grow g bounds { items := table }) := by
    unfold build
    cases Growth.grow g bounds { items := table } <;> rfl
  rw [hbuild, hgrow]
  simp only [Bind.bind, EStateM.bind]
  cases hfirst : Growth.first g bounds { items := table } with
  | error failure growth => exact ⟨0, Nat.zero_le _, .unstarted hfirst⟩
  | ok source growth =>
    obtain ⟨-, hgrowth, rfl, hfrontier, hpos⟩ := (Growth.first_meets hg hvalid).of_ok hfirst
    obtain ⟨count, hcount, result, hloops, hresult⟩ := Growth.expandFrom_loops
      hg.toCrossReferenced hgrowth hfrontier hpos (Nat.zero_le _) (Nat.le_add_left _ _)
    dsimp only
    rw [hresult]
    exact ⟨count, hcount, .ended hfirst hloops⟩

/-- For a grammar that was read, take any table of its items and any bounds. The loop that finds a
closure ends on every set of items that occurs, and so does the loop that expands states, with an
automaton or because a store is full. An automaton has less than `2 ^ n` states if the grammar has
`n` items, and for each state not more transitions than there are different symbols in bodies of
rules. -/
theorem build_ends {options : ReadOptions} {tokens : List Token}
    (hread : Grammar.ofTokens options tokens = .ok g) (hvalid : table.Valid g) (bounds : Bounds) :
    (∀ later, table.Grows g later → ∀ set : ItemSet, set.Within later →
      ∃ count ≤ g.nonterminals.size + 1,
        Loops (ItemSet.closingRound g) set later count (set.closure g later)) ∧
    (∃ count ≤ 2 ^ g.itemCount, Builds g bounds table count (build g bounds table)) ∧
    g.mentioned.card ≤ g.columns.length ∧
    ∀ dfa after, build g bounds table = .ok dfa after →
      dfa.states.size ≤ 2 ^ g.itemCount - 1 ∧
        dfa.edges.size ≤ dfa.states.size * g.mentioned.card := by
  have hg := Grammar.wellFormed_ofTokens hread
  have href := hg.toCrossReferenced
  refine ⟨fun later hgrows set hset => ItemSet.closure_loops href hgrows.valid hset,
    exists_builds hg hvalid, href.card_mentioned_le, fun dfa after hdfa => ?_⟩
  have hmeets : ItemM.Meets g bounds (build g bounds) table _ := build_meets hg hvalid
  obtain ⟨-, hcanonical⟩ := hmeets.of_ok hdfa
  have hlt := hcanonical.size_lt hcanonical.nonempty hcanonical.entered
  exact ⟨by omega, hcanonical.size_edges_le⟩

/-- For the rules `S -> 'a' S |`, which have seven items, and a table that has `S -> 'a' . S`
already: with room for five states the construction ends with five states and five transitions, and
with room for two it ends because there is no room for a third. -/
theorem build_ends_of_letters : ∃ g,
    Grammar.ofSource {} "S -> 'a' S | ;" = .ok g ∧ g.itemCount = 7 ∧ g.mentioned.card = 3 ∧
    let table : ItemTable := { items := #[⟨1, 1⟩] }
    (∃ dfa after, build g { states := some 5 } table = .ok dfa after ∧
      dfa.states.size = 5 ∧ 5 ≤ 2 ^ 7 - 1 ∧ dfa.edges.size = 5 ∧ 5 ≤ 5 * 3 ∧
      ∃ count ≤ 2 ^ 7, Builds g { states := some 5 } table count (.ok dfa after)) ∧
    ∃ after, ∃ count ≤ 2 ^ 7,
      Builds g { states := some 2 } table count (.error (.full .states 2) after) := by
  have hsource : (Grammar.ofSource {} "S -> 'a' S | ;").toOption.map (fun g =>
      (g.rules[1]?, g.itemCount, g.mentioned.card)) =
      some (some ⟨1, [.terminal 0, .nonterminal 1]⟩, 7, 3) := by
    decide +kernel
  have hruns : (Grammar.ofSource {} "S -> 'a' S | ;").toOption.map (fun g =>
      (match build g { states := some 5 } { items := #[⟨1, 1⟩] } with
        | .ok dfa _ => some (dfa.states.size, dfa.edges.size)
        | .error _ _ => none,
      match build g { states := some 2 } { items := #[⟨1, 1⟩] } with
        | .ok _ _ => none
        | .error failure _ => some failure)) =
      some (some (5, 5), some (.full .states 2)) := by
    decide +kernel
  obtain ⟨g, hok, hparts⟩ := Option.map_eq_some_iff.1 hsource
  simp only [Prod.mk.injEq] at hparts
  obtain ⟨hrule, hcount, hcard⟩ := hparts
  rw [hok, Option.map_some, Option.some.injEq, Prod.mk.injEq] at hruns
  obtain ⟨hfive, htwo⟩ := hruns
  have hread := eq_ok_of_toOption hok
  have hvalid : ItemTable.Valid g { items := #[⟨1, 1⟩] } := by
    refine ⟨by simp, fun item hitem => ?_⟩
    obtain rfl := Array.mem_singleton.1 hitem
    exact ⟨_, hrule, by decide⟩
  obtain ⟨-, hbuilds, -, hsizes⟩ := build_ends hread hvalid { states := some 5 }
  obtain ⟨-, hrefused, -⟩ := build_ends hread hvalid { states := some 2 }
  rw [hcount] at hbuilds hrefused
  refine ⟨g, hread, hcount, hcard, ?_, ?_⟩
  · cases hdfa : build g { states := some 5 } { items := #[⟨1, 1⟩] } with
    | error failure after =>
      rw [hdfa] at hfive
      cases hfive
    | ok dfa after =>
      rw [hdfa] at hfive hbuilds
      obtain ⟨hstates, hedges⟩ := Prod.mk.inj (Option.some.inj hfive)
      obtain ⟨hlt, hle⟩ := hsizes dfa after hdfa
      rw [hstates, hcount] at hlt
      rw [hstates, hedges, hcard] at hle
      exact ⟨dfa, after, rfl, hstates, hlt, hedges, hle, hbuilds⟩
  · cases hdfa : build g { states := some 2 } { items := #[⟨1, 1⟩] } with
    | ok dfa after =>
      rw [hdfa] at htwo
      cases htwo
    | error failure after =>
      rw [hdfa] at htwo hrefused
      rw [Option.some.inj htwo] at hrefused
      exact ⟨after, hrefused⟩

end Dfa

end ShiftReduce
