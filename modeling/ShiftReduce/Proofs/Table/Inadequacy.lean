import ShiftReduce.Proofs.Table.Conflicts
import ShiftReduce.Proofs.Table.Difference

/-!
# Inadequate states

A state counts as inadequate if it has a complete item and another item besides. A parser without
look-ahead has a choice in a state if the row of the state in the LR(0) table is contested. The two
are not the same: where a state has one complete item and its other items all wait for
non-terminals, the state counts as inadequate, but no input symbol moves it, and the parser can only
reduce. These idle states are the only ones in which the two differ.
-/

namespace ShiftReduce

/-- The symbols of bodies are input symbols and non-terminals. -/
theorem Symbol.In.isInput_or_isNonterminal {g : Grammar} {X : Symbol} (hX : X.In g) :
    X.isInput = true ∨ X.isNonterminal = true := by
  cases X with
  | epsilon => exact absurd hX not_false
  | nonterminal n => exact .inr rfl
  | _ => exact .inl rfl

/-- A state counts as inadequate if it has several complete items, or one and another item. -/
theorem Dfa.State.isInadequate_kind (state : Dfa.State) : state.kind.isInadequate = true ↔
    2 ≤ state.reductions ∨ state.reductions = 1 ∧ state.reductions < state.items.size := by
  unfold kind
  split
  all_goals
    simp only [StateKind.isInadequate, Bool.false_eq_true, false_iff, true_iff, imp_false] at *
    omega

namespace Compilation

variable {options : ReadOptions} {source : String} {c : Compilation} {s : StateId}
  {state : Dfa.State}

/-- A state with one complete item whose other items, of which there are some, all wait for
non-terminals. -/
structure Idles (c : Compilation) (s : StateId) : Prop where
  reduces : (c.endingItems s fun _ => True).ncard = 1
  waits : ∃ item ∈ c.dfa.itemsAt c.items s, ∃ n, item.Awaits c.grammar (.nonterminal n)
  /-- No input symbol moves the state. -/
  quiet : ∀ item ∈ c.dfa.itemsAt c.items s, ∀ X, item.Awaits c.grammar X → X.isInput = false

namespace Built

/-- The symbol that an item waits for is a symbol of the grammar. -/
theorem in_of_awaits {item : Item} {X : Symbol} (h : c.Built options source)
    (hawaits : item.Awaits c.grammar X) : X.In c.grammar := by
  obtain ⟨rule, hrule, hX⟩ := hawaits
  exact h.wellFormed.body_in hrule X (List.mem_of_getElem? hX)

/-- A state counts as inadequate if complete items compete with each other or with an item that
waits, whatever it waits for. -/
theorem isInadequate_iff (h : c.Built options source) (hstate : c.dfa.states[s]? = some state) :
    state.kind.isInadequate = true ↔ 2 ≤ (c.endingItems s fun _ => True).ncard ∨
      (c.endingItems s fun _ => True).ncard = 1 ∧
        ∃ X, ∃ item ∈ c.dfa.itemsAt c.items s, item.Awaits c.grammar X := by
  have hcanonical := h.canonical
  have hwithin := hcanonical.within hstate
  have hsummary := hcanonical.summary hstate
  have hitems : c.dfa.itemsAt c.items s = state.items.items c.items := Dfa.itemsAt_eq hstate
  have hreductions : state.reductions = (c.endingItems s fun _ => True).ncard := by
    rw [Dfa.State.reductions_eq_ncard hcanonical.valid hwithin hsummary]
    simp only [endingItems, hitems, and_true]
  have hmore : state.reductions < state.items.size ↔
      ∃ X, ∃ item ∈ c.dfa.itemsAt c.items s, item.Awaits c.grammar X := by
    rw [← Nat.not_le, ← Dfa.State.next_eq_nil_iff hcanonical.valid hwithin hsummary, hitems,
      List.eq_nil_iff_forall_not_mem, not_forall_not]
    exact exists_congr fun X => hcanonical.mem_next hstate
  rw [Dfa.State.isInadequate_kind, hmore, hreductions]

/-- A row of the LR(0) table is contested if complete items compete with each other or with an item
that waits for an input symbol. -/
theorem contested_iff (h : c.Built options source) : c.lr0.Contested s ↔
    2 ≤ (c.endingItems s fun _ => True).ncard ∨ (c.endingItems s fun _ => True).ncard = 1 ∧
      ∃ X, X.isInput = true ∧ ∃ item ∈ c.dfa.itemsAt c.items s, item.Awaits c.grammar X := by
  have hcell {X : Symbol} (hX : X ∈ c.grammar.columns) :
      2 ≤ (c.lr0.cell s X).length ↔ c.Clashes s X fun _ => True := by
    rw [h.lr0_cell_eq]
    exact h.clashes_iff hX fun _ => lr0_allows_iff hX
  constructor
  · rintro ⟨X, hX⟩
    have hshaped := h.shaped c.lr0 (by simp)
    have hcolumn : X ∈ c.grammar.columns := by
      by_contra hnone
      have hplace : (s, X) ∉ c.lr0.shape.places := by
        rw [hshaped.shape_eq, Shape.mem_places]
        exact fun hmem => hnone hmem.2
      rw [hshaped.cell_eq_nil hplace] at hX
      cases hX
    obtain ⟨hinput, hmany | ⟨hone, hawaits⟩⟩ := (hcell hcolumn).1 hX
    · exact .inl hmany
    · exact .inr ⟨hone, X, hinput, hawaits⟩
  · rintro (hmany | ⟨hone, X, hinput, hawaits⟩)
    · have hcolumn := Grammar.endOfInput_mem_columns c.grammar
      exact ⟨.endOfInput, (hcell hcolumn).2 ⟨rfl, .inl hmany⟩⟩
    · have ⟨item, _, hX⟩ := hawaits
      exact ⟨X, (hcell (h.in_of_awaits hX).mem_columns).2 ⟨hinput, .inr ⟨hone, hawaits⟩⟩⟩

/-- A contested row is the row of a state. -/
theorem exists_state_of_contested (h : c.Built options source) (hs : c.lr0.Contested s) :
    ∃ state, c.dfa.states[s]? = some state := by
  have hpos : (c.endingItems s fun _ => True).ncard ≠ 0 := by
    rcases h.contested_iff.1 hs with hmany | ⟨hone, -⟩ <;> omega
  obtain ⟨item, ⟨state, hstate, -⟩, -⟩ := Set.nonempty_of_ncard_ne_zero hpos
  exact ⟨state, hstate⟩

/-- A state counts as inadequate if its row is contested or if it is idle. -/
theorem isInadequate_iff_contested_or_idles (h : c.Built options source)
    (hstate : c.dfa.states[s]? = some state) :
    state.kind.isInadequate = true ↔ c.lr0.Contested s ∨ c.Idles s := by
  rw [h.isInadequate_iff hstate, h.contested_iff]
  constructor
  · rintro (hmany | ⟨hone, X, item, hitem, hX⟩)
    · exact .inl (.inl hmany)
    · by_cases hinput : ∃ Y, Y.isInput = true ∧
          ∃ item ∈ c.dfa.itemsAt c.items s, item.Awaits c.grammar Y
      · exact .inl (.inr ⟨hone, hinput⟩)
      · have hquiet : ∀ item ∈ c.dfa.itemsAt c.items s, ∀ Y, item.Awaits c.grammar Y →
            Y.isInput = false := fun item hitem Y hY =>
          Bool.eq_false_iff.2 fun hinputY => hinput ⟨Y, hinputY, item, hitem, hY⟩
        rcases (h.in_of_awaits hX).isInput_or_isNonterminal with hinputX | hnonterminal
        · rw [hquiet item hitem X hX] at hinputX
          cases hinputX
        · cases X with
          | nonterminal n => exact .inr ⟨hone, ⟨item, hitem, n, hX⟩, hquiet⟩
          | _ => cases hnonterminal
  · rintro ((hmany | ⟨hone, X, -, hawaits⟩) | ⟨hone, ⟨item, hitem, n, hn⟩, -⟩)
    · exact .inl hmany
    · exact .inr ⟨hone, X, hawaits⟩
    · exact .inr ⟨hone, .nonterminal n, item, hitem, hn⟩

/-- Rows of idle states are not contested. -/
theorem not_contested_of_idles (h : c.Built options source) (hs : c.Idles s) :
    ¬ c.lr0.Contested s := by
  intro hcontested
  rcases h.contested_iff.1 hcontested with hmany | ⟨-, X, hinput, item, hitem, hX⟩
  · rw [hs.reduces] at hmany
    omega
  · rw [hs.quiet item hitem X hX] at hinput
    cases hinput

end Built

/-- In a compilation a state counts as inadequate if its row of the LR(0) table is contested, and
beyond that exactly if it is idle, in which case its row is not contested. So a grammar without
inadequate states needs no look-ahead, and one that needs none has inadequate states only where they
are idle. -/
theorem inadequacy_exact (h : compile options source = .ok c) :
    (∀ (s : StateId) (state : Dfa.State), c.dfa.states[s]? = some state →
      (state.kind.isInadequate = true ↔ c.lr0.Contested s ∨ c.Idles s) ∧
      ¬ (c.lr0.Contested s ∧ c.Idles s)) ∧
    (c.isLr0 = true ↔ ∀ (s : StateId) (state : Dfa.State), c.dfa.states[s]? = some state →
      state.kind.isInadequate = true → c.Idles s) := by
  have hbuilt := built_of_compile h
  refine ⟨fun s state hstate => ⟨hbuilt.isInadequate_iff_contested_or_idles hstate, ?_⟩, ?_⟩
  · rintro ⟨hcontested, hidles⟩
    exact hbuilt.not_contested_of_idles hidles hcontested
  · rw [hbuilt.isLr0_iff]
    constructor
    · intro hfree s state hstate hinadequate
      have hcases := (hbuilt.isInadequate_iff_contested_or_idles hstate).1 hinadequate
      exact hcases.resolve_left (hfree s)
    · intro hidle s hcontested
      obtain ⟨state, hstate⟩ := hbuilt.exists_state_of_contested hcontested
      have hinadequate := (hbuilt.isInadequate_iff_contested_or_idles hstate).2 (.inl hcontested)
      exact hbuilt.not_contested_of_idles (hidle s state hstate hinadequate) hcontested

/-- For the rules `S -> S 'a' |`, which need no look-ahead, the start state counts as inadequate, so
it is idle: the empty rule is its one complete item, and the others wait for `S`. -/
theorem inadequacy_exact_of_list : ∃ c state, compile {} "S -> S 'a' | ;" = .ok c ∧
    c.dfa.states[0]? = some state ∧ c.isLr0 = true ∧ state.kind.isInadequate = true ∧
    c.Idles 0 ∧ ¬ c.lr0.Contested 0 := by
  have hsource : (compile {} "S -> S 'a' | ;").toOption.map (fun c =>
      ((c.dfa.states[0]?).map (·.kind.isInadequate), c.isLr0)) = some (some true, true) := by
    decide +kernel
  obtain ⟨c, hok, hparts⟩ := Option.map_eq_some_iff.1 hsource
  simp only [Prod.mk.injEq] at hparts
  obtain ⟨hkind, hisLr0⟩ := hparts
  obtain ⟨state, hstate, hinadequate⟩ := Option.map_eq_some_iff.1 hkind
  have hcompile := eq_ok_of_toOption hok
  obtain ⟨hstates, hfree⟩ := inadequacy_exact hcompile
  have hidles := hfree.1 hisLr0 0 state hstate hinadequate
  refine ⟨c, state, hcompile, hstate, hisLr0, hinadequate, hidles, fun hcontested => ?_⟩
  exact (hstates 0 state hstate).2 ⟨hcontested, hidles⟩

/-- For the rules `S -> A 'a'` and `A ->`, the start state counts as inadequate, although its row is
not contested and the grammar needs no look-ahead. -/
theorem inadequate_without_conflict : ∃ c state, compile {} "S -> A 'a' ; A -> ;" = .ok c ∧
    c.dfa.states[0]? = some state ∧ ¬ (state.kind.isInadequate = true ↔ c.lr0.Contested 0) ∧
    ¬ (c.isLr0 = true ↔ ∀ state ∈ c.dfa.states, state.kind.isInadequate = false) := by
  have hsource : (compile {} "S -> A 'a' ; A -> ;").toOption.map (fun c =>
      ((c.dfa.states[0]?).map (·.kind.isInadequate), c.isLr0)) = some (some true, true) := by
    decide +kernel
  obtain ⟨c, hok, hparts⟩ := Option.map_eq_some_iff.1 hsource
  simp only [Prod.mk.injEq] at hparts
  obtain ⟨hkind, hisLr0⟩ := hparts
  obtain ⟨state, hstate, hinadequate⟩ := Option.map_eq_some_iff.1 hkind
  have hcompile := eq_ok_of_toOption hok
  refine ⟨c, state, hcompile, hstate, fun hsame => ?_, fun hsame => ?_⟩
  · exact (built_of_compile hcompile).isLr0_iff.1 hisLr0 0 (hsame.1 hinadequate)
  · have hfalse := hsame.1 hisLr0 state (Array.mem_of_getElem? hstate)
    rw [hinadequate] at hfalse
    cases hfalse

end Compilation

end ShiftReduce
