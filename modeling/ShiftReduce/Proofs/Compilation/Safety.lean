import ShiftReduce.Proofs.Bounds.Compilation
import ShiftReduce.Proofs.Grammar.Verdict
import ShiftReduce.Proofs.Nfa.Agreement
import ShiftReduce.Proofs.Table.Total

/-!
# Compilations are safe

A compilation fails only for two reasons: the grammar is faulty, or a store would grow past its
bound. Requests that do not fit what was built before, and numbers that name no entry, do not occur
on the way. In a compilation that succeeds all numbers are in range, and all tables have a row for
each state and a column for each symbol.
-/

namespace ShiftReduce

namespace Compilation

/-- Every number in a compilation names an entry that exists. -/
structure InRange (c : Compilation) : Prop where
  /-- Rules are made of symbols of the grammar. -/
  rules : ∀ rule ∈ c.grammar.rules, rule.head < c.grammar.nonterminals.size ∧
    ∀ X ∈ rule.body, X ∈ c.grammar.columns
  /-- Non-terminals list rules of the grammar. -/
  heads : ∀ nt ∈ c.grammar.nonterminals, ∀ id ∈ nt.rules, id < c.grammar.rules.size
  /-- The first non-terminal of the source exists. -/
  sourceStart : Grammar.sourceStart < c.grammar.nonterminals.size
  /-- Symbols with a column have a name. -/
  names : ∀ X ∈ c.grammar.columns, ∃ name, c.grammar.name? X = some name
  /-- Items are places in the rules of the grammar. -/
  items : ∀ item ∈ c.items.items, ∃ rule, c.grammar.rules[item.rule]? = some rule ∧
    item.dot ≤ rule.length
  /-- States of the item automaton hold numbered items. -/
  nfaStates : ∀ state ∈ c.nfa.states, c.items.items[state.id]? = some state.item
  nfaStart : c.nfa.start < c.nfa.states.size
  nfaEdges : ∀ edge ∈ c.nfa.edges, edge.source < c.nfa.states.size ∧
    edge.target < c.nfa.states.size
  /-- States of the canonical collection hold numbers of items. -/
  dfaStates : ∀ state ∈ c.dfa.states, ∀ id ∈ state.items.ids, id < c.items.size
  dfaStart : Dfa.start < c.dfa.states.size
  dfaEdges : ∀ edge ∈ c.dfa.edges, edge.source < c.dfa.states.size ∧
    edge.target < c.dfa.states.size ∧ edge.symbol ∈ c.grammar.columns
  /-- All symbols have their sets. -/
  firsts : c.sets.firsts.terminals.size = c.grammar.terminals.size ∧
    c.sets.firsts.nonterminals.size = c.grammar.nonterminals.size
  follows : c.sets.follows.size = c.grammar.nonterminals.size
  /-- Tables have a row for each state and a column for each symbol. -/
  tables : ∀ table ∈ [c.lr0, c.slr1, c.diff], table.shape = Table.shapeOf c.grammar c.dfa ∧
    table.cells.size = c.dfa.states.size ∧
    ∀ row ∈ table.cells, row.size = c.grammar.columns.length

variable {options : ReadOptions} {source : String} {c : Compilation} {g : Grammar}

/-- The item automaton of a compilation has the items of the grammar, with their final numbers. -/
theorem Built.faithful (h : c.Built options source) : c.nfa.Faithful c.grammar c.items := by
  obtain ⟨middle, hnfa, hdfa⟩ := h.automata
  obtain ⟨hgrows, hfaithful⟩ := (Nfa.build_meets h.wellFormed.toLinked
    (ItemTable.valid_empty c.grammar options.bounds)).of_ok hnfa
  obtain ⟨hlater, -⟩ := (Dfa.build_meets h.wellFormed hgrows.valid).of_ok hdfa
  exact hfaithful.grow_table hlater

/-- The sets of a compilation are those of its grammar. -/
theorem Built.closed (h : c.Built options source) : c.sets.Closed c.grammar := by
  obtain ⟨sets, hsets, hclosed⟩ := Lookahead.compute_ok h.wellFormed.toLinked
  obtain rfl := Except.ok.inj (hsets.symm.trans h.sets)
  exact hclosed

/-- The tables of a compilation have the shape of its grammar and its automaton. -/
theorem Built.shaped (h : c.Built options source) : ∀ table ∈ [c.lr0, c.slr1, c.diff],
    table.Shaped (Table.shapeOf c.grammar c.dfa) := by
  have hg := h.wellFormed.toCrossReferenced
  obtain ⟨lr0, hlr0, hkind, hshaped⟩ := Table.exists_lr0 hg h.canonical
  obtain rfl := Except.ok.inj (hlr0.symm.trans h.lr0)
  obtain ⟨slr1, hslr1, hkind', hshaped'⟩ := Table.exists_slr1 hg h.canonical h.closed
  obtain rfl := Except.ok.inj (hslr1.symm.trans h.slr1)
  obtain ⟨diff, hdiff, hshaped''⟩ := Table.exists_diff hshaped hshaped' hkind hkind'
  obtain rfl := Except.ok.inj (hdiff.symm.trans h.diff)
  simp [hshaped, hshaped', hshaped'']

/-- Symbols with a column have a name. -/
theorem exists_name {X : Symbol} (hX : X ∈ g.columns) : ∃ name, g.name? X = some name := by
  cases X with
  | terminal t =>
    rw [Grammar.terminal_mem_columns] at hX
    simp [Grammar.name?, hX]
  | nonterminal n =>
    rw [Grammar.nonterminal_mem_columns] at hX
    simp [Grammar.name?, hX]
  | epsilon => exact absurd hX (Grammar.epsilon_not_mem_columns g)
  | endOfInput => exact ⟨endOfInputName, rfl⟩

/-- All numbers in a compilation are in range. -/
theorem Built.inRange (h : c.Built options source) : c.InRange := by
  have hg := h.wellFormed
  have hfaithful := h.faithful
  have hcanonical := h.canonical
  have hclosed := h.closed
  constructor
  case rules =>
    intro rule hrule
    obtain ⟨id, hid⟩ := Array.mem_iff_getElem?.1 hrule
    exact ⟨hg.head_lt hid, hg.body_columns hid⟩
  case heads =>
    intro nt hnt id hid
    obtain ⟨n, hn⟩ := Array.mem_iff_getElem?.1 hnt
    exact ((hg.mem_rules hn id).1 hid).lt
  case sourceStart =>
    have hbody := hg.body_in hg.augmented (.nonterminal Grammar.sourceStart) (by simp)
    exact hbody.2
  case names => exact fun X hX => exists_name hX
  case items => exact hcanonical.valid.items_in
  case nfaStates => exact hfaithful.named
  case nfaStart => exact Nfa.lt_of_itemAt? hfaithful.start_eq
  case nfaEdges =>
    intro edge hedge
    obtain ⟨item, next, hitem, hnext, -⟩ := hfaithful.exists_move hedge
    exact ⟨Nfa.lt_of_itemAt? hitem, Nfa.lt_of_itemAt? hnext⟩
  case dfaStates =>
    intro state hstate
    obtain ⟨s, hs⟩ := Array.mem_iff_getElem?.1 hstate
    exact hcanonical.within hs
  case dfaStart => exact hcanonical.nonempty
  case dfaEdges => exact fun edge hedge => hcanonical.edge_in hg.toCrossReferenced hedge
  case firsts =>
    refine ⟨?_, hclosed.firsts.size_eq⟩
    rw [hclosed.firsts.terminals_eq]
    simp [FirstSets.start, SetFamily.size, Grammar.terminalSymbols]
  case follows => exact hclosed.follows.size_eq
  case tables =>
    intro table htable
    have hshaped := h.shaped table htable
    have hwidth : (Table.shapeOf c.grammar c.dfa).width = c.grammar.columns.length :=
      (Shape.length_columns _).symm
    refine ⟨hshaped.shape_eq, ?_, fun row hrow => ?_⟩
    · rw [hshaped.size_eq, hshaped.shape_eq]
      rfl
    · rw [hshaped.row_size row hrow, hshaped.shape_eq, hwidth]

/-- Without bounds everything can be built for a grammar that was read. -/
theorem exists_compile (hfree : options.bounds = .unbounded)
    (hread : Grammar.ofSource options source = .ok g) : ∃ c, compile options source = .ok c := by
  have hg := Grammar.wellFormed_ofSource hread
  have hlinks := hg.toCrossReferenced
  rw [compile_eq, hfree]
  obtain ⟨nfa, middle, hnfa, hgrows, -⟩ := (Nfa.build_meets hg.toLinked
    (ItemTable.valid_empty g .unbounded)).exists_ok rfl
  obtain ⟨dfa, items, hdfa, -, hcanonical⟩ :=
    (Dfa.build_meets hg hgrows.valid).exists_ok hgrows.bounds_eq
  obtain ⟨sets, hsets, hclosed⟩ := Lookahead.compute_ok hg.toLinked
  obtain ⟨lr0, hlr0, hkind, hshaped⟩ := Table.exists_lr0 hlinks hcanonical
  obtain ⟨slr1, hslr1, hkind', hshaped'⟩ := Table.exists_slr1 hlinks hcanonical hclosed
  obtain ⟨diff, hdiff, -⟩ := Table.exists_diff hshaped hshaped' hkind hkind'
  refine ⟨⟨g, items, nfa, dfa, sets, lr0, slr1, diff⟩, ?_⟩
  refine bind_eq_ok.2 ⟨g, hread, bind_eq_ok.2 ⟨(nfa, middle), outcome_eq_ok.2 hnfa, ?_⟩⟩
  refine bind_eq_ok.2 ⟨(dfa, items), outcome_eq_ok.2 hdfa, bind_eq_ok.2 ⟨sets, hsets, ?_⟩⟩
  refine bind_eq_ok.2 ⟨lr0, hlr0, bind_eq_ok.2 ⟨slr1, hslr1, ?_⟩⟩
  exact bind_eq_ok.2 ⟨diff, hdiff, rfl⟩

/-- Without bounds a source compiles, or its grammar is faulty. -/
theorem ok_or_grammar (hfree : options.bounds = .unbounded) (source : String) :
    (∃ c, compile options source = .ok c) ∨
      ∃ location fault, compile options source = .error (.grammar location fault) := by
  have hread := Reader.readAll_ok_or_grammar hfree
    (TokenStream.take (TokenStream.remaining (Scanner.ofSource source) + 1)
      (Scanner.ofSource source))
  rcases hread with ⟨g, hread⟩ | ⟨location, fault, hread⟩
  · exact .inl (exists_compile hfree hread)
  · have hsource : Grammar.ofSource options source = .error (.grammar location fault) := hread
    refine .inr ⟨location, fault, ?_⟩
    rw [compile_eq, hsource]
    rfl

end Compilation

open Compilation

/-- A compilation has a result in which all numbers are in range, or the grammar is faulty, or a
store would grow past its bound. Without bounds the last does not happen. So no request fails
because of what was built before it, and no number on the way names an entry that does not exist. -/
theorem compile_safe (options : ReadOptions) (source : String) :
    (match compile options source with
      | .ok c => c.InRange
      | .error failure =>
        (∃ location fault, failure = .grammar location fault) ∨ options.bounds.Refuses failure) ∧
      match compile options.unbounded source with
      | .ok c => c.InRange
      | .error failure => ∃ location fault, failure = .grammar location fault := by
  have hrange {options : ReadOptions} {c : Compilation} (h : compile options source = .ok c) :
      c.InRange := (built_of_compile h).inRange
  have hfaulty : ∀ failure, compile options.unbounded source = .error failure →
      ∃ location fault, failure = .grammar location fault := by
    intro failure hfailure
    have hfree : options.unbounded.bounds = .unbounded := rfl
    rcases ok_or_grammar hfree source with ⟨c, hc⟩ | ⟨location, fault, hgrammar⟩
    · rw [hc] at hfailure
      cases hfailure
    · rw [hgrammar] at hfailure
      exact ⟨location, fault, (Except.error.inj hfailure).symm⟩
  constructor
  · cases hbounded : compile options source with
    | ok c => exact hrange hbounded
    | error failure =>
      have hcurtailed := (curtails_compile options source).curtailed (Bounds.admits_bot _)
      rw [hbounded] at hcurtailed
      generalize hunbounded : compile options.unbounded source = free at hcurtailed
      cases hcurtailed with
      | error => exact .inl (hfaulty failure hunbounded)
      | full hbound _ => exact .inr ⟨_, _, hbound, rfl⟩
  · cases hunbounded : compile options.unbounded source with
    | ok c => exact hrange hunbounded
    | error failure => exact hfaulty failure hunbounded

end ShiftReduce
