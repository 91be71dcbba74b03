import ShiftReduce.Lookahead
import ShiftReduce.Proofs.Derivation
import ShiftReduce.Proofs.SetFamily

/-!
# FIRST sets are closed under the rules

A pass over the rules lets the FIRST sets grow. They hold only terminals, the end of input and the
empty string, each once, so there are enough passes for the last one to change nothing. The sets
that are found this way have everything that the rules ask for.
-/

namespace ShiftReduce

/-- Passes without a bound on their number, made until one changes nothing: where they start, how
many they are and where they end. -/
inductive Settles {α : Type} (pass : α → Except Failure α) : α → Nat → α → Prop
  | last {a : α} : pass a = .ok a → Settles pass a 1 a
  | more {a b c : α} {count : Nat} : pass a = .ok b → b ≠ a → Settles pass b count c →
      Settles pass a (count + 1) c

/-- A further pass would change nothing. -/
theorem Settles.fixed {α : Type} {pass : α → Except Failure α} {count : Nat} {a c : α}
    (h : Settles pass a count c) : pass c = .ok c := by
  induction h with
  | last hpass => exact hpass
  | more _ _ _ ih => exact ih

/-- Passes that let a bounded size grow settle before they are too many. -/
theorem passes_settle {α : Type} [DecidableEq α] {pass : α → Except Failure α} (inv : α → Prop)
    (size : α → Nat) {bound fuel : Nat} {a : α}
    (hpass : ∀ a, inv a → ∃ b, pass a = .ok b ∧ inv b ∧ (b ≠ a → size a < size b))
    (hbound : ∀ a, inv a → size a ≤ bound) (ha : inv a) (hfuel : bound < fuel + size a) :
    ∃ count c, passes pass fuel a = .ok (count, c) ∧ inv c ∧ Settles pass a count c := by
  induction fuel generalizing a with
  | zero =>
    have hle := hbound a ha
    omega
  | succ fuel ih =>
    obtain ⟨b, hb, hinv, hgrows⟩ := hpass a ha
    by_cases heq : b = a
    · subst heq
      exact ⟨1, b, bind_eq_ok.2 ⟨b, hb, if_pos rfl⟩, hinv, .last hb⟩
    · have hlt := hgrows heq
      obtain ⟨count, c, hpasses, hc, hsettles⟩ := ih hinv (by omega)
      refine ⟨count + 1, c, bind_eq_ok.2 ⟨b, hb, (if_neg heq).trans ?_⟩, hc, .more hb heq hsettles⟩
      exact bind_eq_ok.2 ⟨(count, c), hpasses, rfl⟩

/-- Passes keep what each of them keeps. -/
theorem passes_keeps {α : Type} [DecidableEq α] {pass : α → Except Failure α} (inv : α → Prop)
    {fuel count : Nat} {a c : α} (hpass : ∀ a b, inv a → pass a = .ok b → inv b) (ha : inv a)
    (h : passes pass fuel a = .ok (count, c)) : inv c := by
  induction fuel generalizing a count with
  | zero =>
    obtain ⟨-, rfl⟩ := Prod.mk.inj (Except.ok.inj h)
    exact ha
  | succ fuel ih =>
    obtain ⟨b, hb, hrest⟩ := bind_eq_ok.1 h
    by_cases heq : b = a
    · rw [if_pos heq] at hrest
      obtain ⟨-, rfl⟩ := Prod.mk.inj (Except.ok.inj hrest)
      exact ha
    · rw [if_neg heq] at hrest
      obtain ⟨⟨count', c'⟩, hlater, hlast⟩ := bind_eq_ok.1 hrest
      obtain ⟨-, rfl⟩ := Prod.mk.inj (Except.ok.inj hlast)
      exact ih (hpass a b ha hb) hlater

/-- A set that the family has can be extended. -/
theorem SetFamily.extend_eq {family : SetFamily Symbol} {n : Nat} {xs : List Symbol}
    (hn : n < family.size) : family.extend n xs = .ok (family.insertAll n xs) :=
  if_pos hn

namespace Grammar

/-- The symbols of an input. -/
def inputSymbols (g : Grammar) : List Symbol := .endOfInput :: g.terminalSymbols

/-- The symbols that FIRST sets are made of. -/
def lookaheads (g : Grammar) : List Symbol := .epsilon :: g.inputSymbols

/-- The input symbols are terminals and the end of input. -/
theorem isInput_of_mem_inputSymbols {g : Grammar} {X : Symbol} (h : X ∈ g.inputSymbols) :
    X.isInput = true := by
  simp only [inputSymbols, terminalSymbols, List.mem_cons, List.mem_map] at h
  rcases h with rfl | ⟨t, -, rfl⟩
  · rfl
  · rfl

/-- There are two more symbols in FIRST and FOLLOW than terminals. -/
theorem length_lookaheads (g : Grammar) : g.lookaheads.length = g.terminals.size + 2 := by
  simp [lookaheads, inputSymbols, terminalSymbols]

end Grammar

/-- The empty string is no input symbol. -/
theorem Symbol.ne_epsilon_of_isInput {X : Symbol} (h : X.isInput = true) : X ≠ .epsilon := by
  rintro rfl
  exact Bool.false_ne_true h

namespace FirstSets

variable {g : Grammar} {sets after : FirstSets} {X a : Symbol} {Xs known : List Symbol}
  {n : NonterminalId}

/-- The second symbol is in FIRST of the first one. -/
def Has (sets : FirstSets) (X a : Symbol) : Prop :=
  ∃ firsts, sets.ofSymbol X = .ok firsts ∧ a ∈ firsts

/-- The symbol is in FIRST of a string, according to the sets of the symbols of the string. -/
inductive Begins (sets : FirstSets) : List Symbol → Symbol → Prop
  | nil : Begins sets [] .epsilon
  | here {X a : Symbol} {Xs : List Symbol} : sets.Has X a → a ≠ .epsilon → Begins sets (X :: Xs) a
  | later {X a : Symbol} {Xs : List Symbol} : sets.Has X .epsilon → Begins sets Xs a →
      Begins sets (X :: Xs) a

/-- The empty string begins with nothing. -/
@[simp] theorem begins_nil : sets.Begins [] a ↔ a = .epsilon := by
  constructor
  · rintro ⟨⟩
    rfl
  · rintro rfl
    exact .nil

/-- A string begins with what its first symbol begins with, or goes on after it if the symbol
vanishes. -/
@[simp] theorem begins_cons : sets.Begins (X :: Xs) a ↔
    sets.Has X a ∧ a ≠ .epsilon ∨ sets.Has X .epsilon ∧ sets.Begins Xs a := by
  constructor
  · intro h
    cases h with
    | here hX ha => exact .inl ⟨hX, ha⟩
    | later hX hrest => exact .inr ⟨hX, hrest⟩
  · rintro (⟨hX, ha⟩ | ⟨hX, hrest⟩)
    · exact .here hX ha
    · exact .later hX hrest

/-- A single symbol begins with what its set has. -/
theorem begins_singleton : sets.Begins [X] a ↔ sets.Has X a := by
  rw [begins_cons, begins_nil]
  by_cases ha : a = .epsilon
  · simp [ha]
  · simp [ha]

/-- FIRST of two strings in a row. -/
theorem begins_append {Ys : List Symbol} : sets.Begins (Xs ++ Ys) a ↔
    sets.Begins Xs a ∧ a ≠ .epsilon ∨ sets.Begins Xs .epsilon ∧ sets.Begins Ys a := by
  induction Xs with
  | nil => simp
  | cons X Xs ih =>
    rw [List.cons_append, begins_cons, begins_cons, begins_cons, ih]
    simp only [ne_eq, not_true_eq_false, and_false, false_or, or_and_right, and_or_left,
      and_assoc, and_self, or_assoc]

/-- FIRST sets on the way to the final ones. -/
structure Proper (g : Grammar) (sets : FirstSets) : Prop where
  terminals_eq : sets.terminals = (start g).terminals
  size_eq : sets.nonterminals.size = g.nonterminals.size
  within : sets.nonterminals.Within g.lookaheads

/-- The sets at the start are proper. -/
theorem proper_start (g : Grammar) : (start g).Proper g :=
  ⟨rfl, SetFamily.size_ofSize _, ⟨fun n => by simp [start], fun n => by simp [start]⟩⟩

/-- FIRST of a non-terminal. -/
theorem has_nonterminal : sets.Has (.nonterminal n) a ↔ a ∈ sets.nonterminals.elements n := by
  simp only [Has, ofSymbol, get, entry_eq_ok]
  by_cases hn : n < sets.nonterminals.size
  · simp [SetFamily.getElem?_sets hn]
  · rw [SetFamily.elements_eq_nil hn, Array.getElem?_eq_none (Nat.le_of_not_lt hn)]
    simp

/-- The end of input begins with itself only. -/
@[simp] theorem has_endOfInput : sets.Has .endOfInput a ↔ a = .endOfInput := by
  simp [Has, ofSymbol]

namespace Proper

/-- The sets cannot hold more elements than there are such symbols for each non-terminal. -/
theorem total_le (h : sets.Proper g) :
    sets.nonterminals.total ≤ g.nonterminals.size * (g.terminals.size + 2) := by
  rw [← h.size_eq, ← g.length_lookaheads]
  exact h.within.total_le

/-- A terminal starts with itself. -/
theorem has_terminal {t : TerminalId} (h : sets.Proper g) (ht : t < g.terminals.size) :
    sets.Has (.terminal t) a ↔ a = .terminal t := by
  simp [Has, ofSymbol, get, entry_eq_ok, h.terminals_eq, start, Grammar.terminalSymbols, ht]

/-- FIRST of a symbol of the grammar is known. -/
theorem ofSymbol_ok (h : sets.Proper g) (hX : X ∈ g.columns) :
    ∃ firsts, sets.ofSymbol X = .ok firsts ∧ firsts ⊆ g.lookaheads := by
  cases X with
  | terminal t =>
    have ht : t < g.terminals.size := Grammar.terminal_mem_columns.1 hX
    refine ⟨[.terminal t], ?_, ?_⟩
    · simp [ofSymbol, get, entry_eq_ok, h.terminals_eq, start, Grammar.terminalSymbols, ht]
    · simp [Grammar.lookaheads, Grammar.inputSymbols, Grammar.terminalSymbols, ht]
  | nonterminal n =>
    have hn : n < sets.nonterminals.size :=
      h.size_eq ▸ Grammar.nonterminal_mem_columns.1 hX
    exact ⟨_, entry_eq_ok.2 (SetFamily.getElem?_sets hn), h.within.subset n⟩
  | epsilon => exact absurd hX (Grammar.epsilon_not_mem_columns g)
  | endOfInput => exact ⟨[.endOfInput], rfl, by simp [Grammar.lookaheads, Grammar.inputSymbols]⟩

/-- FIRST of a string of symbols of the grammar is known. -/
theorem addSequence_ok (h : sets.Proper g) (hXs : ∀ X ∈ Xs, X ∈ g.columns) (hknown : known.Nodup)
    (hepsilon : .epsilon ∉ known) :
    ∃ firsts, sets.addSequence known Xs = .ok firsts ∧ firsts.Nodup ∧
      ∀ a, a ∈ firsts ↔ a ∈ known ∨ sets.Begins Xs a := by
  induction Xs generalizing known with
  | nil =>
    refine ⟨known ++ [.epsilon], rfl, ?_, fun a => ?_⟩
    · rw [List.nodup_append]
      refine ⟨hknown, by simp, fun a ha b hb => ?_⟩
      rw [List.mem_singleton.1 hb]
      rintro rfl
      exact hepsilon ha
    · simp
  | cons X Xs ih =>
    obtain ⟨firsts, hfirsts, -⟩ := h.ofSymbol_ok (hXs X List.mem_cons_self)
    have hhas : ∀ a, sets.Has X a ↔ a ∈ firsts := by simp [Has, hfirsts]
    have hmem : ∀ a, a ∈ (firsts.filter (· != .epsilon)).foldl pushUnique known ↔
        a ∈ known ∨ a ∈ firsts ∧ a ≠ .epsilon := by simp [mem_foldl_pushUnique]
    have hnodup : ((firsts.filter (· != .epsilon)).foldl pushUnique known).Nodup :=
      nodup_foldl_pushUnique hknown
    by_cases hvanish : .epsilon ∈ firsts
    · obtain ⟨result, hresult, hresultNodup, hiff⟩ := ih
        (fun Y hY => hXs Y (List.mem_cons_of_mem X hY)) hnodup (by simp [hmem, hepsilon])
      refine ⟨result, bind_eq_ok.2 ⟨firsts, hfirsts, ?_⟩, hresultNodup, fun a => ?_⟩
      · exact (if_pos (List.contains_iff_mem.2 hvanish)).trans hresult
      · rw [hiff a, hmem a, begins_cons, hhas, hhas]
        simp only [hvanish, true_and]
        tauto
    · refine ⟨_, bind_eq_ok.2 ⟨firsts, hfirsts, if_neg ?_⟩, hnodup, fun a => ?_⟩
      · rwa [List.contains_iff_mem]
      · rw [hmem a, begins_cons, hhas, hhas]
        simp only [hvanish, false_and, or_false]

/-- FIRST of a string of symbols of the grammar, found in the sets of its symbols. -/
theorem ofSequence_ok (h : sets.Proper g) (hXs : ∀ X ∈ Xs, X ∈ g.columns) :
    ∃ firsts, sets.ofSequence Xs = .ok firsts ∧ firsts.Nodup ∧
      ∀ a, a ∈ firsts ↔ sets.Begins Xs a := by
  obtain ⟨firsts, hfirsts, hnodup, hmem⟩ :=
    h.addSequence_ok hXs List.nodup_nil List.not_mem_nil
  exact ⟨firsts, hfirsts, hnodup, fun a => (hmem a).trans (by simp)⟩

/-- FIRST sets are made of terminals, the end of input and the empty string. -/
theorem mem_lookaheads (h : sets.Proper g) (hXs : ∀ X ∈ Xs, X ∈ g.columns) (ha : sets.Begins Xs a) :
    a ∈ g.lookaheads := by
  induction ha with
  | nil => exact List.mem_cons_self
  | here hX _ =>
    obtain ⟨firsts, hfirsts, hsubset⟩ := h.ofSymbol_ok (hXs _ List.mem_cons_self)
    obtain ⟨firsts', hfirsts', hmem⟩ := hX
    obtain rfl := Except.ok.inj (hfirsts.symm.trans hfirsts')
    exact hsubset hmem
  | later _ _ ih => exact ih fun Y hY => hXs Y (List.mem_cons_of_mem _ hY)

end Proper

/-- Larger FIRST sets have the same elements and more. -/
structure Grows (sets after : FirstSets) : Prop where
  terminals_eq : after.terminals = sets.terminals
  nonterminals : sets.nonterminals.Grows after.nonterminals

/-- Sets grow to themselves. -/
theorem Grows.refl (sets : FirstSets) : sets.Grows sets := ⟨rfl, .refl _⟩

/-- Sets that grow twice have grown. -/
theorem Grows.trans {later : FirstSets} (h : sets.Grows after) (h' : after.Grows later) :
    sets.Grows later :=
  ⟨h'.terminals_eq.trans h.terminals_eq, h.nonterminals.trans h'.nonterminals⟩

/-- Sets that grow lose nothing. -/
theorem Grows.has (h : sets.Grows after) (hX : sets.Has X a) : after.Has X a := by
  cases X with
  | terminal t =>
    simp only [Has, ofSymbol, get, h.terminals_eq]
    exact hX
  | nonterminal n => exact has_nonterminal.2 (h.nonterminals.mem (has_nonterminal.1 hX))
  | epsilon =>
    obtain ⟨firsts, hfirsts, -⟩ := hX
    cases hfirsts
  | endOfInput => exact hX

/-- A string begins with all that it began with before the sets grew. -/
theorem Grows.begins (h : sets.Grows after) (ha : sets.Begins Xs a) : after.Begins Xs a := by
  induction ha with
  | nil => exact .nil
  | here hX ha => exact .here (h.has hX) ha
  | later hX _ ih => exact .later (h.has hX) ih

/-- The FIRST set of the head of a rule gets FIRST of the body, and nothing else changes. -/
theorem Proper.addRule_ok {rule : Rule} (h : sets.Proper g) (hbody : ∀ X ∈ rule.body, X ∈ g.columns)
    (hhead : rule.head < g.nonterminals.size) :
    ∃ after, sets.addRule rule = .ok after ∧ after.Proper g ∧ sets.Grows after ∧
      ∀ n a, a ∈ after.nonterminals.elements n ↔
        a ∈ sets.nonterminals.elements n ∨ n = rule.head ∧ sets.Begins rule.body a := by
  obtain ⟨firsts, hfirsts, -, hmem⟩ := h.ofSequence_ok hbody
  have hn : rule.head < sets.nonterminals.size := h.size_eq ▸ hhead
  have hsubset : firsts ⊆ g.lookaheads := fun a ha => h.mem_lookaheads hbody ((hmem a).1 ha)
  have hsize := (SetFamily.size_insertAll sets.nonterminals rule.head firsts).trans h.size_eq
  have hextend : sets.nonterminals.extend rule.head firsts = .ok _ := SetFamily.extend_eq hn
  refine ⟨_, bind_eq_ok.2 ⟨firsts, hfirsts, bind_eq_ok.2 ⟨_, hextend, rfl⟩⟩,
    ⟨h.terminals_eq, hsize, h.within.insertAll hn hsubset⟩, ⟨rfl, SetFamily.grows_insertAll hn⟩, ?_⟩
  intro n a
  rw [← hmem a]
  exact SetFamily.mem_insertAll hn

/-- A pass adds FIRST of the body of every rule to FIRST of its head. -/
theorem Proper.pass_ok (hg : g.CrossReferenced) (h : sets.Proper g) :
    ∃ after, pass g sets = .ok after ∧ after.Proper g ∧ sets.Grows after ∧
      ∀ rule ∈ g.rules, ∀ a, sets.Begins rule.body a →
        a ∈ after.nonterminals.elements rule.head := by
  have hpass : ∃ after, pass g sets = .ok after ∧ after.Proper g ∧ sets.Grows after ∧
      ∀ rule ∈ g.rules.toList, ∀ a, sets.Begins rule.body a →
        a ∈ after.nonterminals.elements rule.head := by
    refine foldlM_collects (Proper g) Grows
      (fun (rule : Rule) (now : FirstSets) => ∀ a, sets.Begins rule.body a →
        a ∈ now.nonterminals.elements rule.head) h (.refl sets) Grows.trans
      (fun hgrows hrule a ha => hgrows.nonterminals.mem (hrule a ha)) ?_
    intro rule hmem now hnow hgrows
    obtain ⟨id, hid⟩ := Array.mem_iff_getElem?.1 (Array.mem_toList_iff.1 hmem)
    obtain ⟨next, hnext, hproper, hlater, hrule⟩ :=
      hnow.addRule_ok (hg.body_columns hid) (hg.head_lt hid)
    refine ⟨next, hnext, hproper, hlater, fun a ha => ?_⟩
    exact (hrule rule.head a).2 (.inr ⟨rfl, hgrows.begins ha⟩)
  simpa only [Array.mem_toList_iff] using hpass

/-- FIRST sets that have all that the rules ask for. -/
structure Closed (g : Grammar) (sets : FirstSets) : Prop extends sets.Proper g where
  rules : ∀ rule ∈ g.rules, ∀ a, sets.Begins rule.body a →
    a ∈ sets.nonterminals.elements rule.head

/-- FIRST sets that grow have more elements, unless nothing is new. -/
theorem Grows.total_lt (h : sets.Grows after) (hne : after ≠ sets) :
    sets.nonterminals.total < after.nonterminals.total := by
  refine h.nonterminals.total_lt fun heq => hne ?_
  cases sets
  cases after
  exact congr (congrArg FirstSets.mk h.terminals_eq) heq

/-- The FIRST sets of a grammar are found, and are closed under the rules. -/
theorem exists_closed (hg : g.CrossReferenced) :
    ∃ count sets, passes (pass g) g.passBound (start g) = .ok (count, sets) ∧ sets.Closed g ∧
      Settles (pass g) (start g) count sets := by
  have hpass : ∀ sets : FirstSets, sets.Proper g → ∃ after, pass g sets = .ok after ∧
      after.Proper g ∧ (after ≠ sets → sets.nonterminals.total < after.nonterminals.total) := by
    intro sets h
    obtain ⟨after, hafter, hproper, hgrows, -⟩ := h.pass_ok hg
    exact ⟨after, hafter, hproper, hgrows.total_lt⟩
  obtain ⟨count, sets, hpasses, hproper, hsettles⟩ := passes_settle (Proper g)
    (fun sets : FirstSets => sets.nonterminals.total) hpass (fun _ h => h.total_le) (proper_start g)
    (show _ < g.passBound + _ by unfold Grammar.passBound; omega)
  obtain ⟨after, hafter, -, -, hrules⟩ := hproper.pass_ok hg
  obtain rfl := Except.ok.inj (hsettles.fixed.symm.trans hafter)
  exact ⟨count, sets, hpasses, ⟨hproper, hrules⟩, hsettles⟩

/-- An input symbol starts with itself. -/
theorem Proper.has_self (h : sets.Proper g) (hX : X ∈ g.columns) (hinput : X.isInput = true) :
    sets.Has X X := by
  cases X with
  | terminal t => exact (h.has_terminal (Grammar.terminal_mem_columns.1 hX)).2 rfl
  | endOfInput => exact has_endOfInput.2 rfl
  | nonterminal n => exact absurd hinput Bool.false_ne_true
  | epsilon => exact absurd hinput Bool.false_ne_true

/-- An input symbol is in FIRST of every string that it starts. -/
theorem Proper.begins_head (h : sets.Proper g) (hX : X ∈ g.columns) (hinput : X.isInput = true) :
    sets.Begins (X :: Xs) X :=
  .here (h.has_self hX hinput) (Symbol.ne_epsilon_of_isInput hinput)

/-- What is in FIRST after a derivation step was there before it. -/
theorem Closed.begins_of_step {u v : List Symbol} (h : sets.Closed g) (hstep : g.Step u v)
    (ha : sets.Begins v a) : sets.Begins u a := by
  cases hstep with
  | replace before after hrule =>
    rename_i id rule
    have hhead {b : Symbol} (hb : sets.Begins rule.body b) :
        sets.Has (.nonterminal rule.head) b :=
      has_nonterminal.2 (h.rules rule (Array.mem_of_getElem? hrule) b hb)
    rw [List.append_assoc] at ha
    rcases begins_append.1 ha with hbefore | ⟨hvanish, ha⟩
    · exact begins_append.2 (.inl hbefore)
    · refine begins_append.2 (.inr ⟨hvanish, ?_⟩)
      rcases begins_append.1 ha with ⟨hbody, hne⟩ | ⟨hbody, hafter⟩
      · exact .here (hhead hbody) hne
      · exact .later (hhead hbody) hafter

/-- FIRST of a form has FIRST of everything that the form derives. -/
theorem Closed.begins_of_derives {u v : List Symbol} (h : sets.Closed g) (hderives : g.Derives u v)
    (ha : sets.Begins v a) : sets.Begins u a := by
  induction hderives with
  | refl => exact ha
  | step hstep _ ih => exact h.begins_of_step hstep (ih ha)

end FirstSets

end ShiftReduce
