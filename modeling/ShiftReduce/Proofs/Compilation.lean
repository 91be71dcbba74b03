import ShiftReduce.Compilation
import ShiftReduce.Proofs.Nfa.Build
import ShiftReduce.Proofs.Table.Fill

/-!
# What a compilation is made of

A compilation that succeeds has built its parts one after the other, each from those before it. Its
notes have no influence on the parts. The grammar is well formed, the automaton is the canonical
collection, and both tables drive the machine along it.
-/

namespace ShiftReduce

namespace RunM

variable {α β : Type}

/-- A run has a result that does not depend on the notes made before it. -/
def Computes (run : RunM α) (result : Except Failure α) : Prop :=
  ∀ journal, (outcome (run journal)).map Prod.fst = result

namespace Computes

/-- A lifted step makes no notes and has the result of the step. -/
theorem lifted (step : Except Failure α) : Computes (liftStep step) step := by
  intro journal
  cases step <;> rfl

/-- Two runs, one after the other, compute what their results do. -/
theorem bind {run : RunM α} {next : α → RunM β} {result : Except Failure α}
    {results : α → Except Failure β} (h : Computes run result)
    (hnext : ∀ a, Computes (next a) (results a)) :
    Computes (run >>= next) (result >>= results) := by
  intro journal
  rw [outcome_bind, ← h journal]
  cases outcome (run journal) with
  | error failure => rfl
  | ok reached => exact hnext reached.1 reached.2

/-- A note has no influence on what comes after it. -/
theorem note_bind (event : Event) {next : RunM α} {result : Except Failure α}
    (h : Computes next result) : Computes (RunM.note event >>= fun _ => next) result :=
  fun journal => h (journal ++ [event])

/-- Several notes have no influence on what comes after them. -/
theorem notes_bind (events : List Event) {next : RunM α} {result : Except Failure α}
    (h : Computes next result) : Computes (RunM.notes events >>= fun _ => next) result :=
  fun journal => h (journal ++ events)

/-- A run that only has a result. -/
theorem pure (a : α) : Computes (Pure.pure a) (Pure.pure a) := fun _ => rfl

/-- A run that only notes its result has the result. -/
theorem of_pure {run : RunM α} {result : Except Failure α}
    (h : Computes run (result >>= Pure.pure)) : Computes run result := by
  rwa [bind_pure] at h

end Computes

end RunM

namespace Compilation

variable {options : ReadOptions} {source : String} {c : Compilation} {g : Grammar}

open RunM (Computes)

/-- To read a grammar with notes gives the grammar of the source. -/
theorem readGrammar_computes (options : ReadOptions) (source : String) :
    Computes (readGrammar options source) (Grammar.ofSource options source) := by
  apply Computes.of_pure
  exact (Computes.lifted _).bind fun g => (Computes.pure g).note_bind _ |>.note_bind _

/-- To build the item automaton with notes gives the automaton and the items. -/
theorem buildNfa_computes (g : Grammar) (bounds : Bounds) :
    Computes (buildNfa g bounds) (outcome (Nfa.build g bounds (.empty bounds))) := by
  intro journal
  unfold buildNfa
  cases Nfa.build g bounds (.empty bounds) <;> rfl

/-- To build the canonical collection with notes gives the automaton and the items. -/
theorem buildDfa_computes (g : Grammar) (bounds : Bounds) (items : ItemTable) :
    Computes (buildDfa g bounds items) (outcome (Dfa.build g bounds items)) := by
  intro journal
  unfold buildDfa Dfa.build
  cases Dfa.Growth.grow g bounds { items } <;> rfl

/-- To find FIRST and FOLLOW with notes gives the sets. -/
theorem findSets_computes (g : Grammar) : Computes (findSets g) (Lookahead.compute g) := by
  apply Computes.of_pure
  exact (Computes.lifted _).bind fun sets => (Computes.pure sets).note_bind _

/-- To note what a table holds leaves it as it is. -/
theorem noteTable_computes (g : Grammar) (filled : Except Failure Table) :
    Computes (noteTable g filled) filled := by
  apply Computes.of_pure
  exact (Computes.lifted _).bind fun table => (Computes.pure table).notes_bind _

/-- A compilation builds its parts one after the other, each from those before it. -/
theorem compile_eq (options : ReadOptions) (source : String) :
    compile options source = (do
      let grammar ← Grammar.ofSource options source
      let (nfa, items) ← outcome (Nfa.build grammar options.bounds (.empty options.bounds))
      let (dfa, items) ← outcome (Dfa.build grammar options.bounds items)
      let sets ← Lookahead.compute grammar
      let lr0 ← Table.lr0 grammar items dfa
      let slr1 ← Table.slr1 grammar items dfa sets
      let diff ← Table.diff lr0 slr1
      return { grammar, items, nfa, dfa, sets, lr0, slr1, diff }) := by
  have hresult : compile options source = (outcome (run options source [])).map Prod.fst := by
    unfold compile
    cases run options source [] <;> rfl
  rw [hresult]
  refine Computes.bind (readGrammar_computes options source) (fun grammar => ?_) []
  refine (buildNfa_computes grammar options.bounds).bind fun ⟨nfa, items⟩ => ?_
  refine (buildDfa_computes grammar options.bounds items).bind fun ⟨dfa, items⟩ => ?_
  refine (findSets_computes grammar).bind fun sets => ?_
  refine (noteTable_computes grammar _).bind fun lr0 => ?_
  refine (noteTable_computes grammar _).bind fun slr1 => ?_
  refine (Computes.lifted _).bind fun diff => ?_
  exact ((Computes.pure _).note_bind _).note_bind _

/-- The parts of a compilation and how they were built. -/
structure Built (options : ReadOptions) (source : String) (c : Compilation) : Prop where
  read : Grammar.ofSource options source = .ok c.grammar
  /-- Both automata were built on one table of items, which was empty at first. -/
  automata : ∃ middle,
    Nfa.build c.grammar options.bounds (.empty options.bounds) = .ok c.nfa middle ∧
      Dfa.build c.grammar options.bounds middle = .ok c.dfa c.items
  sets : Lookahead.compute c.grammar = .ok c.sets
  lr0 : Table.lr0 c.grammar c.items c.dfa = .ok c.lr0
  slr1 : Table.slr1 c.grammar c.items c.dfa c.sets = .ok c.slr1
  diff : Table.diff c.lr0 c.slr1 = .ok c.diff

/-- A compilation that succeeds has built its parts. -/
theorem built_of_compile (h : compile options source = .ok c) : c.Built options source := by
  rw [compile_eq] at h
  obtain ⟨g, hread, h⟩ := bind_eq_ok.1 h
  obtain ⟨⟨nfa, middle⟩, hnfa, h⟩ := bind_eq_ok.1 h
  obtain ⟨⟨dfa, items⟩, hdfa, h⟩ := bind_eq_ok.1 h
  obtain ⟨sets, hsets, h⟩ := bind_eq_ok.1 h
  obtain ⟨lr0, hlr0, h⟩ := bind_eq_ok.1 h
  obtain ⟨slr1, hslr1, h⟩ := bind_eq_ok.1 h
  obtain ⟨diff, hdiff, h⟩ := bind_eq_ok.1 h
  obtain rfl := Except.ok.inj h
  exact ⟨hread, ⟨middle, outcome_eq_ok.1 hnfa, outcome_eq_ok.1 hdfa⟩, hsets, hlr0, hslr1, hdiff⟩

namespace Built

/-- The grammar of a compilation is well formed. -/
theorem wellFormed (h : c.Built options source) : c.grammar.WellFormed :=
  Grammar.wellFormed_ofSource h.read

/-- The automaton of a compilation is the canonical collection. -/
theorem canonical (h : c.Built options source) : c.dfa.Canonical c.grammar c.items := by
  obtain ⟨middle, hnfa, hdfa⟩ := h.automata
  obtain ⟨hgrows, -⟩ := (Nfa.build_meets h.wellFormed.toLinked
    (ItemTable.valid_empty c.grammar options.bounds)).of_ok hnfa
  exact ((Dfa.build_meets h.wellFormed hgrows.valid).of_ok hdfa).2

/-- The LR(0) table of a compilation drives the machine along the automaton. -/
theorem drives_lr0 (h : c.Built options source) : c.lr0.Drives c.grammar c.items c.dfa
    fun _ => .ok (Table.shapeOf c.grammar c.dfa).inputs :=
  Table.drives_of_lr0 h.canonical h.lr0

/-- The SLR(1) table of a compilation drives the machine along the automaton. -/
theorem drives_slr1 (h : c.Built options source) :
    c.slr1.Drives c.grammar c.items c.dfa (Table.followInputs c.grammar c.sets) :=
  Table.drives_of_slr1 h.canonical h.slr1

/-- Both tables of a compilation drive the machine along the automaton. -/
theorem exists_drives {table : Table} (h : c.Built options source)
    (htable : table = c.lr0 ∨ table = c.slr1) :
    ∃ allowed, table.Drives c.grammar c.items c.dfa allowed := by
  rcases htable with rfl | rfl
  · exact ⟨_, h.drives_lr0⟩
  · exact ⟨_, h.drives_slr1⟩

end Built

end Compilation

end ShiftReduce
