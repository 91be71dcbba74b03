import ShiftReduce.Proofs.Bounds.Automata
import ShiftReduce.Proofs.Bounds.Reader
import ShiftReduce.Proofs.Compilation

/-!
# Compilations under bounds

Bounds decide only whether a compilation gets finished. A compilation under bounds succeeds exactly
if everything that the compilation without bounds builds fits into the bounds, and then it builds
the same. Otherwise it names a store whose bound is too small.
-/

namespace ShiftReduce

open Charged

namespace Compilation

/-- The sizes of what a compilation has built in a store. States and transitions are built for two
automata, and the bound on a store is one for both. -/
def counts (c : Compilation) : Store → List Nat
  | .symbols => [c.grammar.terminals.size + c.grammar.nonterminals.size]
  | .rules => [c.grammar.rules.size]
  | .items => [c.items.size]
  | .states => [c.nfa.states.size, c.dfa.states.size]
  | .transitions => [c.nfa.edges.size, c.dfa.edges.size]
  | .nameLength => [c.grammar.stats.longestName]

/-- Nothing that a compilation has built is past its bound. -/
def Fits (c : Compilation) (bounds : Bounds) : Prop :=
  ∀ store bound, bounds.bound store = some bound → ∀ count ∈ c.counts store, count ≤ bound

/-- The same compilation, whose table of items carries other bounds. -/
def withBounds (c : Compilation) (bounds : Bounds) : Compilation :=
  { c with items := { c.items with bounds } }

/-- A compilation takes the room of its grammar, its automata and its items. -/
instance : Charged Compilation where
  load c := load c.grammar ⊔ load c.nfa ⊔ load c.dfa ⊔ load c.items
  under bounds c := c.withBounds bounds

/-- The load of a compilation in a store is the largest of its counts. -/
theorem lt_load_iff {c : Compilation} {store : Store} {bound : Nat} :
    bound < load c store ↔ ∃ count ∈ c.counts store, bound < count := by
  cases store <;> simp [load, Load.single, counts]

/-- A compilation fits into bounds if they admit its load. -/
theorem fits_iff_admits {c : Compilation} {bounds : Bounds} :
    c.Fits bounds ↔ bounds.Admits (load c) := by
  refine forall_congr' fun store => forall_congr' fun bound => imp_congr_right fun _ => ?_
  rw [← not_lt, lt_load_iff]
  simp

/-- Under bounds a source is compiled as without bounds, as long as there is room. -/
theorem curtails_compile (options : ReadOptions) (source : String) :
    options.bounds.Curtails ⊥ (compile options.unbounded source) (compile options source) := by
  rw [compile_eq, compile_eq]
  refine (Grammar.curtails_ofSource options source).bind fun grammar => ?_
  -- The item automaton starts from a table without items, which takes no room.
  have hempty : load grammar ⊔ load (ItemTable.empty .unbounded) = load grammar := by
    have hbot : load (ItemTable.empty .unbounded) = ⊥ := by
      funext store
      cases store <;> rfl
    rw [hbot, sup_bot_eq]
  have hnfa : options.bounds.CurtailsFrom _ _ _ _ :=
    Nfa.curtails_build grammar (ItemTable.empty .unbounded)
  rw [← hempty]
  refine Bounds.Curtails.bind_beside hnfa fun ⟨nfa, items⟩ => ?_
  rw [load_pair, ← sup_assoc]
  have hdfa : options.bounds.CurtailsFrom _ _ _ _ := Dfa.curtails_build grammar items
  refine Bounds.Curtails.bind_beside hdfa fun ⟨dfa, items⟩ => ?_
  -- Look-ahead and tables take no room of their own.
  refine .step_bind fun sets _ => .step_bind fun lr0 _ => .step_bind fun slr1 _ => ?_
  refine .step_bind fun diff _ => ?_
  refine .pure (Compilation.mk grammar items nfa dfa sets lr0 slr1 diff) ?_
  rw [load_pair, ← sup_assoc]
  rfl

end Compilation

open Compilation

/-- Bounds decide only whether a compilation gets finished. If a source compiles without bounds, it
compiles under bounds exactly if everything fits, and to the same parts. Otherwise a store is named
whose bound is below what there is to build. A source that does not compile without bounds fails
under bounds in the same way, or because a store is full before. -/
theorem compile_under_bounds (options : ReadOptions) (source : String) :
    match compile options.unbounded source with
    | .ok c =>
      ((∃ c', compile options source = .ok c') ↔ c.Fits options.bounds) ∧
        (c.Fits options.bounds → compile options source = .ok (c.withBounds options.bounds)) ∧
        (¬ c.Fits options.bounds → ∃ store bound, options.bounds.bound store = some bound ∧
          (∃ count ∈ c.counts store, bound < count) ∧
          compile options source = .error (.full store bound))
    | .error failure =>
      compile options source = .error failure ∨ ∃ store bound,
        options.bounds.bound store = some bound ∧
          compile options source = .error (.full store bound) := by
  have hcurtailed := (curtails_compile options source).curtailed (Bounds.admits_bot _)
  generalize compile options.unbounded source = free at hcurtailed ⊢
  generalize compile options source = bounded at hcurtailed ⊢
  cases hcurtailed with
  | @ok c hadmits =>
    have hfits : c.Fits options.bounds := fits_iff_admits.2 hadmits
    exact ⟨iff_of_true ⟨_, rfl⟩ hfits, fun _ => rfl, fun hnot => absurd hfits hnot⟩
  | error failure => exact .inl rfl
  | @full _ store bound hbound hlt =>
    cases free with
    | error failure => exact .inr ⟨store, bound, hbound, rfl⟩
    | ok c =>
      have hcount := lt_load_iff.1 (hlt c rfl)
      have hnot : ¬ c.Fits options.bounds := by
        intro hfits
        obtain ⟨count, hmem, hpast⟩ := hcount
        have hle := hfits store bound hbound count hmem
        omega
      have hnone : ¬ ∃ c' : Compilation, Except.error (Failure.full store bound) = .ok c' := by
        rintro ⟨c', hc'⟩
        cases hc'
      exact ⟨iff_of_false hnone hnot, fun hfits => absurd hfits hnot,
        fun _ => ⟨store, bound, hbound, hcount, rfl⟩⟩

/-- For the rules `S -> 'a' S |`: with bounds that are just large enough for everything, the source
compiles as without bounds. With room for six states it does not, since the item automaton has
seven. -/
theorem compile_under_bounds_of_letters : ∃ c,
    compile {} "S -> 'a' S | ;" = .ok c ∧
    (let bounds : Bounds := ⟨some 3, some 3, some 7, some 7, some 8, some 2⟩;
      c.Fits bounds ∧ compile { bounds } "S -> 'a' S | ;" = .ok (c.withBounds bounds)) ∧
    ¬ c.Fits { states := some 6 } ∧
    compile { bounds := { states := some 6 } } "S -> 'a' S | ;" = .error (.full .states 6) := by
  have hsource : (compile {} "S -> 'a' S | ;").toOption.map (fun c =>
      [.symbols, .rules, .items, .states, .transitions, .nameLength].map c.counts) =
      some [[3], [3], [7], [7, 5], [8, 5], [2]] := by
    decide +kernel
  obtain ⟨c, hok, hcounts⟩ := Option.map_eq_some_iff.1 hsource
  simp only [List.map_cons, List.map_nil, List.cons.injEq, and_true] at hcounts
  obtain ⟨hsymbols, hrules, hitems, hstates, htransitions, hnames⟩ := hcounts
  have hcompile := eq_ok_of_toOption hok
  have hfree (bounds : Bounds) :
      compile (ReadOptions.unbounded { bounds }) "S -> 'a' S | ;" = .ok c := hcompile
  have hfits : c.Fits ⟨some 3, some 3, some 7, some 7, some 8, some 2⟩ := by
    intro store bound hbound
    cases store <;> cases hbound <;>
      simp [hsymbols, hrules, hitems, hstates, htransitions, hnames]
  have htight : ¬ c.Fits { states := some 6 } := by
    intro hfits
    have hseven := hfits .states 6 rfl 7 (by simp [hstates])
    exact absurd hseven (by decide)
  have hroom := compile_under_bounds
    { bounds := ⟨some 3, some 3, some 7, some 7, some 8, some 2⟩ } "S -> 'a' S | ;"
  have hfull := compile_under_bounds { bounds := { states := some 6 } } "S -> 'a' S | ;"
  simp only [hfree] at hroom hfull
  obtain ⟨store, bound, hbound, -, hfails⟩ := hfull.2.2 htight
  refine ⟨c, hcompile, ⟨hfits, hroom.2.1 hfits⟩, htight, ?_⟩
  cases store <;> cases hbound
  exact hfails

end ShiftReduce
