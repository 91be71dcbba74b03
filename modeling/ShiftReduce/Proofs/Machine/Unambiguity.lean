import ShiftReduce.Proofs.Machine.Completeness

/-!
# Tables without conflicts make grammars unambiguous

If no cell of a table has two actions, the machine has no choice, and on one input it can follow one
parse only. Rightmost derivations are parses in reverse, so a grammar whose LR(0) or SLR(1) table
has no conflict gives every input at most one rightmost derivation.
-/

namespace ShiftReduce

namespace Machine

variable {g : Grammar} {table : Table} {m a b : Machine} {ids ids' : List RuleId}

/-- A machine with a table without conflicts has no choice. -/
theorem eq_of_mem_actions {action action' : Action}
    (htable : table.conflictCount = 0) (h : action ∈ m.actions table)
    (h' : action' ∈ m.actions table) : action = action' := by
  unfold actions at h h'
  cases hstack : m.stack with
  | nil => simp [hstack] at h
  | cons top below =>
    simp only [hstack] at h h'
    exact Table.eq_of_mem_cell htable h h'

/-- A machine with a table without conflicts has at most one step. -/
theorem Step.unique (htable : table.conflictCount = 0) (ha : Step g table m a)
    (hb : Step g table m b) : a = b := by
  cases ha with
  | shift hshift =>
    generalize hm : Machine.mk _ _ _ = m at hb
    cases hb with
    | shift hshift' =>
      cases hm
      cases eq_of_mem_actions htable hshift hshift'
      rfl
    | reduce hreduce =>
      rw [hm] at hshift
      cases eq_of_mem_actions htable hshift hreduce
  | reduce hreduce hrule hlength hgoto =>
    generalize hm : Machine.mk _ _ _ = m at hb
    cases hb with
    | shift hshift =>
      rw [hm] at hreduce
      cases eq_of_mem_actions htable hshift hreduce
    | reduce hreduce' hrule' hlength' hgoto' =>
      have haction := hreduce
      rw [hm] at haction
      cases eq_of_mem_actions htable haction hreduce'
      obtain rfl := Option.some.inj (hrule.symm.trans hrule')
      obtain ⟨hstack, rfl, rfl⟩ := Machine.mk.inj hm
      obtain ⟨rfl, htops⟩ := List.append_inj hstack (hlength.trans hlength'.symm)
      obtain ⟨rfl, rfl⟩ := List.cons.inj htops
      cases Table.eq_of_mem_cell htable hgoto hgoto'
      rfl

/-- How a trace starts: not at all, with a shift or with a reduction. -/
theorem Trace.cases_first (h : Trace g table ids m b) :
    (ids = [] ∧ m = b) ∨
    (∃ target next, .shift target ∈ m.actions table ∧ Step g table m next ∧
      Trace g table ids next b) ∨
    ∃ id ids' next, ids = id :: ids' ∧ .reduce id ∈ m.actions table ∧ Step g table m next ∧
      Trace g table ids' next b := by
  cases h with
  | refl => exact .inl ⟨rfl, rfl⟩
  | shift hshift hrest => exact .inr (.inl ⟨_, _, hshift, .shift hshift, hrest⟩)
  | reduce hreduce hrule hlength hgoto hrest =>
    exact .inr (.inr ⟨_, _, _, rfl, hreduce, .reduce hreduce hrule hlength hgoto, hrest⟩)

/-- A machine without choice that can get to a configuration in which it accepts is always on its
way there: every trace reduces by the first of the rules. -/
theorem Trace.ids_isPrefix (htable : table.conflictCount = 0) (h : Trace g table ids m a)
    (h' : Trace g table ids' m b) (hb : b.CanAccept table) : ids <+: ids' := by
  induction h generalizing ids' with
  | refl => exact List.nil_prefix
  | shift hshift _ ih =>
    rcases h'.cases_first with ⟨-, rfl⟩ | ⟨_, _, -, hstep, hrest⟩ | ⟨_, _, _, -, hreduce, -⟩
    · cases eq_of_mem_actions htable hb hshift
    · obtain rfl := Step.unique htable (.shift hshift) hstep
      exact ih hrest
    · cases eq_of_mem_actions htable hshift hreduce
  | reduce hreduce hrule hlength hgoto _ ih =>
    rcases h'.cases_first with ⟨-, rfl⟩ | ⟨_, _, hshift, -⟩ | ⟨_, _, _, rfl, hreduce', hstep, hrest⟩
    · cases eq_of_mem_actions htable hb hreduce
    · cases eq_of_mem_actions htable hreduce hshift
    · cases eq_of_mem_actions htable hreduce hreduce'
      obtain rfl := Step.unique htable (.reduce hreduce hrule hlength hgoto) hstep
      exact (List.prefix_cons_inj _).2 (ih hrest)

/-- Traces of a machine without choice that start together and end where the machine can accept
reduce by the same rules. -/
theorem Trace.ids_eq (htable : table.conflictCount = 0) (h : Trace g table ids m a)
    (h' : Trace g table ids' m b) (ha : a.CanAccept table) (hb : b.CanAccept table) :
    ids = ids' :=
  (ids_isPrefix htable h h' hb).eq_of_length_le (ids_isPrefix htable h' h ha).length_le

end Machine

namespace Grammar

/-- If the LR(0) or the SLR(1) table of a compilation has no conflict, then every input has at most
one rightmost derivation from the augmented start symbol. -/
theorem rightmost_unique {options : ReadOptions} {source : String} {c : Compilation}
    {u : List Symbol} {ids ids' : List RuleId} (hcompile : compile options source = .ok c)
    (hverdict : c.isSlr1 = true ∨ c.isLr0 = true) (hu : IsInput u)
    (h : c.grammar.Rightmost ids [.nonterminal start] u)
    (h' : c.grammar.Rightmost ids' [.nonterminal start] u) : ids = ids' := by
  have hbuilt := Compilation.built_of_compile hcompile
  obtain ⟨table, htable, hconflicts⟩ : ∃ table, (table = c.lr0 ∨ table = c.slr1) ∧
      table.conflictCount = 0 := by
    rcases hverdict with hslr1 | hlr0
    · exact ⟨c.slr1, .inr rfl, eq_of_beq hslr1⟩
    · exact ⟨c.lr0, .inl rfl, eq_of_beq hlr0⟩
  obtain ⟨allowed, hdrives, hpermits⟩ := hbuilt.exists_permits htable
  have htrace {ids : List RuleId} (h : c.grammar.Rightmost ids [.nonterminal start] u) :=
    Machine.exists_accepting_trace hbuilt.wellFormed.toLinked hbuilt.canonical hdrives hpermits
      (Parse.of_rightmost h hu)
  obtain ⟨reduced, m, hids, htrace₁, -, haccept⟩ := htrace h
  obtain ⟨reduced', m', hids', htrace₂, -, haccept'⟩ := htrace h'
  have heq := Machine.Trace.ids_eq hconflicts htrace₁ htrace₂ haccept haccept'
  rw [← List.reverse_inj, hids, hids', heq]

/-- For the rules `S -> 'a' S |` the SLR(1) table has no conflict, and every rightmost derivation of
`a $` uses the rules 0, 1 and 2 in this order. -/
theorem rightmost_unique_of_letter : ∃ c, compile {} "S -> 'a' S | ;" = .ok c ∧ c.isSlr1 = true ∧
    ∀ ids, c.grammar.Rightmost ids [.nonterminal start] [.terminal 0, .endOfInput] →
      ids = [0, 1, 2] := by
  have hsource : (compile {} "S -> 'a' S | ;").toOption.map (fun c => (c.grammar.rules, c.isSlr1)) =
      some (#[⟨0, [.nonterminal 1, .endOfInput]⟩, ⟨1, [.terminal 0, .nonterminal 1]⟩, ⟨1, []⟩],
        true) := by
    decide +kernel
  obtain ⟨c, hok, hparts⟩ := Option.map_eq_some_iff.1 hsource
  obtain ⟨hrules, hslr1⟩ := Prod.mk.inj hparts
  have hend : IsInput [.endOfInput] := by simp [IsInput, Symbol.isInput]
  have hrightmost : c.grammar.Rightmost [0, 1, 2] [.nonterminal start]
      [.terminal 0, .endOfInput] := by
    refine @Rightmost.step _ 0 _ ⟨0, [.nonterminal 1, .endOfInput]⟩ [] [] _ (by simp [hrules])
      (by simp [IsInput]) ?_
    refine @Rightmost.step _ 1 _ ⟨1, [.terminal 0, .nonterminal 1]⟩ [] [.endOfInput] _
      (by simp [hrules]) hend ?_
    exact @Rightmost.step _ 2 _ ⟨1, []⟩ [.terminal 0] [.endOfInput] _ (by simp [hrules]) hend
      (.refl _)
  have hcompile := eq_ok_of_toOption hok
  refine ⟨c, hcompile, hslr1, fun ids hids => ?_⟩
  exact rightmost_unique hcompile (.inl hslr1) (by simp [IsInput, Symbol.isInput]) hids hrightmost

end Grammar

end ShiftReduce
