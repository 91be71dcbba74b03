import Mathlib.Data.List.Infix
import ShiftReduce.Proofs.Dfa.ViablePrefix
import ShiftReduce.Proofs.Machine.Soundness
import ShiftReduce.Proofs.Machine.Unambiguity

/-!
# Tables without conflicts make the machine stop

If every non-terminal derives an input, then whatever the machine has consumed is the start of a
sentence: the form on its stack is a viable prefix. On that sentence the machine makes the same
reductions and then goes on to accept, although the next symbol may be another one. Without
conflicts it has no choice, so the reductions after some consumed symbols with a given next symbol
are bounded by those of one accepting run. There are only finitely many next symbols, and an input
has only finitely many prefixes.
-/

namespace ShiftReduce

/-- If each element of a list has a bound, there is one bound for all of them. -/
theorem exists_common_bound {α : Type} {P : α → Nat → Prop} (xs : List α)
    (h : ∀ x ∈ xs, ∃ bound, P x bound)
    (hmono : ∀ {x : α} {small large : Nat}, small ≤ large → P x small → P x large) :
    ∃ bound, ∀ x ∈ xs, P x bound := by
  induction xs with
  | nil => exact ⟨0, by simp⟩
  | cons x xs ih =>
    obtain ⟨first, hfirst⟩ := h x List.mem_cons_self
    obtain ⟨rest, hrest⟩ := ih fun y hy => h y (List.mem_cons_of_mem x hy)
    refine ⟨max first rest, List.forall_mem_cons.2 ⟨?_, fun y hy => ?_⟩⟩
    · exact hmono (Nat.le_max_left _ _) hfirst
    · exact hmono (Nat.le_max_right _ _) (hrest y hy)

namespace Machine

/-- A given number of steps. -/
inductive Steps (g : Grammar) (table : Table) : Nat → Machine → Machine → Prop
  | refl (m : Machine) : Steps g table 0 m m
  | step {count : Nat} {a b c : Machine} : Step g table a b → Steps g table count b c →
      Steps g table (count + 1) a c

/-- The machine comes to a configuration without steps, and no run is longer. -/
def Halts (g : Grammar) (table : Table) (m : Machine) : Prop :=
  ∃ count last, Steps g table count m last ∧ (∀ next, ¬ Step g table last next) ∧
    ∀ k other, Steps g table k m other → k ≤ count

variable {g : Grammar} {items : ItemTable} {dfa : Dfa} {table : Table}
  {allowed : RuleId → Except Failure (List Symbol)} {m m' a b : Machine} {ids : List RuleId}
  {u z form : List Symbol}

/-- One more step can be made after several. -/
theorem Steps.concat {count : Nat} (h : Steps g table count m a) (hstep : Step g table a b) :
    Steps g table (count + 1) m b := by
  induction h with
  | refl => exact .step hstep (.refl _)
  | step hfirst _ ih => exact .step hfirst (ih hstep)

/-- If the number of steps is bounded, a longest run ends where no step is left. -/
theorem halts_of_bounded {bound : Nat}
    (h : ∀ count other, Steps g table count m other → count ≤ bound) : Halts g table m := by
  classical
  let reached (count : Nat) : Prop := ∃ other, Steps g table count m other
  have hgreatest : reached (Nat.findGreatest reached bound) :=
    Nat.findGreatest_spec (Nat.zero_le bound) ⟨m, .refl m⟩
  have hmax : ∀ count other, Steps g table count m other →
      count ≤ Nat.findGreatest reached bound := fun count other hsteps =>
    Nat.le_findGreatest (h count other hsteps) ⟨other, hsteps⟩
  obtain ⟨last, hlast⟩ := hgreatest
  refine ⟨_, last, hlast, fun next hnext => ?_, hmax⟩
  exact absurd (hmax _ next (hlast.concat hnext)) (Nat.not_succ_le_self _)

/-- What a trace consumes comes from the input, and it can be followed with another rest of the
input that has the same next symbol. -/
theorem Trace.change_rest (h : Trace g table ids m m')
    (hnext : m'.input.headD .endOfInput = z.headD .endOfInput) :
    ∃ v, m.input = v ++ m'.input ∧ m'.consumed = m.consumed ++ v ∧
      Trace g table ids ⟨m.stack, m.consumed, v ++ z⟩ ⟨m'.stack, m'.consumed, z⟩ := by
  induction h with
  | refl m => exact ⟨[], rfl, (List.append_nil _).symm, .refl _⟩
  | @shift _ _ _ _ X _ _ hshift _ ih =>
    obtain ⟨v, hinput, hconsumed, htrace⟩ := ih hnext
    refine ⟨X :: v, congrArg (X :: ·) hinput, ?_, .shift hshift htrace⟩
    rw [hconsumed, List.append_assoc]
    rfl
  | @reduce _ _ _ _ _ _ input _ _ last hreduce hrule hlength hgoto _ ih =>
    obtain ⟨v, hinput, hconsumed, htrace⟩ := ih hnext
    refine ⟨v, hinput, hconsumed, .reduce ?_ hrule hlength hgoto htrace⟩
    have hsame : input.headD .endOfInput = (v ++ z).headD .endOfInput := by
      rw [show input = v ++ last.input from hinput]
      cases v with
      | nil => exact hnext
      | cons X v => rfl
    simpa only [actions, lookahead, hsame] using hreduce

/-- Steps are shifts, which consume a symbol each, and reductions. -/
theorem Steps.exists_trace {count : Nat} (h : Steps g table count m m') :
    ∃ ids, Trace g table ids m m' ∧
      count + m.consumed.length = ids.length + m'.consumed.length := by
  induction h with
  | refl => exact ⟨[], .refl _, rfl⟩
  | step hstep _ ih =>
    obtain ⟨ids, htrace, hcount⟩ := ih
    cases hstep with
    | shift hshift =>
      refine ⟨ids, .shift hshift htrace, ?_⟩
      simp only [List.length_append, List.length_singleton] at hcount
      dsimp only
      omega
    | reduce hreduce hrule hlength hgoto =>
      refine ⟨_, .reduce hreduce hrule hlength hgoto htrace, ?_⟩
      simp only [List.length_cons] at hcount ⊢
      omega

/-- A trace keeps the stack a path, and completes the rules that it reduces by. -/
theorem Holds.trace {done : List RuleId} (h : Holds g dfa done form m.stack m.consumed)
    (hdfa : dfa.Canonical g items) (htable : table.Drives g items dfa allowed)
    (htrace : Trace g table ids m m') :
    ∃ form', Holds g dfa (done ++ ids) form' m'.stack m'.consumed := by
  induction htrace generalizing done form with
  | refl => exact ⟨form, by rwa [List.append_nil]⟩
  | shift hshift _ ih => exact ih (h.shift htable hshift)
  | reduce hreduce hrule hlength hgoto _ ih =>
    obtain ⟨form', hnext⟩ := h.reduce hdfa htable hreduce hrule hlength hgoto
    obtain ⟨form'', hlast⟩ := ih hnext
    rw [List.append_assoc] at hlast
    exact ⟨form'', hlast⟩

section Enters

/-- The machine gets to each non-terminal of a form: with what the form derives as input, it can
consume what stands before the non-terminal, reduce by the rules of a parse of it, and then has the
starts of all rules of the non-terminal in the top state. These rules may be ended on what comes
after the non-terminal. -/
def Enters (g : Grammar) (items : ItemTable) (dfa : Dfa) (table : Table)
    (allowed : RuleId → Except Failure (List Symbol)) (form : List Symbol) : Prop :=
  ∀ ⦃before after u x w : List Symbol⦄ ⦃n : NonterminalId⦄ ⦃ids ids' ids'' : List RuleId⦄,
    form = before ++ .nonterminal n :: after → g.Parse ids before u →
    g.Parse ids' [.nonterminal n] x → g.Parse ids'' after w →
    ∃ top below, Trace g table ids (start (u ++ (x ++ w))) ⟨top :: below, u, x ++ w⟩ ∧
      ∀ id, g.Heads n id → (⟨id, 0⟩ : Item) ∈ dfa.itemsAt items top ∧
        Table.Allows allowed id (w.headD .endOfInput)

variable (hg : g.Linked) (hdfa : dfa.Canonical g items)
  (htable : table.Drives g items dfa allowed) (hpermits : Table.Permits g allowed)

include hg hdfa hpermits

/-- The machine is at the start symbol before it has read anything. -/
theorem enters_start : Enters g items dfa table allowed [.nonterminal Grammar.start] := by
  intro before after u x w n ids ids' ids'' hform hbefore _ hafter
  obtain ⟨rfl, hn, rfl⟩ := Grammar.of_singleton_eq hform
  cases hbefore
  cases hafter
  refine ⟨Dfa.start, [], .refl _, ?_⟩
  rintro id ⟨rule, hrule, hhead⟩
  rw [hg.head_start hrule (hhead.trans (Symbol.nonterminal.inj hn)), hdfa.itemsAt_start]
  exact ⟨Grammar.subset_closure g _ (Set.mem_singleton _), hpermits.augmented⟩

include htable

/-- From the head of a rule the machine gets to any place in the body. -/
theorem Enters.inner {before after front rest u u' x w : List Symbol}
    {ids₁ ids₂ ids₃ ids₄ : List RuleId} {id : RuleId} {rule : Rule}
    (h : Enters g items dfa table allowed (before ++ .nonterminal rule.head :: after))
    (hrule : g.rules[id]? = some rule) (hbody : rule.body = front ++ rest)
    (hbefore : g.Parse ids₁ before u) (hfront : g.Parse ids₂ front u')
    (hrest : g.Parse ids₃ rest x) (hafter : g.Parse ids₄ after w) :
    ∃ top below, Trace g table (ids₁ ++ ids₂) (start (u ++ u' ++ (x ++ w)))
        ⟨top :: below, u ++ u', x ++ w⟩ ∧ (⟨id, front.length⟩ : Item) ∈ dfa.itemsAt items top ∧
      Table.Allows allowed id (w.headD .endOfInput) := by
  have hhead : g.Parse _ [.nonterminal rule.head] ((u' ++ x) ++ []) :=
    .rule hrule (by rw [hbody]; exact hfront.append hrest) .nil
  rw [List.append_nil] at hhead
  obtain ⟨top, below, htrace, hrules⟩ := h rfl hbefore hhead hafter
  obtain ⟨hitem, hallows⟩ := hrules id ⟨rule, hrule, rfl⟩
  obtain ⟨pushed, top', below', -, hstack, hitem', htrace'⟩ :=
    completes_of_parse_append hg hdfa htable hpermits hfront hrest hrule
      (by rw [List.drop_zero, hbody]) hitem hallows below u
  rw [List.append_assoc u' x w] at htrace
  have hall := htrace.trans htrace'
  rw [hstack, ← List.append_assoc u u'] at hall
  rw [Nat.zero_add] at hitem'
  exact ⟨top', below', hall, hitem', hallows⟩

/-- A rightmost step keeps a form one that the machine can enter. -/
theorem Enters.replace {before after : List Symbol} {id : RuleId} {rule : Rule}
    (h : Enters g items dfa table allowed (before ++ .nonterminal rule.head :: after))
    (hrule : g.rules[id]? = some rule) (hafter : Grammar.IsInput after) :
    Enters g items dfa table allowed (before ++ rule.body ++ after) := by
  intro left right u x w n ids ids' ids'' hform hleft hn hright
  -- The non-terminal stands before the replaced one, in its body, or after it, where only input is.
  rcases Grammar.occurrence_cases hform with ⟨rest, rfl, rfl⟩ | ⟨front, rest, hbody, rfl, rfl⟩ |
    ⟨front, hinput, -⟩
  · obtain ⟨_, _, _, -, -, hparse⟩ := hright.unstep hrule
    refine h ?_ hleft hn hparse
    rw [List.append_assoc, List.cons_append]
  · obtain ⟨ids₁, ids₂, u₁, u₂, rfl, rfl, hbefore, hfront⟩ := hleft.split
    obtain ⟨ids₃, ids₄, w₁, w₂, rfl, rfl, hrest, hlast⟩ := hright.split
    obtain ⟨top, below, htrace, hitem, hallows⟩ :=
      h.inner hg hdfa htable hpermits hrule hbody hbefore hfront (hn.append hrest) hlast
    rw [List.append_assoc x] at htrace
    refine ⟨top, below, htrace, ?_⟩
    rintro id' ⟨rule', hrule', rfl⟩
    have hawaits : Item.Awaits g ⟨id, front.length⟩ (.nonterminal rule'.head) :=
      ⟨rule, hrule, by simp [hbody]⟩
    exact ⟨hdfa.closed_itemsAt top _ hitem _ hawaits id' ⟨rule', hrule', rfl⟩,
      hpermits.inner hrule hrule' hbody hrest hallows⟩
  · have hn : (Symbol.nonterminal n).isInput = true := hafter _ (by simp [hinput])
    exact absurd hn Bool.false_ne_true

/-- The machine can enter the forms of rightmost derivations. -/
theorem Enters.of_rightmost {form' : List Symbol} (h : Enters g items dfa table allowed form)
    (hderives : g.Rightmost ids form form') : Enters g items dfa table allowed form' := by
  induction hderives with
  | refl => exact h
  | step hrule hafter _ ih => exact ih (h.replace hg hdfa htable hpermits hrule hafter)

/-- If an item is valid for a form, what the form derives is the start of a sentence, on which the
machine reduces by the rules of the parse of the form before it consumes more. -/
theorem exists_sentence_of_validFor {item : Item} (hproductive : g.AllProductive)
    (hvalid : item.ValidFor g form) (hparse : g.Parse ids form u) :
    ∃ z stack, g.Sentence (u ++ z) ∧ Trace g table ids (start (u ++ z)) ⟨stack, u, z⟩ := by
  obtain ⟨rule, before, after, steps, hrule, -, rfl, hafter, hderives⟩ := hvalid
  obtain ⟨ids₁, ids₂, u₁, u₂, rfl, rfl, hbefore, hfront⟩ := hparse.split
  have hrest : ∀ X ∈ rule.body.drop item.dot, X.In g :=
    fun X hX => hg.body_in hrule X (List.mem_of_mem_drop hX)
  obtain ⟨ids₃, v, hrest⟩ := hproductive.exists_parse hrest
  have hlast : g.Parse [] after after := Grammar.parse_of_isInput hafter
  have hbody : rule.body = rule.body.take item.dot ++ rule.body.drop item.dot :=
    (List.take_append_drop _ _).symm
  have henters := (enters_start hg hdfa hpermits).of_rightmost hg hdfa htable hpermits hderives
  obtain ⟨top, below, htrace, -⟩ :=
    henters.inner hg hdfa htable hpermits hrule hbody hbefore hfront hrest hlast
  refine ⟨v ++ after, top :: below, ⟨?_, ?_⟩, htrace⟩
  · exact List.forall_mem_append.2 ⟨hparse.isInput,
      List.forall_mem_append.2 ⟨hrest.isInput, hafter⟩⟩
  · have hform : before ++ rule.body ++ after =
        before ++ rule.body.take item.dot ++ (rule.body.drop item.dot ++ after) := by
      conv_lhs => rw [hbody]
      simp only [List.append_assoc]
    have hstep := Grammar.Step.replace before after hrule
    rw [hform] at hstep
    exact hderives.derives.trans (.step hstep (hparse.append (hrest.append hlast)).derives)

end Enters

section Bounded

variable (hg : g.Linked) (hdfa : dfa.Canonical g items)
  (htable : table.Drives g items dfa allowed) (hpermits : Table.Permits g allowed)
  (hconflicts : table.conflictCount = 0)

include hg hdfa htable hpermits hconflicts

/-- On all sentences with the same start `u` and the same symbol after it, the machine makes not
more reductions before it consumes that symbol than on one of them in all. -/
theorem exists_bound_of_next (u : List Symbol) (X : Symbol) :
    ∃ bound, ∀ z stack ids, g.Sentence (u ++ z) → z.headD .endOfInput = X →
      Trace g table ids (start (u ++ z)) ⟨stack, u, z⟩ → ids.length ≤ bound := by
  by_cases hsome : ∃ z, g.Sentence (u ++ z) ∧ z.headD .endOfInput = X
  · obtain ⟨z, ⟨hinput, hderives⟩, hX⟩ := hsome
    obtain ⟨all, hparse⟩ := Grammar.Parse.exists_of_derives hderives hinput
    obtain ⟨reduced, last, -, haccepting, -, haccept⟩ :=
      exists_accepting_trace hg hdfa htable hpermits hparse
    refine ⟨reduced.length, fun z' stack ids _ hX' htrace => ?_⟩
    -- Up to here the machine does not see the difference between the two sentences.
    obtain ⟨v, hv, -, hmoved⟩ := htrace.change_rest (z := z) (hX'.trans hX.symm)
    obtain rfl := List.append_cancel_right hv
    exact (hmoved.ids_isPrefix hconflicts haccepting haccept).length_le
  · exact ⟨0, fun z _ _ hz hX _ => absurd ⟨z, hz, hX⟩ hsome⟩

/-- On all sentences that start with `u`, the reductions before more than `u` is consumed are
bounded: the next symbol is one of finitely many. -/
theorem exists_bound_of_start (u : List Symbol) :
    ∃ bound, ∀ z stack ids, g.Sentence (u ++ z) →
      Trace g table ids (start (u ++ z)) ⟨stack, u, z⟩ → ids.length ≤ bound := by
  obtain ⟨bound, hbound⟩ := exists_common_bound g.columns
    (fun X _ => exists_bound_of_next hg hdfa htable hpermits hconflicts u X)
    (fun hle hbound z stack ids hz hX htrace => (hbound z stack ids hz hX htrace).trans hle)
  refine ⟨bound, fun z stack ids hz htrace => hbound _ ?_ z stack ids hz rfl htrace⟩
  cases z with
  | nil => exact g.endOfInput_mem_columns
  | cons X z =>
    have hstart : ∀ X ∈ [Symbol.nonterminal Grammar.start], X ∈ g.columns := by
      intro X hX
      rw [List.mem_singleton.1 hX, Grammar.nonterminal_mem_columns]
      exact hg.head_lt hg.augmented
    exact hz.2.mem_columns hg.toCrossReferenced hstart X (by simp)

/-- On an input, sentence or not, the machine makes a bounded number of reductions. -/
theorem exists_bound_of_input (hproductive : g.AllProductive) (input : List Symbol) :
    ∃ bound, ∀ ids m, Trace g table ids (start input) m → ids.length ≤ bound := by
  obtain ⟨bound, hbound⟩ := exists_common_bound input.inits
    (fun u _ => exists_bound_of_start hg hdfa htable hpermits hconflicts u)
    (fun hle hbound z stack ids hz htrace => (hbound z stack ids hz htrace).trans hle)
  refine ⟨bound, fun ids m htrace => ?_⟩
  obtain ⟨form, hholds⟩ := Holds.trace (m := start input) .bottom hdfa htable htrace
  obtain ⟨v, hinput, hconsumed, -⟩ := htrace.change_rest (z := m.input) rfl
  have hprefix : m.consumed ∈ input.inits := by
    rw [List.mem_inits, hconsumed]
    exact ⟨m.input, hinput.symm⟩
  obtain ⟨stack, consumed, rest⟩ := m
  cases stack with
  | nil => cases hholds
  | cons s stack =>
    have hwalk := hholds.walk
    -- The top state has an item, which is valid for the form on the stack.
    obtain ⟨item, hitem⟩ := hdfa.itemsAt_nonempty (hdfa.lt_of_walk hdfa.nonempty hwalk)
    rw [hdfa.itemsAt_walk hwalk, hdfa.itemsAt_start] at hitem
    obtain ⟨z, stack, hsentence, hsame⟩ := exists_sentence_of_validFor hg hdfa htable hpermits
      hproductive (.of_mem_reached hg hproductive hitem) hholds.parse
    exact hbound _ hprefix z stack ids hsentence hsame

/-- The machine stops on every input. -/
theorem halts_start (hproductive : g.AllProductive) (input : List Symbol) :
    Halts g table (start input) := by
  obtain ⟨bound, hbound⟩ :=
    exists_bound_of_input hg hdfa htable hpermits hconflicts hproductive input
  have hsteps : ∀ count m, Steps g table count (start input) m → count ≤ bound + input.length := by
    intro count m hsteps
    obtain ⟨ids, htrace, hcount⟩ := hsteps.exists_trace
    obtain ⟨v, hinput, hconsumed, -⟩ := htrace.change_rest (z := m.input) rfl
    have hlength : m.consumed.length ≤ input.length := by
      rw [hconsumed, show input = v ++ m.input from hinput]
      simp [start]
    have hids := hbound ids m htrace
    simp only [start, List.length_nil] at hcount
    omega
  exact halts_of_bounded hsteps

end Bounded

/-- If every non-terminal of a compilation derives an input, then the machine with a table without
conflicts, SLR(1) or LR(0), has at most one step in each configuration and stops on every input,
sentence or not. -/
theorem halts_of_no_conflicts {options : ReadOptions} {source : String} {c : Compilation}
    (hcompile : compile options source = .ok c) (hproductive : c.grammar.AllProductive) :
    (c.isSlr1 = true → (∀ m a b, Step c.grammar c.slr1 m a → Step c.grammar c.slr1 m b → a = b) ∧
      ∀ input, Halts c.grammar c.slr1 (start input)) ∧
    (c.isLr0 = true → (∀ m a b, Step c.grammar c.lr0 m a → Step c.grammar c.lr0 m b → a = b) ∧
      ∀ input, Halts c.grammar c.lr0 (start input)) := by
  have hbuilt := Compilation.built_of_compile hcompile
  have hhalts {table : Table} (htable : table = c.lr0 ∨ table = c.slr1)
      (hconflicts : table.conflictCount = 0) :
      (∀ m a b, Step c.grammar table m a → Step c.grammar table m b → a = b) ∧
        ∀ input, Halts c.grammar table (start input) := by
    obtain ⟨allowed, hdrives, hpermits⟩ := hbuilt.exists_permits htable
    exact ⟨fun m a b ha hb => ha.unique hconflicts hb, halts_start hbuilt.wellFormed.toLinked
      hbuilt.canonical hdrives hpermits hconflicts hproductive⟩
  exact ⟨fun hslr1 => hhalts (.inr rfl) (eq_of_beq hslr1),
    fun hlr0 => hhalts (.inl rfl) (eq_of_beq hlr0)⟩

/-- For the rules `S -> 'a' S |`, in which both non-terminals derive an input, the SLR(1) table has
no conflict, and the machine stops on `$ a`, which is not a sentence. -/
theorem halts_of_no_conflicts_of_letter : ∃ c, compile {} "S -> 'a' S | ;" = .ok c ∧
    c.grammar.AllProductive ∧ c.isSlr1 = true ∧
    Halts c.grammar c.slr1 (start [.endOfInput, .terminal 0]) := by
  have hsource : (compile {} "S -> 'a' S | ;").toOption.map (fun c => (c.grammar.rules,
      c.grammar.nonterminals.size, c.isSlr1)) = some (#[⟨0, [.nonterminal 1, .endOfInput]⟩,
        ⟨1, [.terminal 0, .nonterminal 1]⟩, ⟨1, []⟩], 2, true) := by
    decide +kernel
  obtain ⟨c, hok, hparts⟩ := Option.map_eq_some_iff.1 hsource
  obtain ⟨hrules, hsize, hslr1⟩ := by simpa only [Prod.mk.injEq] using hparts
  have hrule0 : c.grammar.rules[0]? = some ⟨0, [.nonterminal 1, .endOfInput]⟩ := by simp [hrules]
  have hrule2 : c.grammar.rules[2]? = some ⟨1, []⟩ := by simp [hrules]
  have hS := Grammar.derives_of_rule hrule2
  have hproductive : c.grammar.AllProductive := by
    intro n hn
    obtain rfl | rfl : n = 0 ∨ n = 1 := by omega
    · exact ⟨[.endOfInput], by simp [Grammar.IsInput, Symbol.isInput],
        (Grammar.derives_of_rule hrule0).trans (hS.append_right [.endOfInput])⟩
    · exact ⟨[], by simp [Grammar.IsInput], hS⟩
  have hcompile := eq_ok_of_toOption hok
  exact ⟨c, hcompile, hproductive, hslr1,
    ((halts_of_no_conflicts hcompile hproductive).1 hslr1).2 _⟩

end Machine

end ShiftReduce
