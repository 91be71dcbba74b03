import ShiftReduce.Machine
import ShiftReduce.Proofs.Compilation
import ShiftReduce.Proofs.Lookahead.Follow

/-!
# The machine accepts everything that the grammar derives

The machine follows a parse: where an item of the top state has a form after its dot, the machine
can consume what the form derives, reduce by the rules of the parse in their order, and get to the
item with the dot at the end. All that this needs of a table is that it allows to end a rule on
every symbol that can come after it. The LR(0) table does because it allows all input symbols, and
the SLR(1) table does because the FOLLOW sets are closed under the rules.
-/

namespace ShiftReduce

namespace Table

variable {g : Grammar} {dfa : Dfa} {sets : Lookahead}
  {allowed : RuleId → Except Failure (List Symbol)} {id : RuleId} {rule : Rule} {X : Symbol}

/-- Rules may be ended on all symbols that can come after them in an input. -/
structure Permits (g : Grammar) (allowed : RuleId → Except Failure (List Symbol)) : Prop where
  /-- The augmented rule is ended at the end of the input. -/
  augmented : Allows allowed augmentedRule .endOfInput
  /-- After a non-terminal in a body comes what the rest of the body derives, and then what comes
  after the rule of the body. -/
  inner : ∀ {id id' : RuleId} {rule rule' : Rule} {before rest u w : List Symbol}
    {ids : List RuleId}, g.rules[id]? = some rule → g.rules[id']? = some rule' →
    rule.body = before ++ .nonterminal rule'.head :: rest → g.Parse ids rest u →
    Allows allowed id (w.headD .endOfInput) → Allows allowed id' ((u ++ w).headD .endOfInput)

/-- The LR(0) table permits what can come after a rule. -/
theorem permits_inputs (hg : g.CrossReferenced) :
    Permits g fun _ => .ok (shapeOf g dfa).inputs := by
  refine ⟨allows_inputs.2 ⟨rfl, _, rfl⟩, ?_⟩
  intro id id' rule rule' before rest u w ids hrule _ hbody hparse hw
  cases u with
  | nil => exact hw
  | cons a u =>
    have ha : a.In g := by
      refine hparse.symbols_in hg (fun X hX => hg.body_in hrule X ?_) a List.mem_cons_self
      simp [hbody, hX]
    have hinput := hparse.isInput a List.mem_cons_self
    refine allows_inputs.2 ⟨hinput, ?_⟩
    cases a with
    | terminal t => exact ⟨t, if_pos ha⟩
    | endOfInput => exact ⟨_, rfl⟩
    | nonterminal n => exact absurd hinput Bool.false_ne_true
    | epsilon => exact absurd hinput Bool.false_ne_true

/-- A symbol on which the SLR(1) table ends a rule can follow the head of the rule. -/
theorem mem_follows_of_allows (hg : g.Linked) (hsets : sets.Closed g)
    (hrule : g.rules[id]? = some rule) (h : Allows (followInputs g sets) id X) :
    X ∈ sets.follows.elements rule.head := by
  rw [allows_followInputs] at h
  split at h
  · rename_i heq
    rw [heq, hg.augmented] at hrule
    obtain rfl := Option.some.inj hrule
    rw [h]
    exact hsets.start
  · obtain ⟨-, rule', follows, hrule', hfollows, hX⟩ := h
    obtain rfl := Option.some.inj (hrule.symm.trans hrule')
    rw [Lookahead.follow, entry_eq_ok] at hfollows
    rwa [SetFamily.elements_eq hfollows]

/-- The SLR(1) table ends a rule other than the augmented one on all symbols that can follow its
head. -/
theorem allows_of_mem_follows (hg : g.CrossReferenced) (hsets : sets.Closed g)
    (hrule : g.rules[id]? = some rule) (hid : id ≠ augmentedRule)
    (hX : X ∈ sets.follows.elements rule.head) : Allows (followInputs g sets) id X := by
  have hinput : X.isInput = true :=
    Grammar.isInput_of_mem_inputSymbols (hsets.follows.within.subset rule.head hX)
  rw [allows_followInputs, if_neg hid]
  refine ⟨hinput, rule, sets.follows.elements rule.head, hrule, ?_, hX⟩
  have hhead : rule.head < sets.follows.size := hsets.follows.size_eq ▸ hg.head_lt hrule
  exact entry_eq_ok.2 (SetFamily.getElem?_sets hhead)

/-- The SLR(1) table permits what can come after a rule. -/
theorem permits_followInputs (hg : g.Linked) (hsets : sets.Closed g) :
    Permits g (followInputs g sets) := by
  refine ⟨allows_followInputs.2 (by rw [if_pos rfl]), ?_⟩
  intro id id' rule rule' before rest u w ids hrule hrule' hbody hparse hw
  have hid' : id' ≠ augmentedRule := hg.ne_augmentedRule hrule hrule' (by simp [hbody])
  refine allows_of_mem_follows hg.toCrossReferenced hsets hrule' hid' ?_
  exact hsets.follow_of_parse hg.toCrossReferenced (Array.mem_of_getElem? hrule) hbody hparse
    (mem_follows_of_allows hg hsets hrule hw)

end Table

namespace Machine

/-- Steps of the machine with the rules that it reduces by, in their order. -/
inductive Trace (g : Grammar) (table : Table) : List RuleId → Machine → Machine → Prop
  | refl (m : Machine) : Trace g table [] m m
  | shift {ids : List RuleId} {stack : List StateId} {consumed rest : List Symbol} {X : Symbol}
      {target : StateId} {m : Machine} :
      .shift target ∈ actions table ⟨stack, consumed, X :: rest⟩ →
      Trace g table ids ⟨target :: stack, consumed ++ [X], rest⟩ m →
      Trace g table ids ⟨stack, consumed, X :: rest⟩ m
  | reduce {ids : List RuleId} {popped below : List StateId} {top target : StateId}
      {consumed input : List Symbol} {id : RuleId} {rule : Rule} {m : Machine} :
      .reduce id ∈ actions table ⟨popped ++ top :: below, consumed, input⟩ →
      g.rules[id]? = some rule → popped.length = rule.length →
      .goto target ∈ table.cell top (.nonterminal rule.head) →
      Trace g table ids ⟨target :: top :: below, consumed, input⟩ m →
      Trace g table (id :: ids) ⟨popped ++ top :: below, consumed, input⟩ m

variable {g : Grammar} {items : ItemTable} {dfa : Dfa} {table : Table}
  {allowed : RuleId → Except Failure (List Symbol)} {m m' m'' : Machine} {ids ids' : List RuleId}
  {Xs u : List Symbol}

/-- A trace is a run. -/
theorem Trace.run (h : Trace g table ids m m') : Run g table m m' := by
  induction h with
  | refl => exact .refl _
  | shift hshift _ ih => exact .step (.shift hshift) ih
  | reduce hreduce hrule hlength hgoto _ ih =>
    exact .step (.reduce hreduce hrule hlength hgoto) ih

/-- Runs can be put one after the other, and so can their rules. -/
theorem Trace.trans (h : Trace g table ids m m') (h' : Trace g table ids' m' m'') :
    Trace g table (ids ++ ids') m m'' := by
  induction h with
  | refl => exact h'
  | shift hshift _ ih => exact .shift hshift (ih h')
  | reduce hreduce hrule hlength hgoto _ ih => exact .reduce hreduce hrule hlength hgoto (ih h')

/-- With `u ++ w` still to come and `s` on top of the stack, the machine can consume `u`, reduce by
the listed rules and push a state for each symbol of a form, and then has the item in the top
state. -/
def Completes (g : Grammar) (items : ItemTable) (dfa : Dfa) (table : Table) (ids : List RuleId)
    (form u w : List Symbol) (item : Item) (s : StateId) : Prop :=
  ∀ stack consumed, ∃ pushed top below, pushed.length = form.length ∧
    pushed ++ s :: stack = top :: below ∧ item ∈ dfa.itemsAt items top ∧
    Trace g table ids ⟨s :: stack, consumed, u ++ w⟩ ⟨pushed ++ s :: stack, consumed ++ u, w⟩

section Completes

variable {item : Item} {s t : StateId} {w u' : List Symbol} {X : Symbol} {id : RuleId} {rule : Rule}

/-- Nothing has to be read or pushed for an empty form. -/
theorem completes_nil (hitem : item ∈ dfa.itemsAt items s) :
    Completes g items dfa table [] [] [] w item s := by
  intro stack consumed
  refine ⟨[], s, stack, rfl, rfl, hitem, ?_⟩
  rw [List.append_nil]
  exact .refl _

/-- An input symbol of a form is shifted. -/
theorem Completes.input (hshift : .shift t ∈ table.cell s X)
    (h : Completes g items dfa table ids Xs u w item t) :
    Completes g items dfa table ids (X :: Xs) (X :: u) w item s := by
  intro stack consumed
  obtain ⟨pushed, top, below, hlength, hstack, htop, htrace⟩ := h (s :: stack) (consumed ++ [X])
  have hlength' : (pushed ++ [t]).length = (X :: Xs).length := by simp [hlength]
  have hstack' : (pushed ++ [t]) ++ s :: stack = top :: below := by simpa using hstack
  have hall : Trace g table ids ⟨s :: stack, consumed, X :: (u ++ w)⟩ _ := .shift hshift htrace
  exact ⟨pushed ++ [t], top, below, hlength', hstack', htop, by simpa using hall⟩

/-- For a non-terminal of a form the machine completes the body of a rule on top of the same state
and reduces. -/
theorem Completes.nonterminal (hrule : g.rules[id]? = some rule)
    (hinner : Completes g items dfa table ids rule.body u (u' ++ w) ⟨id, rule.length⟩ s)
    (hreduce : ∀ top, (⟨id, rule.length⟩ : Item) ∈ dfa.itemsAt items top →
      .reduce id ∈ table.cell top ((u' ++ w).headD .endOfInput))
    (hgoto : .goto t ∈ table.cell s (.nonterminal rule.head))
    (houter : Completes g items dfa table ids' Xs u' w item t) :
    Completes g items dfa table (ids ++ id :: ids') (.nonterminal rule.head :: Xs) (u ++ u') w
      item s := by
  intro stack consumed
  obtain ⟨popped, top, below, hpopped, hstack, htop, htrace⟩ := hinner stack consumed
  have haction : .reduce id ∈ actions table ⟨popped ++ s :: stack, consumed ++ u, u' ++ w⟩ := by
    rw [hstack]
    exact hreduce top htop
  obtain ⟨pushed, top', below', hpushed, hstack', htop', htrace'⟩ :=
    houter (s :: stack) (consumed ++ u)
  have hlength : (pushed ++ [t]).length = (.nonterminal rule.head :: Xs).length := by
    simp [hpushed]
  have hstack'' : (pushed ++ [t]) ++ s :: stack = top' :: below' := by simpa using hstack'
  have hall := htrace.trans (.reduce haction hrule hpopped hgoto htrace')
  exact ⟨pushed ++ [t], top', below', hlength, hstack'', htop', by simpa using hall⟩

end Completes

/-- Where an item of a state has a form after its dot, the machine can follow a parse of a first
part of the form and gets to the item with the dot after this part. The rest of the form has to
derive what comes next in the input, since this decides where inner rules may be ended. -/
theorem completes_of_parse_append {id : RuleId} {rule : Rule} {dot : Nat} {s : StateId}
    {Ys v w : List Symbol} (hg : g.Linked) (hdfa : dfa.Canonical g items)
    (htable : table.Drives g items dfa allowed) (hpermits : Table.Permits g allowed)
    (hparse : g.Parse ids Xs u) (hlater : g.Parse ids' Ys v) (hrule : g.rules[id]? = some rule)
    (hXs : rule.body.drop dot = Xs ++ Ys) (hitem : (⟨id, dot⟩ : Item) ∈ dfa.itemsAt items s)
    (hw : Table.Allows allowed id (w.headD .endOfInput)) :
    Completes g items dfa table ids Xs u (v ++ w) ⟨id, dot + Xs.length⟩ s := by
  induction hparse generalizing id rule dot s w Ys v ids' with
  | nil => exact completes_nil hitem
  | @input ids X Xs u hX hrest ih =>
    obtain ⟨hawaits, hdrop⟩ := Item.awaits_of_drop hrule hXs
    obtain ⟨t, hmove⟩ := hdfa.exists_move_iff.2 ⟨_, hitem, hawaits⟩
    have hnext := hdfa.advance_mem hmove hitem hawaits
    have hcompletes := ih hlater hrule hdrop hnext hw
    rw [Nat.add_assoc, Nat.add_comm 1] at hcompletes
    exact .input (htable.shift_iff.2 ⟨hX, hmove⟩) hcompletes
  | @rule idsBody idsRest id' rule' Xs u u' hrule' hbody hrest ih ih' =>
    obtain ⟨hawaits, hdrop⟩ := Item.awaits_of_drop hrule hXs
    obtain ⟨t, hmove⟩ := hdfa.exists_move_iff.2 ⟨_, hitem, hawaits⟩
    have hsplit : rule.body = rule.body.take dot ++ .nonterminal rule'.head :: (Xs ++ Ys) := by
      rw [← List.cons_append, ← hXs, List.take_append_drop]
    -- The inner rule is ended where the rest of the body starts, which both parses give.
    have hallows := hpermits.inner hrule hrule' hsplit (hrest.append hlater) hw
    rw [List.append_assoc] at hallows
    have hstart : (⟨id', 0⟩ : Item) ∈ dfa.itemsAt items s :=
      hdfa.closed_itemsAt s _ hitem _ hawaits _ ⟨rule', hrule', rfl⟩
    have hmem : .nonterminal rule'.head ∈ rule.body := by
      rw [hsplit]
      exact List.mem_append_right _ List.mem_cons_self
    have hid' : id' ≠ augmentedRule := hg.ne_augmentedRule hrule hrule' hmem
    have hreduce : ∀ top, (⟨id', rule'.length⟩ : Item) ∈ dfa.itemsAt items top →
        .reduce id' ∈ table.cell top ((u' ++ (v ++ w)).headD .endOfInput) := by
      intro top htop
      exact htable.reduce_iff.2 ⟨hid', ⟨_, htop, ⟨rule', hrule', rfl⟩, rfl⟩, hallows⟩
    have hgoto : .goto t ∈ table.cell s (.nonterminal rule'.head) :=
      htable.goto_iff.2 ⟨rfl, hmove⟩
    have hnext := hdfa.advance_mem hmove hitem hawaits
    have hinner := ih .nil hrule' (by rw [List.drop_zero, List.append_nil]) hstart hallows
    rw [Nat.zero_add] at hinner
    have houter := ih' hlater hrule hdrop hnext hw
    rw [Nat.add_assoc, Nat.add_comm 1] at houter
    exact .nonterminal hrule' hinner hreduce hgoto houter

/-- Where an item of a state has a form after its dot, the machine can follow a parse of the form
and gets to the item with the dot at the end. -/
theorem completes_of_parse {id : RuleId} {rule : Rule} {dot : Nat} {s : StateId}
    {w : List Symbol} (hg : g.Linked) (hdfa : dfa.Canonical g items)
    (htable : table.Drives g items dfa allowed) (hpermits : Table.Permits g allowed)
    (hparse : g.Parse ids Xs u) (hrule : g.rules[id]? = some rule) (hXs : rule.body.drop dot = Xs)
    (hitem : (⟨id, dot⟩ : Item) ∈ dfa.itemsAt items s)
    (hw : Table.Allows allowed id (w.headD .endOfInput)) :
    Completes g items dfa table ids Xs u w ⟨id, rule.length⟩ s := by
  have hcompletes := completes_of_parse_append hg hdfa htable hpermits hparse .nil hrule
    (by rw [hXs, List.append_nil]) hitem hw
  obtain ⟨rule', hrule', hle⟩ := hdfa.in_of_mem_itemsAt hitem
  obtain rfl := Option.some.inj (hrule.symm.trans hrule')
  have hlength : dot + Xs.length = rule.length := by
    rw [← hXs, List.length_drop]
    exact Nat.add_sub_of_le hle
  rwa [hlength] at hcompletes

/-- The machine can follow every parse of the augmented start symbol and accept. -/
theorem exists_accepting_trace (hg : g.Linked) (hdfa : dfa.Canonical g items)
    (htable : table.Drives g items dfa allowed) (hpermits : Table.Permits g allowed)
    (hparse : g.Parse ids [.nonterminal Grammar.start] u) :
    ∃ ids' m, ids = ids' ++ [augmentedRule] ∧ Trace g table ids' (start u) m ∧ m.input = [] ∧
      m.CanAccept table := by
  obtain ⟨ids', rfl, hbody⟩ := hparse.of_start hg
  have hitem : (⟨augmentedRule, 0⟩ : Item) ∈ dfa.itemsAt items Dfa.start := by
    rw [hdfa.itemsAt_start]
    exact Grammar.subset_closure g _ (Set.mem_singleton _)
  have hcompletes := completes_of_parse (w := []) hg hdfa htable hpermits hbody hg.augmented
    List.drop_zero hitem hpermits.augmented
  obtain ⟨pushed, top, below, -, hstack, htop, htrace⟩ := hcompletes [] []
  rw [List.append_nil] at htrace
  refine ⟨ids', _, rfl, htrace, rfl, ?_⟩
  have hcell : .accept ∈ table.cell top .endOfInput :=
    htable.accept_iff.2 ⟨⟨_, htop, ⟨_, hg.augmented, rfl⟩, rfl⟩, hpermits.augmented⟩
  rw [hstack]
  exact hcell

end Machine

/-- Both tables of a compilation permit what can come after a rule. -/
theorem Compilation.Built.exists_permits {options : ReadOptions} {source : String}
    {c : Compilation} {table : Table} (h : c.Built options source)
    (htable : table = c.lr0 ∨ table = c.slr1) :
    ∃ allowed, table.Drives c.grammar c.items c.dfa allowed ∧ Table.Permits c.grammar allowed := by
  have hg := h.wellFormed.toLinked
  rcases htable with rfl | rfl
  · exact ⟨_, h.drives_lr0, Table.permits_inputs hg.toCrossReferenced⟩
  · obtain ⟨sets, hsets, hclosed⟩ := Lookahead.compute_ok hg
    obtain rfl := Except.ok.inj (hsets.symm.trans h.sets)
    exact ⟨_, h.drives_slr1, Table.permits_followInputs hg hclosed⟩

namespace Machine

/-- The machine of a compilation, with the LR(0) or the SLR(1) table, has for every sentence a run
that consumes the sentence and after which it can accept. -/
theorem accepts_of_sentence {options : ReadOptions} {source : String} {c : Compilation}
    {table : Table} {u : List Symbol} (hcompile : compile options source = .ok c)
    (htable : table = c.lr0 ∨ table = c.slr1) (hu : c.grammar.Sentence u) :
    Accepts c.grammar table u := by
  have hbuilt := Compilation.built_of_compile hcompile
  obtain ⟨allowed, hdrives, hpermits⟩ := hbuilt.exists_permits htable
  obtain ⟨ids, hparse⟩ := Grammar.Parse.exists_of_derives hu.2 hu.1
  obtain ⟨ids', m, -, htrace, hinput, haccept⟩ := exists_accepting_trace hbuilt.wellFormed.toLinked
    hbuilt.canonical hdrives hpermits hparse
  exact ⟨m, htrace.run, hinput, haccept⟩

/-- For the rules `S -> 'a' S |` the machine with the SLR(1) table accepts the sentence `a $`. -/
theorem accepts_of_sentence_of_letter : ∃ c, compile {} "S -> 'a' S | ;" = .ok c ∧
    c.grammar.Sentence [.terminal 0, .endOfInput] ∧
    Accepts c.grammar c.slr1 [.terminal 0, .endOfInput] := by
  have hsource : (compile {} "S -> 'a' S | ;").toOption.map (fun c => c.grammar.rules) =
      some #[⟨0, [.nonterminal 1, .endOfInput]⟩, ⟨1, [.terminal 0, .nonterminal 1]⟩, ⟨1, []⟩] := by
    decide +kernel
  obtain ⟨c, hok, hrules⟩ := Option.map_eq_some_iff.1 hsource
  have hderives : c.grammar.Derives [.nonterminal Grammar.start] [.terminal 0, .endOfInput] := by
    refine .step (@Grammar.Step.replace _ 0 ⟨0, _⟩ [] [] (by simp [hrules]; rfl)) ?_
    refine .step (@Grammar.Step.replace _ 1 ⟨1, _⟩ [] [.endOfInput] (by simp [hrules]; rfl)) ?_
    refine .step (@Grammar.Step.replace _ 2 ⟨1, []⟩ [.terminal 0] [.endOfInput] ?_) (.refl _)
    simp [hrules]
  have hsentence : c.grammar.Sentence [.terminal 0, .endOfInput] :=
    ⟨by simp [Grammar.IsInput, Symbol.isInput], hderives⟩
  have hcompile := eq_ok_of_toOption hok
  exact ⟨c, hcompile, hsentence, accepts_of_sentence hcompile (.inr rfl) hsentence⟩

end Machine

end ShiftReduce
