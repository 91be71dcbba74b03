import ShiftReduce.Machine
import ShiftReduce.Proofs.Compilation
import ShiftReduce.Proofs.Derivation

/-!
# The machine accepts only what the grammar derives

The stack of the machine is a path through the canonical collection, and each symbol on the path
derives its part of the input consumed so far, by the rules that the machine has completed. A
complete item in the top state can be traced back along the path to where its rule starts. A
reduction therefore finds the states of a whole body on the stack and a state that moves on the
head, and an accepting machine has consumed what the augmented start symbol derives.
-/

namespace ShiftReduce

namespace Machine

/-- A stack that is a path from the start state along a form, with the symbols that were consumed
for the form and the rules that were completed. -/
inductive Holds (g : Grammar) (dfa : Dfa) :
    List RuleId → List Symbol → List StateId → List Symbol → Prop
  | bottom : Holds g dfa [] [] [Dfa.start] []
  | push {ids ids' : List RuleId} {form u v : List Symbol} {s t : StateId}
      {stack : List StateId} {X : Symbol} :
      Holds g dfa ids form (s :: stack) u → dfa.move? s X = some t → g.Parse ids' [X] v →
      Holds g dfa (ids ++ ids') (form ++ [X]) (t :: s :: stack) (u ++ v)

variable {g : Grammar} {items : ItemTable} {dfa : Dfa} {table : Table}
  {allowed : RuleId → Except Failure (List Symbol)} {s : StateId} {stack : List StateId}
  {consumed form : List Symbol} {rule : Rule} {id : RuleId} {ids : List RuleId} {m m' : Machine}

namespace Holds

/-- The form derives what was consumed, by the rules that were completed. -/
theorem parse (h : Holds g dfa ids form stack consumed) : g.Parse ids form consumed := by
  induction h with
  | bottom => exact .nil
  | push _ _ hX ih => exact ih.append hX

/-- The top state is where the form leads to. -/
theorem walk (h : Holds g dfa ids form (s :: stack) consumed) :
    dfa.walk? Dfa.start form = some s := by
  generalize hstack : s :: stack = states at h
  induction h generalizing s stack with
  | bottom =>
    obtain ⟨rfl, -⟩ := List.cons.inj hstack
    rfl
  | push _ hmove _ ih =>
    obtain ⟨rfl, -⟩ := List.cons.inj hstack
    exact Dfa.walk?_concat (ih rfl) hmove

/-- The start state is at the bottom only. -/
theorem eq_bottom (h : Holds g dfa ids form (Dfa.start :: stack) consumed)
    (hdfa : dfa.Canonical g items) : stack = [] ∧ consumed = [] := by
  cases h with
  | bottom => exact ⟨rfl, rfl⟩
  | push _ hmove _ => exact absurd rfl (hdfa.ne_start_of_move hmove)

/-- An item of the top state is traced back to the start of its rule. The states above that place
are those of the symbols before the dot, which derive what was consumed since. -/
theorem trace_back {dot : Nat} (h : Holds g dfa ids form (s :: stack) consumed)
    (hdfa : dfa.Canonical g items) (hrule : g.rules[id]? = some rule)
    (hitem : (⟨id, dot⟩ : Item) ∈ dfa.itemsAt items s) :
    ∃ popped top below ids₁ ids₂ front u v, s :: stack = popped ++ top :: below ∧
      popped.length = dot ∧ (⟨id, 0⟩ : Item) ∈ dfa.itemsAt items top ∧
      Holds g dfa ids₁ front (top :: below) u ∧ ids = ids₁ ++ ids₂ ∧ consumed = u ++ v ∧
      g.Parse ids₂ (rule.body.take dot) v := by
  induction dot generalizing s stack consumed ids form with
  | zero =>
    exact ⟨[], s, stack, ids, [], form, consumed, [], rfl, rfl, hitem, h,
      (List.append_nil _).symm, (List.append_nil _).symm, .nil⟩
  | succ dot ih =>
    cases h with
    | bottom => exact absurd (hdfa.dot_eq_zero_of_mem_start hitem) (Nat.succ_ne_zero _)
    | @push before ids' form u w s' _ stack X hbelow hmove hX =>
      obtain ⟨⟨id', dot'⟩, hbefore, hawaits, heq⟩ :=
        hdfa.exists_of_dot_pos hmove hitem (Nat.succ_pos _)
      simp only [Item.advance, Item.mk.injEq, Nat.add_right_cancel_iff] at heq
      obtain ⟨rfl, rfl⟩ := heq
      obtain ⟨popped, top, below, ids₁, ids₂, front, u', v, hstack, hlength, hstart, hholds, rfl,
        rfl, hbody⟩ := ih hbelow hbefore
      obtain ⟨rule', hrule', hnext⟩ := hawaits
      obtain rfl := Option.some.inj (hrule.symm.trans hrule')
      have hstack' : s :: s' :: stack = s :: popped ++ top :: below := by
        rw [hstack, List.cons_append]
      have hlength' : (s :: popped).length = dot + 1 := by rw [List.length_cons, hlength]
      have hbody' : g.Parse (ids₂ ++ ids') (rule.body.take (dot + 1)) (v ++ w) := by
        rw [List.take_add_one, hnext]
        exact hbody.append hX
      exact ⟨s :: popped, top, below, ids₁, ids₂ ++ ids', front, u', v ++ w, hstack', hlength',
        hstart, hholds, List.append_assoc _ _ _, List.append_assoc _ _ _, hbody'⟩

/-- A complete item in the top state has the states of its whole body on the stack. -/
theorem trace_back_complete {item : Item} (h : Holds g dfa ids form (s :: stack) consumed)
    (hdfa : dfa.Canonical g items) (hitem : item ∈ dfa.itemsAt items s)
    (hcomplete : item.Complete g) :
    ∃ rule popped top below ids₁ ids₂ front u v, g.rules[item.rule]? = some rule ∧
      s :: stack = popped ++ top :: below ∧ popped.length = rule.length ∧
      (⟨item.rule, 0⟩ : Item) ∈ dfa.itemsAt items top ∧
      Holds g dfa ids₁ front (top :: below) u ∧ ids = ids₁ ++ ids₂ ∧ consumed = u ++ v ∧
      g.Parse (ids₂ ++ [item.rule]) [.nonterminal rule.head] v := by
  obtain ⟨rule, hrule, hdot⟩ := hcomplete
  have hmem : (⟨item.rule, rule.length⟩ : Item) ∈ dfa.itemsAt items s := hdot ▸ hitem
  obtain ⟨popped, top, below, ids₁, ids₂, front, u, v, hstack, hlength, hstart, hholds, hids,
    hconsumed, hbody⟩ := h.trace_back hdfa hrule hmem
  rw [Rule.length, List.take_length] at hbody
  have hhead : g.Parse (ids₂ ++ [item.rule]) [.nonterminal rule.head] v := by
    simpa using Grammar.Parse.rule hrule hbody .nil
  exact ⟨rule, popped, top, below, ids₁, ids₂, front, u, v, hrule, hstack, hlength, hstart, hholds,
    hids, hconsumed, hhead⟩

/-- A reduction finds the states of the body of its rule, and below them a state whose only action
on the head is to move. -/
theorem exists_reduction (h : Holds g dfa ids form stack consumed) (hdfa : dfa.Canonical g items)
    (htable : table.Drives g items dfa allowed) {input : List Symbol}
    (hreduce : .reduce id ∈ actions table ⟨stack, consumed, input⟩) :
    ∃ rule popped top below target ids₁ ids₂ front u v, g.rules[id]? = some rule ∧
      stack = popped ++ top :: below ∧ popped.length = rule.length ∧
      table.cell top (.nonterminal rule.head) = [.goto target] ∧
      Holds g dfa ids₁ front (top :: below) u ∧ ids = ids₁ ++ ids₂ ∧ consumed = u ++ v ∧
      dfa.move? top (.nonterminal rule.head) = some target ∧
      g.Parse (ids₂ ++ [id]) [.nonterminal rule.head] v := by
  cases stack with
  | nil => cases h
  | cons s stack =>
    obtain ⟨hne, ⟨item, hitem, hcomplete, rfl⟩, -⟩ := htable.reduce_iff.1 hreduce
    obtain ⟨rule, popped, top, below, ids₁, ids₂, front, u, v, hrule, hstack, hlength, hstart,
      hholds, hids, hconsumed, hhead⟩ := h.trace_back_complete hdfa hitem hcomplete
    rcases hdfa.cases_of_dot_zero hstart rfl with ⟨-, heq⟩ | ⟨waiting, hwaiting, n, hawaits, hheads⟩
    · exact absurd heq hne
    · obtain ⟨rule', hrule', rfl⟩ := hheads
      obtain rfl := Option.some.inj (hrule.symm.trans hrule')
      obtain ⟨target, hmove⟩ := hdfa.exists_move_iff.2 ⟨waiting, hwaiting, hawaits⟩
      exact ⟨rule, popped, top, below, target, ids₁, ids₂, front, u, v, hrule, hstack, hlength,
        htable.cell_nonterminal hmove, hholds, hids, hconsumed, hmove, hhead⟩

/-- A shift makes the path longer by the symbol. -/
theorem shift {rest : List Symbol} {X : Symbol} {target : StateId}
    (h : Holds g dfa ids form stack consumed) (htable : table.Drives g items dfa allowed)
    (hshift : .shift target ∈ actions table ⟨stack, consumed, X :: rest⟩) :
    Holds g dfa ids (form ++ [X]) (target :: stack) (consumed ++ [X]) := by
  cases stack with
  | nil => cases h
  | cons s stack =>
    obtain ⟨hX, hmove⟩ := htable.shift_iff.1 hshift
    have hpushed := h.push hmove (.input hX .nil)
    rwa [List.append_nil] at hpushed

/-- A reduction replaces the body of its rule on the path by the head, and completes the rule. -/
theorem reduce {popped below : List StateId} {top target : StateId} {input : List Symbol}
    (h : Holds g dfa ids form (popped ++ top :: below) consumed) (hdfa : dfa.Canonical g items)
    (htable : table.Drives g items dfa allowed)
    (hreduce : .reduce id ∈ actions table ⟨popped ++ top :: below, consumed, input⟩)
    (hrule : g.rules[id]? = some rule) (hlength : popped.length = rule.length)
    (hgoto : .goto target ∈ table.cell top (.nonterminal rule.head)) :
    ∃ form', Holds g dfa (ids ++ [id]) form' (target :: top :: below) consumed := by
  obtain ⟨rule', popped', top', below', target', ids₁, ids₂, front, u, v, hrule', hstack, hlength',
    hcell, hholds, rfl, rfl, hmove, hhead⟩ := h.exists_reduction hdfa htable hreduce
  obtain rfl := Option.some.inj (hrule.symm.trans hrule')
  obtain ⟨rfl, htops⟩ := List.append_inj hstack (hlength.trans hlength'.symm)
  obtain ⟨rfl, rfl⟩ := List.cons.inj htops
  rw [hcell, List.mem_singleton] at hgoto
  cases hgoto
  rw [List.append_assoc]
  exact ⟨_, hholds.push hmove hhead⟩

/-- A step keeps the stack a path. -/
theorem step (h : Holds g dfa ids form m.stack m.consumed) (hdfa : dfa.Canonical g items)
    (htable : table.Drives g items dfa allowed) (hstep : Step g table m m') :
    ∃ ids' form', Holds g dfa ids' form' m'.stack m'.consumed := by
  cases hstep with
  | shift hshift => exact ⟨_, _, h.shift htable hshift⟩
  | reduce hreduce hrule hlength hgoto =>
    exact ⟨_, h.reduce hdfa htable hreduce hrule hlength hgoto⟩

/-- A run keeps the stack a path. -/
theorem run (h : Holds g dfa ids form m.stack m.consumed) (hdfa : dfa.Canonical g items)
    (htable : table.Drives g items dfa allowed) (hrun : Run g table m m') :
    ∃ ids' form', Holds g dfa ids' form' m'.stack m'.consumed := by
  induction hrun generalizing ids form with
  | refl => exact ⟨ids, form, h⟩
  | step hstep _ ih =>
    obtain ⟨_, _, hnext⟩ := h.step hdfa htable hstep
    exact ih hnext

/-- A machine that can accept has consumed what the augmented start symbol derives. -/
theorem derives_of_canAccept (h : Holds g dfa ids form m.stack m.consumed)
    (hdfa : dfa.Canonical g items) (hg : g.Linked) (htable : table.Drives g items dfa allowed)
    (haccept : m.CanAccept table) : g.Derives [.nonterminal Grammar.start] m.consumed := by
  obtain ⟨stack, consumed, input⟩ := m
  cases stack with
  | nil => cases h
  | cons s stack =>
    obtain ⟨⟨item, hitem, hcomplete, heq⟩, -⟩ := htable.accept_iff.1 haccept
    obtain ⟨rule, popped, top, below, ids₁, ids₂, front, u, v, hrule, -, -, hstart, hholds, -,
      hconsumed, hhead⟩ := trace_back_complete h hdfa hitem hcomplete
    rw [heq] at hrule hstart
    obtain rfl := Option.some.inj (hrule.symm.trans hg.augmented)
    obtain rfl := hdfa.eq_start_of_mem hg hstart
    obtain ⟨-, rfl⟩ := hholds.eq_bottom hdfa
    rw [show consumed = v from hconsumed]
    exact hhead.derives

end Holds

/-- In every configuration that the machine of a compilation gets to, with the LR(0) or the SLR(1)
table and on any input, each possible reduction finds the states of the body of its rule above
another state, which has exactly one action on the head and goes to a state. If the machine can
accept, it has consumed what the augmented start symbol derives. -/
theorem run_sound {options : ReadOptions} {source : String} {c : Compilation} {table : Table}
    {input : List Symbol} {m : Machine} (hcompile : compile options source = .ok c)
    (htable : table = c.lr0 ∨ table = c.slr1) (hrun : Run c.grammar table (start input) m) :
    (∀ id, .reduce id ∈ m.actions table → ∃ rule popped top below target,
      c.grammar.rules[id]? = some rule ∧ m.stack = popped ++ top :: below ∧
      popped.length = rule.length ∧
      table.cell top (.nonterminal rule.head) = [.goto target]) ∧
    (m.CanAccept table → c.grammar.Derives [.nonterminal Grammar.start] m.consumed) := by
  have hbuilt := Compilation.built_of_compile hcompile
  obtain ⟨allowed, hdrives⟩ := hbuilt.exists_drives htable
  obtain ⟨ids, form, hholds⟩ :=
    Holds.run (m := start input) .bottom hbuilt.canonical hdrives hrun
  constructor
  · intro id hreduce
    obtain ⟨rule, popped, top, below, target, -, -, -, -, -, hrule, hstack, hlength, hcell, -⟩ :=
      hholds.exists_reduction hbuilt.canonical hdrives hreduce
    exact ⟨rule, popped, top, below, target, hrule, hstack, hlength, hcell⟩
  · exact hholds.derives_of_canAccept hbuilt.canonical hbuilt.wellFormed.toLinked hdrives

/-- For the rules `S -> 'a' S |` the machine with the SLR(1) table consumes `a $` and can accept
then, so that the augmented start symbol derives `a $`. -/
theorem run_sound_of_letter : ∃ c m, compile {} "S -> 'a' S | ;" = .ok c ∧
    Run c.grammar c.slr1 (start [.terminal 0, .endOfInput]) m ∧ m.CanAccept c.slr1 ∧
    c.grammar.Derives [.nonterminal Grammar.start] [.terminal 0, .endOfInput] := by
  have hparts : (compile {} "S -> 'a' S | ;").toOption.map (fun c => (c.grammar.rules,
      [(0, Symbol.terminal 0), (1, .endOfInput), (1, .nonterminal 1), (3, .endOfInput),
        (0, .nonterminal 1), (2, .endOfInput), (4, .endOfInput)].map fun (s, X) =>
          c.slr1.cell s X)) =
      some (#[⟨0, [.nonterminal 1, .endOfInput]⟩, ⟨1, [.terminal 0, .nonterminal 1]⟩, ⟨1, []⟩],
        [[.shift 1], [.reduce 2], [.goto 3], [.reduce 1], [.goto 2], [.shift 4], [.accept]]) := by
    decide +kernel
  obtain ⟨c, hok, hparts⟩ := Option.map_eq_some_iff.1 hparts
  simp only [Prod.mk.injEq, List.map_cons, List.map_nil, List.cons.injEq] at hparts
  obtain ⟨hrules, hletter, hempty, hgoto, hreduce, hgoto', hend, haccept, -⟩ := hparts
  have hshift : Step c.grammar c.slr1 (start [.terminal 0, .endOfInput])
      ⟨[1, 0], [.terminal 0], [.endOfInput]⟩ :=
    .shift (by simp [actions, lookahead, Dfa.start, hletter])
  have hvanish : Step c.grammar c.slr1 ⟨[1, 0], [.terminal 0], [.endOfInput]⟩
      ⟨[3, 1, 0], [.terminal 0], [.endOfInput]⟩ :=
    @Step.reduce _ _ [] 1 3 [0] _ _ 2 ⟨1, []⟩ (by simp [actions, lookahead, hempty])
      (by simp [hrules]) rfl (by simp [hgoto])
  have hbody : Step c.grammar c.slr1 ⟨[3, 1, 0], [.terminal 0], [.endOfInput]⟩
      ⟨[2, 0], [.terminal 0], [.endOfInput]⟩ :=
    @Step.reduce _ _ [3, 1] 0 2 [] _ _ 1 ⟨1, [.terminal 0, .nonterminal 1]⟩
      (by simp [actions, lookahead, hreduce]) (by simp [hrules]) rfl (by simp [hgoto'])
  have hlast : Step c.grammar c.slr1 ⟨[2, 0], [.terminal 0], [.endOfInput]⟩
      ⟨[4, 2, 0], [.terminal 0, .endOfInput], []⟩ :=
    .shift (by simp [actions, lookahead, hend])
  have hrun := Run.step hshift (.step hvanish (.step hbody (.step hlast (.refl _))))
  have hcan : CanAccept c.slr1 ⟨[4, 2, 0], [.terminal 0, .endOfInput], []⟩ := by
    simp [CanAccept, actions, lookahead, haccept]
  have hcompile := eq_ok_of_toOption hok
  exact ⟨c, _, hcompile, hrun, hcan, (run_sound hcompile (.inr rfl) hrun).2 hcan⟩

end Machine

end ShiftReduce
