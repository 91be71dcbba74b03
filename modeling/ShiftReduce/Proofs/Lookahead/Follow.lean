import ShiftReduce.Proofs.Lookahead.First

/-!
# FOLLOW sets are closed under the rules

An occurrence of a non-terminal in a body asks for FIRST of what stands after it, and for FOLLOW of
the head if what stands after it can vanish. A pass over the rules gives the FOLLOW sets what the
rules ask for, and there are enough passes for the last one to change nothing.
-/

namespace ShiftReduce

namespace FollowSets

variable {g : Grammar} {firsts : FirstSets} {follows after : SetFamily Symbol} {a : Symbol}
  {head n : NonterminalId} {rest body : List Symbol}

/-- What an occurrence of a non-terminal asks for, given what stands after it. -/
inductive Asks (firsts : FirstSets) (follows : SetFamily Symbol) (head : NonterminalId)
    (rest : List Symbol) (a : Symbol) : Prop
  | first : firsts.Begins rest a → a ≠ .epsilon → Asks firsts follows head rest a
  | follow : firsts.Begins rest .epsilon → a ∈ follows.elements head →
      Asks firsts follows head rest a

/-- FOLLOW sets on the way to the final ones. -/
structure Proper (g : Grammar) (follows : SetFamily Symbol) : Prop where
  size_eq : follows.size = g.nonterminals.size
  within : follows.Within g.inputSymbols

/-- An occurrence asks for what begins the rest of the body, and for what follows the head if the
rest vanishes. -/
theorem asks_iff : Asks firsts follows head rest a ↔ firsts.Begins rest a ∧ a ≠ .epsilon ∨
    firsts.Begins rest .epsilon ∧ a ∈ follows.elements head := by
  constructor
  · rintro (⟨ha, hne⟩ | ⟨hrest, ha⟩)
    · exact .inl ⟨ha, hne⟩
    · exact .inr ⟨hrest, ha⟩
  · rintro (⟨ha, hne⟩ | ⟨hrest, ha⟩)
    · exact .first ha hne
    · exact .follow hrest ha

/-- An occurrence asks for more when the FOLLOW sets have grown. -/
theorem Asks.mono (hgrows : follows.Grows after) (h : Asks firsts follows head rest a) :
    Asks firsts after head rest a := by
  cases h with
  | first ha hne => exact .first ha hne
  | follow hrest ha => exact .follow hrest (hgrows.mem ha)

namespace Proper

/-- Input symbols can be inserted. -/
theorem insertAll {xs : List Symbol} (h : Proper g follows) (hn : n < follows.size)
    (hxs : xs ⊆ g.inputSymbols) : Proper g (follows.insertAll n xs) :=
  ⟨(SetFamily.size_insertAll _ _ _).trans h.size_eq, h.within.insertAll hn hxs⟩

/-- The sets cannot hold more elements than there are input symbols for each non-terminal. -/
theorem total_le (h : Proper g follows) :
    follows.total ≤ g.nonterminals.size * (g.terminals.size + 2) := by
  have hlength : g.inputSymbols.length ≤ g.terminals.size + 2 := by
    simp [Grammar.inputSymbols, Grammar.terminalSymbols]
  rw [← h.size_eq]
  exact h.within.total_le.trans (Nat.mul_le_mul_left _ hlength)

/-- An occurrence of a non-terminal adds what it asks for. -/
theorem addOccurrence_ok (h : Proper g follows) (hfirsts : firsts.Proper g)
    (hrest : ∀ X ∈ rest, X ∈ g.columns) (hhead : head < g.nonterminals.size)
    (hn : n < g.nonterminals.size) :
    ∃ after, addOccurrence firsts head n rest follows = .ok after ∧ Proper g after ∧
      follows.Grows after ∧
      ∀ m a, a ∈ after.elements m ↔
        a ∈ follows.elements m ∨ m = n ∧ Asks firsts follows head rest a := by
  obtain ⟨suffix, hsuffix, -, hmem⟩ := hfirsts.ofSequence_ok hrest
  have hsize : n < follows.size := h.size_eq ▸ hn
  let middle := follows.insertAll n (suffix.filter (· != .epsilon))
  have hmiddleSize : n < middle.size := by
    rw [SetFamily.size_insertAll]
    exact hsize
  have hextend : follows.extend n _ = .ok middle := SetFamily.extend_eq hsize
  have hmiddle : ∀ m a, a ∈ middle.elements m ↔
      a ∈ follows.elements m ∨ m = n ∧ firsts.Begins rest a ∧ a ≠ .epsilon := by
    intro m a
    rw [SetFamily.mem_insertAll hsize, List.mem_filter, hmem a, bne_iff_ne]
  have hgrows : follows.Grows middle := SetFamily.grows_insertAll hsize
  have hproper : Proper g middle := by
    refine h.insertAll hsize fun a ha => ?_
    obtain ⟨ha, hne⟩ := List.mem_filter.1 ha
    have hlookahead := hfirsts.mem_lookaheads hrest ((hmem a).1 ha)
    exact (List.mem_cons.1 hlookahead).resolve_left (bne_iff_ne.1 hne)
  by_cases hvanish : .epsilon ∈ suffix
  · have hentry : entry middle.sets head = .ok (middle.elements head) := by
      rw [← hproper.size_eq] at hhead
      exact entry_eq_ok.2 (SetFamily.getElem?_sets hhead)
    refine ⟨middle.insertAll n (middle.elements head), bind_eq_ok.2 ⟨suffix, hsuffix,
      bind_eq_ok.2 ⟨middle, hextend, ?_⟩⟩, ?_,
      hgrows.trans (SetFamily.grows_insertAll hmiddleSize), fun m a => ?_⟩
    · rw [if_pos (List.contains_iff_mem.2 hvanish)]
      exact bind_eq_ok.2 ⟨_, hentry, SetFamily.extend_eq hmiddleSize⟩
    · exact hproper.insertAll hmiddleSize (hproper.within.subset head)
    · rw [SetFamily.mem_insertAll hmiddleSize, hmiddle, hmiddle, asks_iff]
      simp only [(hmem .epsilon).1 hvanish, true_and]
      tauto
  · refine ⟨middle, bind_eq_ok.2 ⟨suffix, hsuffix, bind_eq_ok.2 ⟨middle, hextend, if_neg ?_⟩⟩,
      hproper, hgrows, fun m a => ?_⟩
    · rwa [List.contains_iff_mem]
    · have hvanish' : ¬ firsts.Begins rest .epsilon := fun h => hvanish ((hmem _).2 h)
      rw [hmiddle, asks_iff]
      simp only [hvanish', false_and, or_false]

/-- A body adds what the occurrences of non-terminals in it ask for. -/
theorem addBody_ok (h : Proper g follows) (hfirsts : firsts.Proper g)
    (hbody : ∀ X ∈ body, X ∈ g.columns) (hhead : head < g.nonterminals.size) :
    ∃ after, addBody firsts head body follows = .ok after ∧ Proper g after ∧ follows.Grows after ∧
      ∀ before n rest, body = before ++ .nonterminal n :: rest →
        ∀ a, Asks firsts follows head rest a → a ∈ after.elements n := by
  induction body generalizing follows with
  | nil => exact ⟨follows, rfl, h, .refl _, by simp⟩
  | cons X body ih =>
    have hrest : ∀ Y ∈ body, Y ∈ g.columns := fun Y hY => hbody Y (List.mem_cons_of_mem X hY)
    have hother (hX : ∀ n, X ≠ .nonterminal n)
        (hskip : addBody firsts head (X :: body) follows = addBody firsts head body follows) :
        ∃ after, addBody firsts head (X :: body) follows = .ok after ∧ Proper g after ∧
          follows.Grows after ∧ ∀ before n rest, X :: body = before ++ .nonterminal n :: rest →
            ∀ a, Asks firsts follows head rest a → a ∈ after.elements n := by
      obtain ⟨after, hafter, hlast, hlater, hasks⟩ := ih h hrest
      refine ⟨after, hskip.trans hafter, hlast, hlater, fun before n rest hsplit => ?_⟩
      cases before with
      | nil => exact absurd (List.cons.inj hsplit).1 (hX n)
      | cons Y before => exact hasks before n rest (List.cons.inj hsplit).2
    cases X with
    | nonterminal n =>
      obtain ⟨middle, hmiddle, hproper, hgrows, hmem⟩ :=
        h.addOccurrence_ok hfirsts hrest hhead
          (Grammar.nonterminal_mem_columns.1 (hbody _ List.mem_cons_self))
      obtain ⟨after, hafter, hlast, hlater, hasks⟩ := ih hproper hrest
      refine ⟨after, bind_eq_ok.2 ⟨middle, hmiddle, hafter⟩, hlast, hgrows.trans hlater, ?_⟩
      intro before m rest hsplit a ha
      cases before with
      | nil =>
        obtain ⟨hn, rfl⟩ := List.cons.inj hsplit
        cases hn
        exact hlater.mem ((hmem n a).2 (.inr ⟨rfl, ha⟩))
      | cons Y before =>
        exact hasks before m rest (List.cons.inj hsplit).2 a (ha.mono hgrows)
    | terminal t => exact hother (by simp) rfl
    | epsilon => exact hother (by simp) rfl
    | endOfInput => exact hother (by simp) rfl

/-- A pass adds what all occurrences of non-terminals in the rules ask for. -/
theorem pass_ok (hg : g.CrossReferenced) (h : Proper g follows) (hfirsts : firsts.Proper g) :
    ∃ after, pass g firsts follows = .ok after ∧ Proper g after ∧ follows.Grows after ∧
      ∀ rule ∈ g.rules, ∀ before n rest, rule.body = before ++ .nonterminal n :: rest →
        ∀ a, Asks firsts follows rule.head rest a → a ∈ after.elements n := by
  have hpass : ∃ after, pass g firsts follows = .ok after ∧ Proper g after ∧ follows.Grows after ∧
      ∀ rule ∈ g.rules.toList, ∀ before n rest, rule.body = before ++ .nonterminal n :: rest →
        ∀ a, Asks firsts follows rule.head rest a → a ∈ after.elements n := by
    refine foldlM_collects (Proper g) SetFamily.Grows
      (fun (rule : Rule) now => ∀ before n rest, rule.body = before ++ .nonterminal n :: rest →
        ∀ a, Asks firsts follows rule.head rest a → a ∈ now.elements n) h (.refl follows)
      SetFamily.Grows.trans
      (fun hgrows hrule before n rest hbody a ha => hgrows.mem (hrule before n rest hbody a ha)) ?_
    intro rule hmem now hnow hgrows
    obtain ⟨id, hid⟩ := Array.mem_iff_getElem?.1 (Array.mem_toList_iff.1 hmem)
    obtain ⟨next, hnext, hproper, hlater, hrule⟩ :=
      hnow.addBody_ok hfirsts (hg.body_columns hid) (hg.head_lt hid)
    refine ⟨next, hnext, hproper, hlater, fun before n rest hbody a ha => ?_⟩
    exact hrule before n rest hbody a (ha.mono hgrows)
  simpa only [Array.mem_toList_iff] using hpass

end Proper

/-- At first only the end of input follows, and only the start symbols. -/
theorem proper_start (hg : g.Linked) :
    ∃ follows, start g = .ok follows ∧ Proper g follows ∧ ∀ n a, a ∈ follows.elements n ↔
      a = .endOfInput ∧ (n = Grammar.start ∨ n = Grammar.sourceStart) := by
  let empty : SetFamily Symbol := .ofSize g.nonterminals.size
  let first := empty.insertAll Grammar.start [.endOfInput]
  have hend : [Symbol.endOfInput] ⊆ g.inputSymbols := by simp [Grammar.inputSymbols]
  have hempty : Proper g empty := ⟨SetFamily.size_ofSize _, fun n => by simp [empty],
    fun n => by simp [empty]⟩
  have hstart : Grammar.start < empty.size := by
    rw [hempty.size_eq]
    exact hg.head_lt hg.augmented
  have hfirst : Proper g first := hempty.insertAll hstart hend
  have hsource : Grammar.sourceStart < first.size := by
    rw [hfirst.size_eq]
    exact (hg.body_in hg.augmented (.nonterminal Grammar.sourceStart) List.mem_cons_self).2
  refine ⟨_, bind_eq_ok.2 ⟨first, SetFamily.extend_eq hstart, SetFamily.extend_eq hsource⟩,
    hfirst.insertAll hsource hend, fun n a => ?_⟩
  rw [SetFamily.mem_insertAll hsource, SetFamily.mem_insertAll hstart, SetFamily.elements_ofSize,
    List.mem_singleton]
  simp only [List.not_mem_nil, false_or]
  tauto

end FollowSets

/-- FIRST and FOLLOW sets that have all that the rules ask for. -/
structure Lookahead.Closed (g : Grammar) (sets : Lookahead) : Prop where
  firsts : sets.firsts.Closed g
  follows : FollowSets.Proper g sets.follows
  start : .endOfInput ∈ sets.follows.elements Grammar.start
  occurrences : ∀ rule ∈ g.rules, ∀ before n rest, rule.body = before ++ .nonterminal n :: rest →
    ∀ a, FollowSets.Asks sets.firsts sets.follows rule.head rest a → a ∈ sets.follows.elements n

/-- The passes that the sets of a grammar come from. They ended because one changed nothing. -/
structure Lookahead.Settled (g : Grammar) (sets : Lookahead) : Prop where
  firsts : Settles (FirstSets.pass g) (.start g) sets.firstPasses sets.firsts
  follows : ∃ start, FollowSets.start g = .ok start ∧
    Settles (FollowSets.pass g sets.firsts) start sets.followPasses sets.follows

/-- The FIRST and FOLLOW sets of a grammar are found by passes that settle, and are closed under the
rules. -/
theorem Lookahead.exists_settled {g : Grammar} (hg : g.Linked) :
    ∃ sets, compute g = .ok sets ∧ sets.Closed g ∧ sets.Settled g := by
  obtain ⟨firstPasses, firsts, hfirstPasses, hfirsts, hfirstSettles⟩ :=
    FirstSets.exists_closed hg.toCrossReferenced
  obtain ⟨start, hfirst, hproper, hstart⟩ := FollowSets.proper_start hg
  have hpass : ∀ follows : SetFamily Symbol,
      FollowSets.Proper g follows ∧ start.Grows follows →
      ∃ after, FollowSets.pass g firsts follows = .ok after ∧
        (FollowSets.Proper g after ∧ start.Grows after) ∧
        (after ≠ follows → follows.total < after.total) := by
    rintro follows ⟨hfollows, hsince⟩
    obtain ⟨after, hafter, hproper, hgrows, -⟩ :=
      hfollows.pass_ok hg.toCrossReferenced hfirsts.toProper
    exact ⟨after, hafter, ⟨hproper, hsince.trans hgrows⟩, hgrows.total_lt⟩
  obtain ⟨followPasses, follows, hfollowPasses, ⟨hfollows, hsince⟩, hsettles⟩ := passes_settle _
    SetFamily.total hpass (fun _ h => h.1.total_le) ⟨hproper, .refl _⟩
    (show _ < g.passBound + _ by unfold Grammar.passBound; omega)
  obtain ⟨after, hafter, -, -, hrules⟩ := hfollows.pass_ok hg.toCrossReferenced hfirsts.toProper
  obtain rfl := Except.ok.inj (hsettles.fixed.symm.trans hafter)
  have hend := (hstart Grammar.start .endOfInput).2 ⟨rfl, .inl rfl⟩
  refine ⟨⟨firsts, follows, firstPasses, followPasses⟩, ?_,
    ⟨hfirsts, hfollows, hsince.mem hend, hrules⟩, hfirstSettles, start, hfirst, hsettles⟩
  exact bind_eq_ok.2 ⟨_, hfirstPasses, bind_eq_ok.2 ⟨start, hfirst,
    bind_eq_ok.2 ⟨_, hfollowPasses, rfl⟩⟩⟩

/-- The FIRST and FOLLOW sets of a grammar are found, and are closed under the rules. -/
theorem Lookahead.compute_ok {g : Grammar} (hg : g.Linked) :
    ∃ sets, compute g = .ok sets ∧ sets.Closed g := by
  obtain ⟨sets, hsets, hclosed, -⟩ := exists_settled hg
  exact ⟨sets, hsets, hclosed⟩

/-- The symbol after an occurrence of a non-terminal is in its FOLLOW set: it is the first symbol of
what the rest of the body derives, or else the one after the head of the rule. -/
theorem Lookahead.Closed.follow_of_parse {g : Grammar} {sets : Lookahead} {rule : Rule}
    {before rest u w : List Symbol} {n : NonterminalId} {ids : List RuleId} (h : sets.Closed g)
    (hg : g.CrossReferenced) (hrule : rule ∈ g.rules)
    (hbody : rule.body = before ++ .nonterminal n :: rest) (hparse : g.Parse ids rest u)
    (hw : w.headD .endOfInput ∈ sets.follows.elements rule.head) :
    (u ++ w).headD .endOfInput ∈ sets.follows.elements n := by
  have hrest : ∀ X ∈ rest, X ∈ g.columns := by
    obtain ⟨id, hid⟩ := Array.mem_iff_getElem?.1 hrule
    intro X hX
    exact hg.body_columns hid X (by simp [hbody, hX])
  refine h.occurrences rule hrule before n rest hbody _ ?_
  cases u with
  | nil => exact .follow (h.firsts.begins_of_derives hparse.derives .nil) hw
  | cons a u =>
    have ha := hparse.derives.mem_columns hg hrest a List.mem_cons_self
    have hinput := hparse.isInput a List.mem_cons_self
    have hstart : sets.firsts.Begins (a :: u) a := h.firsts.begins_head ha hinput
    have hbegins := h.firsts.begins_of_derives hparse.derives hstart
    exact .first hbegins (Symbol.ne_epsilon_of_isInput hinput)

end ShiftReduce
