import ShiftReduce.Proofs.Lookahead.Follow

/-!
# FIRST sets are exact

FIRST of a form is made of the input symbols with which a form starts that it derives, and of the
empty string if it derives that. The FIRST sets have all of this because they are closed under the
rules. They have nothing else because the start of the passes is sound and each rule keeps them so,
whatever the order of the rules.
-/

namespace ShiftReduce

namespace Grammar

/-- Why a symbol belongs to FIRST of a form: the form derives something that starts with it, or, for
the empty string, the form derives nothing at all. -/
inductive Starts (g : Grammar) (form : List Symbol) : Symbol → Prop
  | symbol {a : Symbol} {rest : List Symbol} : a ≠ .epsilon → g.Derives form (a :: rest) →
      Starts g form a
  | empty : g.Derives form [] → Starts g form .epsilon

/-- A list is FIRST of a form: it has exactly the input symbols that can start what the form
derives, and the empty string if the form derives it, each once. -/
structure IsFirst (g : Grammar) (form firsts : List Symbol) : Prop where
  nodup : firsts.Nodup
  mem_iff : ∀ a, a.isInput = true → (a ∈ firsts ↔ ∃ rest, g.Derives form (a :: rest))
  epsilon_iff : .epsilon ∈ firsts ↔ g.Derives form []
  /-- There is nothing else in the list. -/
  only : ∀ a ∈ firsts, a.isInput = true ∨ a = .epsilon

variable {g : Grammar} {u v : List Symbol} {a : Symbol}

/-- What can start a derived form can start the form. -/
theorem Starts.of_derives (hderives : g.Derives u v) (h : g.Starts v a) : g.Starts u a := by
  cases h with
  | symbol hne hrest => exact .symbol hne (hderives.trans hrest)
  | empty hempty => exact .empty (hderives.trans hempty)

/-- What a string starts with does not depend on what comes after it. -/
theorem Starts.append_right (v : List Symbol) (h : g.Starts u a) (hne : a ≠ .epsilon) :
    g.Starts (u ++ v) a := by
  cases h with
  | symbol _ hrest => exact .symbol hne (hrest.append_right v)
  | empty _ => exact absurd rfl hne

/-- After a form that vanishes, the next form starts. -/
theorem Starts.append_left (hu : g.Derives u []) (h : g.Starts v a) : g.Starts (u ++ v) a :=
  .of_derives (hu.append_right v) h

/-- The empty string is among the starts of a string if the string vanishes. -/
theorem starts_epsilon_iff : g.Starts u .epsilon ↔ g.Derives u [] := by
  constructor
  · intro h
    cases h with
    | symbol hne _ => exact absurd rfl hne
    | empty hempty => exact hempty
  · exact .empty

end Grammar

namespace FirstSets

variable {g : Grammar} {sets after : FirstSets} {X a : Symbol} {Xs : List Symbol}

/-- The FIRST sets of the non-terminals have only what belongs there. -/
def Sound (g : Grammar) (sets : FirstSets) : Prop :=
  ∀ n a, a ∈ sets.nonterminals.elements n → g.Starts [.nonterminal n] a

/-- The sets at the start have nothing that they should not have. -/
theorem sound_start (g : Grammar) : (start g).Sound g := by
  intro n a ha
  simp [start] at ha

/-- FIRST of a symbol is sound. -/
theorem Sound.starts_of_has (h : sets.Sound g) (hproper : sets.Proper g) (hX : X ∈ g.columns)
    (ha : sets.Has X a) : g.Starts [X] a := by
  cases X with
  | terminal t =>
    rw [(hproper.has_terminal (Grammar.terminal_mem_columns.1 hX)).1 ha]
    exact .symbol (by simp) (.refl _)
  | nonterminal n => exact h n a (has_nonterminal.1 ha)
  | epsilon => exact absurd hX (Grammar.epsilon_not_mem_columns g)
  | endOfInput =>
    rw [has_endOfInput.1 ha]
    exact .symbol (by simp) (.refl _)

/-- FIRST of a string, found in the sets of its symbols, is sound. -/
theorem Sound.starts_of_begins (h : sets.Sound g) (hproper : sets.Proper g)
    (hXs : ∀ X ∈ Xs, X ∈ g.columns) (ha : sets.Begins Xs a) : g.Starts Xs a := by
  induction ha with
  | nil => exact .empty (.refl _)
  | here hX hne =>
    have hstarts := h.starts_of_has hproper (hXs _ List.mem_cons_self) hX
    exact hstarts.append_right _ hne
  | later hX _ ih =>
    obtain ⟨hcolumn, hrest⟩ := List.forall_mem_cons.1 hXs
    have hvanish := Grammar.starts_epsilon_iff.1 (h.starts_of_has hproper hcolumn hX)
    exact (ih hrest).append_left hvanish

/-- A rule keeps the FIRST sets sound: what it adds to its head starts its body. -/
theorem Sound.addRule {id : RuleId} {rule : Rule} (h : sets.Sound g) (hproper : sets.Proper g)
    (hg : g.CrossReferenced) (hrule : g.rules[id]? = some rule)
    (hok : sets.addRule rule = .ok after) : after.Proper g ∧ after.Sound g := by
  obtain ⟨next, hnext, hproper', -, hmem⟩ :=
    hproper.addRule_ok (hg.body_columns hrule) (hg.head_lt hrule)
  obtain rfl := Except.ok.inj (hnext.symm.trans hok)
  refine ⟨hproper', fun n a ha => ?_⟩
  rcases (hmem n a).1 ha with hold | ⟨rfl, hbegins⟩
  · exact h n a hold
  · have hbody := h.starts_of_begins hproper (hg.body_columns hrule) hbegins
    exact hbody.of_derives (Grammar.derives_of_rule hrule)

/-- A pass keeps the FIRST sets sound. -/
theorem Sound.pass (h : sets.Sound g) (hproper : sets.Proper g) (hg : g.CrossReferenced)
    (hok : FirstSets.pass g sets = .ok after) : after.Proper g ∧ after.Sound g := by
  refine foldlM_keeps (fun now : FirstSets => now.Proper g ∧ now.Sound g) ?_ ⟨hproper, h⟩ hok
  rintro rule hmem now next ⟨hnow, hsound⟩ hnext
  obtain ⟨id, hrule⟩ := Array.mem_iff_getElem?.1 (Array.mem_toList_iff.1 hmem)
  exact hsound.addRule hnow hg hrule hnext

/-- The FIRST sets that passes find are sound. -/
theorem sound_of_passes {fuel count : Nat} (hg : g.CrossReferenced)
    (h : passes (FirstSets.pass g) fuel (start g) = .ok (count, sets)) : sets.Sound g := by
  refine (passes_keeps (fun now : FirstSets => now.Proper g ∧ now.Sound g) ?_
    ⟨proper_start g, sound_start g⟩ h).2
  rintro now next ⟨hproper, hsound⟩ hnext
  exact hsound.pass hproper hg hnext

/-- FIRST of a form has the symbols that can start what the form derives. -/
theorem Closed.begins_iff (h : sets.Closed g) (hsound : sets.Sound g) (hg : g.CrossReferenced)
    (hXs : ∀ X ∈ Xs, X ∈ g.columns) (ha : a.isInput = true) :
    sets.Begins Xs a ↔ ∃ rest, g.Derives Xs (a :: rest) := by
  constructor
  · intro hbegins
    cases hsound.starts_of_begins h.toProper hXs hbegins with
    | symbol _ hderives => exact ⟨_, hderives⟩
    | empty _ => exact absurd rfl (Symbol.ne_epsilon_of_isInput ha)
  · rintro ⟨rest, hderives⟩
    have hcolumn := hderives.mem_columns hg hXs a List.mem_cons_self
    have hhead : sets.Begins (a :: rest) a := h.begins_head hcolumn ha
    exact h.begins_of_derives hderives hhead

/-- FIRST of a form has the empty string if the form derives it. -/
theorem Closed.begins_epsilon_iff (h : sets.Closed g) (hsound : sets.Sound g)
    (hXs : ∀ X ∈ Xs, X ∈ g.columns) : sets.Begins Xs .epsilon ↔ g.Derives Xs [] := by
  constructor
  · intro hbegins
    exact Grammar.starts_epsilon_iff.1 (hsound.starts_of_begins h.toProper hXs hbegins)
  · intro hderives
    exact h.begins_of_derives hderives .nil

/-- A list without repetitions that has what the sets say about a form is FIRST of the form. -/
theorem Closed.isFirst {firsts : List Symbol} (h : sets.Closed g) (hsound : sets.Sound g)
    (hg : g.CrossReferenced) (hXs : ∀ X ∈ Xs, X ∈ g.columns) (hnodup : firsts.Nodup)
    (hmem : ∀ a, a ∈ firsts ↔ sets.Begins Xs a) : g.IsFirst Xs firsts where
  nodup := hnodup
  mem_iff a ha := (hmem a).trans (h.begins_iff hsound hg hXs ha)
  epsilon_iff := (hmem .epsilon).trans (h.begins_epsilon_iff hsound hXs)
  only a ha := by
    have hlookahead := h.mem_lookaheads hXs ((hmem a).1 ha)
    rcases List.mem_cons.1 hlookahead with hepsilon | hinput
    · exact .inr hepsilon
    · exact .inl (Grammar.isInput_of_mem_inputSymbols hinput)

end FirstSets

namespace Lookahead

variable {g : Grammar} {sets : Lookahead}

/-- The passes that found the sets. -/
theorem passes_of_compute (h : compute g = .ok sets) :
    (∃ count, passes (FirstSets.pass g) g.passBound (.start g) = .ok (count, sets.firsts)) ∧
      ∃ count, (FollowSets.start g >>= passes (FollowSets.pass g sets.firsts) g.passBound) =
        .ok (count, sets.follows) := by
  obtain ⟨⟨firstPasses, firsts⟩, hfirsts, h⟩ := bind_eq_ok.1 h
  obtain ⟨start, hstart, h⟩ := bind_eq_ok.1 h
  obtain ⟨⟨followPasses, follows⟩, hfollows, h⟩ := bind_eq_ok.1 h
  obtain rfl := Except.ok.inj h
  exact ⟨⟨firstPasses, hfirsts⟩, followPasses, bind_eq_ok.2 ⟨start, hstart, hfollows⟩⟩

/-- The sets of a grammar that was read can be found, and its FIRST sets are exact: for each
non-terminal and for each form, FIRST is what derivations say, and a non-terminal counts as nullable
if it derives the empty string. -/
theorem first_exact {options : ReadOptions} {tokens : List Token}
    (hread : Grammar.ofTokens options tokens = .ok g) :
    ∃ sets, compute g = .ok sets ∧
      (∀ n < g.nonterminals.size, ∃ firsts nullable, sets.first (.nonterminal n) = .ok firsts ∧
        sets.nullable n = .ok nullable ∧ g.IsFirst [.nonterminal n] firsts ∧
        (nullable = true ↔ g.Derives [.nonterminal n] [])) ∧
      ∀ form, (∀ X ∈ form, X ∈ g.columns) →
        ∃ firsts, sets.firstOfSequence form = .ok firsts ∧ g.IsFirst form firsts := by
  have hg := (Grammar.wellFormed_ofTokens hread).toLinked
  obtain ⟨sets, hsets, hclosed⟩ := compute_ok hg
  obtain ⟨⟨count, hpasses⟩, -⟩ := passes_of_compute hsets
  have hsound := FirstSets.sound_of_passes hg.toCrossReferenced hpasses
  refine ⟨sets, hsets, fun n hn => ?_, fun form hform => ?_⟩
  · have hsize : n < sets.firsts.nonterminals.size := hclosed.firsts.size_eq ▸ hn
    have hentry := entry_eq_ok.2 (SetFamily.getElem?_sets hsize)
    have hcolumns : ∀ X ∈ [Symbol.nonterminal n], X ∈ g.columns := by simpa using hn
    have hfirst : g.IsFirst [.nonterminal n] (sets.firsts.nonterminals.elements n) := by
      refine hclosed.firsts.isFirst hsound hg.toCrossReferenced hcolumns
        (hclosed.firsts.within.nodup n) fun a => ?_
      rw [FirstSets.begins_singleton, FirstSets.has_nonterminal]
    refine ⟨_, (sets.firsts.nonterminals.elements n).contains .epsilon, hentry, ?_, hfirst, ?_⟩
    · exact bind_eq_ok.2 ⟨_, hentry, rfl⟩
    · rw [List.contains_iff_mem]
      exact hfirst.epsilon_iff
  · obtain ⟨firsts, hfirsts, hnodup, hmem⟩ := hclosed.firsts.ofSequence_ok hform
    exact ⟨firsts, hfirsts,
      hclosed.firsts.isFirst hsound hg.toCrossReferenced hform hnodup hmem⟩

/-- For the rules `A -> B C 'a'`, `B -> 'b' |` and `C -> 'c' |`, in which `B` and `C` can vanish,
FIRST of `B C` has `b`, `c` and the empty string. -/
theorem first_exact_of_chain :
    ∃ g sets, Grammar.ofSource {} "A -> B C 'a' ; B -> 'b' | ; C -> 'c' | ;" = .ok g ∧
      compute g = .ok sets ∧ sets.firstOfSequence [.nonterminal 2, .nonterminal 3] =
        .ok [.terminal 1, .terminal 2, .epsilon] ∧
      g.IsFirst [.nonterminal 2, .nonterminal 3] [.terminal 1, .terminal 2, .epsilon] := by
  have hsource : (Grammar.ofSource {} "A -> B C 'a' ; B -> 'b' | ; C -> 'c' | ;").toOption.bind
      (fun g => (compute g).toOption.bind fun sets =>
        (sets.firstOfSequence [.nonterminal 2, .nonterminal 3]).toOption.map
          fun firsts => (g.nonterminals.size, firsts)) =
      some (4, [.terminal 1, .terminal 2, .epsilon]) := by
    decide +kernel
  obtain ⟨g, hok, hrest⟩ := Option.bind_eq_some_iff.1 hsource
  obtain ⟨sets, hsets, hrest⟩ := Option.bind_eq_some_iff.1 hrest
  obtain ⟨firsts, hfirsts, hparts⟩ := Option.map_eq_some_iff.1 hrest
  obtain ⟨hsize, rfl⟩ := Prod.mk.inj hparts
  have hread := eq_ok_of_toOption hok
  have hcompute := eq_ok_of_toOption hsets
  have hsequence := eq_ok_of_toOption hfirsts
  have hcolumns : ∀ X ∈ [Symbol.nonterminal 2, .nonterminal 3], X ∈ g.columns := by simp [hsize]
  obtain ⟨sets', hsets', -, hforms⟩ := first_exact hread
  obtain rfl := Except.ok.inj (hcompute.symm.trans hsets')
  obtain ⟨firsts', hfirsts', hexact⟩ := hforms _ hcolumns
  obtain rfl := Except.ok.inj (hsequence.symm.trans hfirsts')
  exact ⟨g, sets, hread, hcompute, hsequence, hexact⟩

end Lookahead

end ShiftReduce
