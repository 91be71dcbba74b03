import ShiftReduce.Proofs.Lookahead.Follow

/-!
# How many passes there are

Every pass but the last one finds something. So the passes are at most one more than the elements
that they find. The two ends of input that FOLLOW starts with are found by no pass. After the last
pass no rule has anything to add.
-/

namespace ShiftReduce

/-- At least one pass is made. -/
theorem Settles.one_le {α : Type} {pass : α → Except Failure α} {count : Nat} {a c : α}
    (h : Settles pass a count c) : 1 ≤ count := by
  cases h with
  | last _ => exact Nat.le_refl 1
  | more _ _ _ => exact Nat.succ_le_succ (Nat.zero_le _)

/-- Each pass but the last one lets the size grow. -/
theorem Settles.add_count_le {α : Type} {pass : α → Except Failure α} (inv : α → Prop)
    (size : α → Nat) {count : Nat} {a c : α} (h : Settles pass a count c)
    (hpass : ∀ a b, inv a → pass a = .ok b → inv b ∧ (b ≠ a → size a < size b)) (ha : inv a) :
    size a + count ≤ size c + 1 := by
  induction h with
  | last _ => exact Nat.le_refl _
  | @more a b c count hb hne _ ih =>
    obtain ⟨hinv, hgrows⟩ := hpass a b ha hb
    have hlt := hgrows hne
    have hrest := ih hinv
    omega

/-- If a pass over a list changes nothing in the end and no step can be undone, because it lets a
size grow, then no step changes anything. -/
theorem foldlM_fixed {α β : Type} {xs : List β} {step : α → β → Except Failure α}
    (inv : α → Prop) (size : α → Nat) {a : α}
    (hstep : ∀ x ∈ xs, ∀ a b, inv a → step a x = .ok b → inv b ∧ (b ≠ a → size a < size b))
    (ha : inv a) (h : xs.foldlM step a = .ok a) : ∀ x ∈ xs, step a x = .ok a := by
  induction xs with
  | nil => simp
  | cons x xs ih =>
    rw [List.foldlM_cons] at h
    obtain ⟨b, hb, hrest⟩ := bind_eq_ok.1 h
    obtain ⟨hinv, hgrows⟩ := hstep x List.mem_cons_self a b ha hb
    have hlater := fun y hy => hstep y (List.mem_cons_of_mem x hy)
    have hle : size b ≤ size a := by
      refine (foldlM_keeps (fun now => inv now ∧ size b ≤ size now) ?_
        ⟨hinv, Nat.le_refl _⟩ hrest).2
      rintro y hy now next ⟨hnow, hsize⟩ hnext
      obtain ⟨hinv', hgrows'⟩ := hlater y hy now next hnow hnext
      by_cases heq : next = now
      · exact ⟨hinv', heq ▸ hsize⟩
      · exact ⟨hinv', Nat.le_trans hsize (Nat.le_of_lt (hgrows' heq))⟩
    have heq : b = a := by
      by_contra hne
      exact Nat.not_lt_of_le hle (hgrows hne)
    subst heq
    exact List.forall_mem_cons.2 ⟨hb, ih hlater hrest⟩

variable {g : Grammar}

namespace FirstSets

variable {sets after : FirstSets}

/-- A rule keeps FIRST sets proper, and adds something to them if it changes them. -/
theorem Proper.of_addRule {rule : Rule} (h : sets.Proper g) (hg : g.CrossReferenced)
    (hrule : rule ∈ g.rules.toList) (hok : sets.addRule rule = .ok after) :
    after.Proper g ∧ (after ≠ sets → sets.nonterminals.total < after.nonterminals.total) := by
  obtain ⟨id, hid⟩ := Array.mem_iff_getElem?.1 (Array.mem_toList_iff.1 hrule)
  obtain ⟨next, hnext, hproper, hgrows, -⟩ := h.addRule_ok (hg.body_columns hid) (hg.head_lt hid)
  obtain rfl := Except.ok.inj (hnext.symm.trans hok)
  exact ⟨hproper, hgrows.total_lt⟩

/-- A pass keeps FIRST sets proper, and adds something to them if it changes them. -/
theorem Proper.of_pass (h : sets.Proper g) (hg : g.CrossReferenced)
    (hok : pass g sets = .ok after) :
    after.Proper g ∧ (after ≠ sets → sets.nonterminals.total < after.nonterminals.total) := by
  obtain ⟨next, hnext, hproper, hgrows, -⟩ := h.pass_ok hg
  obtain rfl := Except.ok.inj (hnext.symm.trans hok)
  exact ⟨hproper, hgrows.total_lt⟩

/-- At first the FIRST sets of non-terminals are empty. -/
theorem total_start (g : Grammar) : (start g).nonterminals.total = 0 := by
  simp [start, SetFamily.total]

end FirstSets

namespace FollowSets

variable {firsts : FirstSets} {follows after : SetFamily Symbol}

/-- A rule keeps FOLLOW sets proper, and adds something to them if it changes them. -/
theorem Proper.of_addBody {rule : Rule} (h : Proper g follows) (hfirsts : firsts.Proper g)
    (hg : g.CrossReferenced) (hrule : rule ∈ g.rules.toList)
    (hok : addBody firsts rule.head rule.body follows = .ok after) :
    Proper g after ∧ (after ≠ follows → follows.total < after.total) := by
  obtain ⟨id, hid⟩ := Array.mem_iff_getElem?.1 (Array.mem_toList_iff.1 hrule)
  obtain ⟨next, hnext, hproper, hgrows, -⟩ :=
    h.addBody_ok hfirsts (hg.body_columns hid) (hg.head_lt hid)
  obtain rfl := Except.ok.inj (hnext.symm.trans hok)
  exact ⟨hproper, hgrows.total_lt⟩

/-- A pass keeps FOLLOW sets proper, and adds something to them if it changes them. -/
theorem Proper.of_pass (h : Proper g follows) (hfirsts : firsts.Proper g) (hg : g.CrossReferenced)
    (hok : pass g firsts follows = .ok after) :
    Proper g after ∧ (after ≠ follows → follows.total < after.total) := by
  obtain ⟨next, hnext, hproper, hgrows, -⟩ := h.pass_ok hg hfirsts
  obtain rfl := Except.ok.inj (hnext.symm.trans hok)
  exact ⟨hproper, hgrows.total_lt⟩

/-- At first the FOLLOW sets have two elements at least, one for each start symbol. -/
theorem two_le_total_start (hg : g.Linked) (hok : start g = .ok follows) :
    Proper g follows ∧ 2 ≤ follows.total := by
  obtain ⟨first, hfirst, hproper, hmem⟩ := proper_start hg
  obtain rfl := Except.ok.inj (hfirst.symm.trans hok)
  have hstarts : {Grammar.start, Grammar.sourceStart} ⊆ Finset.range first.size := by
    intro n hn
    rw [Finset.mem_range, hproper.size_eq]
    rcases Finset.mem_insert.1 hn with rfl | hn
    · exact hg.head_lt hg.augmented
    · rw [Finset.mem_singleton.1 hn]
      exact (hg.body_in hg.augmented (.nonterminal Grammar.sourceStart) List.mem_cons_self).2
  have hpos : ∀ n ∈ ({Grammar.start, Grammar.sourceStart} : Finset Nat),
      1 ≤ (first.elements n).length := by
    intro n hn
    have hend := (hmem n .endOfInput).2 ⟨rfl, by simpa using hn⟩
    exact List.length_pos_of_mem hend
  refine ⟨hproper, ?_⟩
  calc 2 = ({Grammar.start, Grammar.sourceStart} : Finset Nat).card • 1 := by decide
    _ ≤ ∑ n ∈ {Grammar.start, Grammar.sourceStart}, (first.elements n).length :=
      Finset.card_nsmul_le_sum _ _ 1 hpos
    _ ≤ first.total := Finset.sum_le_sum_of_subset hstarts

end FollowSets

namespace Lookahead

variable {sets : Lookahead}

/-- What can be said of the passes that found the sets of a grammar: they ended by themselves, there
are not more of them than what they found allows, and no rule has anything to add. -/
structure Economical (g : Grammar) (sets : Lookahead) : Prop extends sets.Settled g where
  size_firsts : sets.firsts.nonterminals.size = g.nonterminals.size
  size_follows : sets.follows.size = g.nonterminals.size
  one_le_firstPasses : 1 ≤ sets.firstPasses
  firstPasses_le : sets.firstPasses ≤ 1 + sets.firsts.nonterminals.total
  one_le_followPasses : 1 ≤ sets.followPasses
  followPasses_le : sets.followPasses ≤ sets.follows.total - 1
  firsts_fixed : ∀ rule ∈ g.rules, sets.firsts.addRule rule = .ok sets.firsts
  follows_fixed : ∀ rule ∈ g.rules,
    FollowSets.addBody sets.firsts rule.head rule.body sets.follows = .ok sets.follows

/-- The sets of a grammar that was read are found by passes that end by themselves. The passes for
FIRST are at most one more than the elements of the FIRST sets of all non-terminals, and the passes
for FOLLOW are fewer than the elements of the FOLLOW sets. No rule would add anything to the sets in
a further pass. -/
theorem passes_economical {options : ReadOptions} {tokens : List Token}
    (hread : Grammar.ofTokens options tokens = .ok g) :
    ∃ sets, compute g = .ok sets ∧ sets.Economical g := by
  have hg := (Grammar.wellFormed_ofTokens hread).toLinked
  have href := hg.toCrossReferenced
  obtain ⟨sets, hsets, hclosed, hsettled⟩ := exists_settled hg
  obtain ⟨start, hstart, hfollows⟩ := hsettled.follows
  have hfirsts := hclosed.firsts.toProper
  obtain ⟨hproper, htwo⟩ := FollowSets.two_le_total_start hg hstart
  have hfirstCount := hsettled.firsts.add_count_le (FirstSets.Proper g)
    (fun sets : FirstSets => sets.nonterminals.total) (fun _ _ h hok => h.of_pass href hok)
    (FirstSets.proper_start g)
  have hfollowCount := hfollows.add_count_le (FollowSets.Proper g) SetFamily.total
    (fun _ _ h hok => h.of_pass hfirsts href hok) hproper
  rw [FirstSets.total_start] at hfirstCount
  refine ⟨sets, hsets, hsettled, hfirsts.size_eq, hclosed.follows.size_eq,
    hsettled.firsts.one_le, by omega, hfollows.one_le, by omega, fun rule hrule => ?_,
    fun rule hrule => ?_⟩
  · exact foldlM_fixed (FirstSets.Proper g) (fun sets : FirstSets => sets.nonterminals.total)
      (fun _ hmem _ _ h hok => h.of_addRule href hmem hok) hfirsts hsettled.firsts.fixed rule
      (Array.mem_toList_iff.2 hrule)
  · exact foldlM_fixed (FollowSets.Proper g) SetFamily.total
      (fun _ hmem _ _ h hok => h.of_addBody hfirsts href hmem hok) hclosed.follows hfollows.fixed
      rule (Array.mem_toList_iff.2 hrule)

/-- The rules `C -> 'c'`, `B -> C`, `A -> B` and `S -> A` stand in the order in which the end of
input takes longest to come from `S` to `C`. Each of the first three passes for FOLLOW finds one
element, so the bound is reached. -/
theorem passes_economical_of_late_chain :
    ∃ g sets, Grammar.ofSource {} "S -> 's' ; C -> 'c' ; B -> C ; A -> B ; S -> A ;" = .ok g ∧
      compute g = .ok sets ∧ sets.Economical g ∧ sets.firstPasses = 3 ∧
      sets.firsts.nonterminals.total = 7 ∧ sets.followPasses = 4 ∧ sets.follows.total = 5 := by
  have hsource : (Grammar.ofSource {}
      "S -> 's' ; C -> 'c' ; B -> C ; A -> B ; S -> A ;").toOption.bind (fun g =>
        (compute g).toOption.map fun sets => (sets.firstPasses, sets.firsts.nonterminals.total,
          sets.followPasses, sets.follows.total)) = some (3, 7, 4, 5) := by
    decide +kernel
  obtain ⟨g, hok, hrest⟩ := Option.bind_eq_some_iff.1 hsource
  obtain ⟨sets, hsets, hcounts⟩ := Option.map_eq_some_iff.1 hrest
  simp only [Prod.mk.injEq] at hcounts
  have hread := eq_ok_of_toOption hok
  have hcompute := eq_ok_of_toOption hsets
  obtain ⟨sets', hsets', heconomical⟩ := passes_economical hread
  obtain rfl := Except.ok.inj (hcompute.symm.trans hsets')
  exact ⟨g, sets, hread, hcompute, heconomical, hcounts⟩

end Lookahead

end ShiftReduce
