import ShiftReduce.Proofs.Lookahead.FirstExact

/-!
# FOLLOW sets are exact

A symbol can follow a non-terminal if it stands right after it in a form that some non-terminal
derives, or if it is the end of input and the non-terminal ends a form that a start symbol derives.
The FOLLOW sets have nothing else because every occurrence in a rule keeps them sound. They have all
of this because what an occurrence asks for in the body of a rule, it also gets in every form that
is derived from a non-terminal.
-/

namespace ShiftReduce

namespace Grammar

/-- Why a symbol belongs to FOLLOW of a non-terminal. -/
inductive CanFollow (g : Grammar) (n : NonterminalId) : Symbol → Prop
  /-- A non-terminal, which need not be reachable, derives a form in which the symbol comes next. -/
  | inner {m : NonterminalId} {before after : List Symbol} {a : Symbol} :
      m < g.nonterminals.size →
      g.Derives [.nonterminal m] (before ++ .nonterminal n :: a :: after) → CanFollow g n a
  /-- A start symbol derives a form that ends with the non-terminal. -/
  | atEnd {m : NonterminalId} {before : List Symbol} : m = start ∨ m = sourceStart →
      g.Derives [.nonterminal m] (before ++ [.nonterminal n]) → CanFollow g n .endOfInput

/-- A list is FOLLOW of a non-terminal: it has exactly the input symbols that can follow the
non-terminal, each once. -/
structure IsFollow (g : Grammar) (n : NonterminalId) (follows : List Symbol) : Prop where
  nodup : follows.Nodup
  mem_iff : ∀ a, a.isInput = true → (a ∈ follows ↔ g.CanFollow n a)
  /-- There is nothing else in the list, in particular not the empty string. -/
  only : ∀ a ∈ follows, a.isInput = true

variable {g : Grammar} {n : NonterminalId} {a X : Symbol} {id : RuleId} {rule : Rule}
  {before rest rest' : List Symbol}

/-- The rest of a body can be derived further after a symbol of the body. -/
theorem derives_rest (hrule : g.rules[id]? = some rule) (hbody : rule.body = before ++ X :: rest)
    (hrest : g.Derives rest rest') : g.Derives [.nonterminal rule.head] (before ++ X :: rest') := by
  have hafter : g.Derives (before ++ X :: rest) (before ++ X :: rest') :=
    (hrest.append_left [X]).append_left before
  rw [← hbody] at hafter
  exact (derives_of_rule hrule).trans hafter

/-- What the rest of a body can start with can follow the symbol before the rest. -/
theorem CanFollow.of_starts (hg : g.CrossReferenced) (hrule : g.rules[id]? = some rule)
    (hbody : rule.body = before ++ .nonterminal n :: rest) (h : g.Starts rest a)
    (hne : a ≠ .epsilon) : g.CanFollow n a := by
  cases h with
  | symbol _ hderives => exact .inner (hg.head_lt hrule) (derives_rest hrule hbody hderives)
  | empty _ => exact absurd rfl hne

/-- If the rest of a body vanishes, what can follow the head can follow the symbol before the
rest. -/
theorem CanFollow.of_head (hrule : g.rules[id]? = some rule)
    (hbody : rule.body = before ++ .nonterminal n :: rest) (hrest : g.Derives rest [])
    (h : g.CanFollow rule.head a) : g.CanFollow n a := by
  have hhead := derives_rest hrule hbody hrest
  cases h with
  | inner hm hderives => exact .inner hm (hderives.refine hhead)
  | atEnd hm hderives => exact .atEnd hm (hderives.refine hhead)

/-- The start symbol is reachable. -/
theorem reachable_start (g : Grammar) : g.Reachable start := ⟨[], [], .refl _⟩

/-- The non-terminals in the body of a rule can be reached if its head can. -/
theorem Reachable.of_rule (hrule : g.rules[id]? = some rule) (h : g.Reachable rule.head)
    (hn : .nonterminal n ∈ rule.body) : g.Reachable n := by
  obtain ⟨before, after, hhead⟩ := h
  obtain ⟨left, right, hbody⟩ := List.append_of_mem hn
  have hrest := derives_rest hrule hbody (.refl right)
  exact ⟨before ++ left, right ++ after, hhead.refine hrest⟩

/-- If all non-terminals can be reached, what follows a non-terminal does so in a form that the
augmented start symbol derives. The augmented start symbol itself derives no form that ends with
another non-terminal, and the end of input follows all that the other start symbol derives. -/
theorem canFollow_iff_of_allReachable (hg : g.Linked) (hreachable : g.AllReachable)
    (hn : n ≠ start) : g.CanFollow n a ↔
      ∃ before after, g.Derives [.nonterminal start] (before ++ .nonterminal n :: a :: after) := by
  constructor
  · intro h
    cases h with
    | @inner m left right a hm hderives =>
      obtain ⟨before, after, hm⟩ := hreachable m hm
      exact ⟨before ++ left, right ++ after, hm.refine hderives⟩
    | @atEnd m left hm hderives =>
      rcases hm with rfl | rfl
      · rcases hderives.of_start hg with hself | ⟨front, hform, -⟩
        · have hlast := (List.append_inj' (show left ++ _ = [] ++ _ from hself) rfl).2
          exact absurd (Symbol.nonterminal.inj (List.cons.inj hlast).1) hn
        · have hlast := (List.append_inj' hform rfl).2
          cases (List.cons.inj hlast).1
      · have hfirst : g.Derives [.nonterminal start] ([] ++ .nonterminal sourceStart ::
            [.endOfInput]) := derives_of_rule hg.augmented
        exact ⟨left, [], hfirst.refine hderives⟩
  · rintro ⟨before, after, hderives⟩
    exact .inner (hg.head_lt hg.augmented) hderives

end Grammar

namespace FollowSets

variable {g : Grammar} {firsts : FirstSets} {follows after : SetFamily Symbol} {a : Symbol}
  {n m : NonterminalId} {id : RuleId} {rule : Rule} {before rest : List Symbol}

/-- The FOLLOW sets have only what belongs there. -/
def Sound (g : Grammar) (follows : SetFamily Symbol) : Prop :=
  ∀ n a, a ∈ follows.elements n → g.CanFollow n a

/-- The FOLLOW sets at first are sound. -/
theorem sound_start (hg : g.Linked) (hok : start g = .ok follows) :
    Proper g follows ∧ Sound g follows := by
  obtain ⟨follows', hok', hproper, hmem⟩ := proper_start hg
  obtain rfl := Except.ok.inj (hok'.symm.trans hok)
  refine ⟨hproper, fun n a ha => ?_⟩
  obtain ⟨rfl, hn⟩ := (hmem n a).1 ha
  have hself : g.Derives [.nonterminal n] ([] ++ [.nonterminal n]) := .refl _
  exact .atEnd hn hself

/-- An occurrence of a non-terminal in a rule keeps the FOLLOW sets sound. -/
theorem Sound.addOccurrence (h : Sound g follows) (hproper : Proper g follows)
    (hfirsts : firsts.Sound g) (hfirstsProper : firsts.Proper g) (hg : g.CrossReferenced)
    (hrule : g.rules[id]? = some rule) (hbody : rule.body = before ++ .nonterminal n :: rest)
    (hok : FollowSets.addOccurrence firsts rule.head n rest follows = .ok after) :
    Proper g after ∧ Sound g after := by
  have hcolumns : ∀ X ∈ before ++ .nonterminal n :: rest, X ∈ g.columns :=
    hbody ▸ hg.body_columns hrule
  obtain ⟨hn, hrest⟩ := List.forall_mem_cons.1 (List.forall_mem_append.1 hcolumns).2
  obtain ⟨next, hnext, hproper', -, hmem⟩ := hproper.addOccurrence_ok hfirstsProper hrest
    (hg.head_lt hrule) (Grammar.nonterminal_mem_columns.1 hn)
  obtain rfl := Except.ok.inj (hnext.symm.trans hok)
  refine ⟨hproper', fun k a ha => ?_⟩
  rcases (hmem k a).1 ha with hold | ⟨rfl, hasks⟩
  · exact h k a hold
  · cases hasks with
    | first hbegins hne =>
      exact .of_starts hg hrule hbody (hfirsts.starts_of_begins hfirstsProper hrest hbegins) hne
    | follow hbegins hhead =>
      have hvanish := hfirsts.starts_of_begins hfirstsProper hrest hbegins
      exact .of_head hrule hbody (Grammar.starts_epsilon_iff.1 hvanish) (h rule.head a hhead)

/-- The rest of a body keeps the FOLLOW sets sound. -/
theorem Sound.addBody (h : Sound g follows) (hproper : Proper g follows)
    (hfirsts : firsts.Sound g) (hfirstsProper : firsts.Proper g) (hg : g.CrossReferenced)
    (hrule : g.rules[id]? = some rule) (hbody : rule.body = before ++ rest)
    (hok : FollowSets.addBody firsts rule.head rest follows = .ok after) :
    Proper g after ∧ Sound g after := by
  induction rest generalizing before follows with
  | nil =>
    obtain rfl := Except.ok.inj hok
    exact ⟨hproper, h⟩
  | cons X rest ih =>
    have hbody' : rule.body = (before ++ [X]) ++ rest := by
      rw [hbody, List.append_assoc, List.singleton_append]
    cases X with
    | nonterminal n =>
      obtain ⟨middle, hmiddle, hrest⟩ := bind_eq_ok.1 hok
      obtain ⟨hproper', hsound⟩ :=
        h.addOccurrence hproper hfirsts hfirstsProper hg hrule hbody hmiddle
      exact ih hsound hproper' hbody' hrest
    | terminal t => exact ih h hproper hbody' hok
    | epsilon => exact ih h hproper hbody' hok
    | endOfInput => exact ih h hproper hbody' hok

/-- A pass keeps the FOLLOW sets sound. -/
theorem Sound.pass (h : Sound g follows) (hproper : Proper g follows) (hfirsts : firsts.Sound g)
    (hfirstsProper : firsts.Proper g) (hg : g.CrossReferenced)
    (hok : FollowSets.pass g firsts follows = .ok after) : Proper g after ∧ Sound g after := by
  refine foldlM_keeps (fun now => Proper g now ∧ Sound g now) ?_ ⟨hproper, h⟩ hok
  rintro rule hmem now next ⟨hnow, hsound⟩ hnext
  obtain ⟨id, hrule⟩ := Array.mem_iff_getElem?.1 (Array.mem_toList_iff.1 hmem)
  have hbody : rule.body = [] ++ rule.body := rfl
  exact hsound.addBody hnow hfirsts hfirstsProper hg hrule hbody hnext

/-- The FOLLOW sets that passes find are sound. -/
theorem sound_of_passes {fuel count : Nat} (hg : g.Linked) (hfirsts : firsts.Sound g)
    (hfirstsProper : firsts.Proper g)
    (h : (start g >>= passes (FollowSets.pass g firsts) fuel) = .ok (count, follows)) :
    Sound g follows := by
  obtain ⟨first, hfirst, h⟩ := bind_eq_ok.1 h
  refine (passes_keeps (fun now => Proper g now ∧ Sound g now) ?_ (sound_start hg hfirst) h).2
  rintro now next ⟨hproper, hsound⟩ hnext
  exact hsound.pass hproper hfirsts hfirstsProper hg.toCrossReferenced hnext

/-- What an occurrence asks for depends on FIRST of what stands after it. -/
theorem Asks.of_begins {rest' : List Symbol}
    (hrest : ∀ b, firsts.Begins rest b → firsts.Begins rest' b)
    (h : Asks firsts follows m rest a) : Asks firsts follows m rest' a := by
  cases h with
  | first hbegins hne => exact .first (hrest a hbegins) hne
  | follow hbegins ha => exact .follow (hrest .epsilon hbegins) ha

/-- What an occurrence before two strings asks for comes from the first one, or from the second one
if the first one can vanish. -/
theorem asks_append {rest' : List Symbol} : Asks firsts follows m (rest ++ rest') a ↔
    firsts.Begins rest a ∧ a ≠ .epsilon ∨
      firsts.Begins rest .epsilon ∧ Asks firsts follows m rest' a := by
  simp only [asks_iff, FirstSets.begins_append]
  tauto

end FollowSets

namespace Lookahead

variable {g : Grammar} {sets : Lookahead} {a : Symbol} {n m : NonterminalId}
  {form before after : List Symbol} {id : RuleId} {rule : Rule}

/-- The occurrences of non-terminals in a form that a non-terminal derives get what they ask for. -/
def Answers (sets : Lookahead) (m : NonterminalId) (form : List Symbol) : Prop :=
  ∀ before n rest, form = before ++ .nonterminal n :: rest →
    ∀ a, FollowSets.Asks sets.firsts sets.follows m rest a → a ∈ sets.follows.elements n

/-- A form that is a non-terminal alone asks for what the non-terminal has. -/
theorem answers_singleton (sets : Lookahead) (m : NonterminalId) :
    sets.Answers m [.nonterminal m] := by
  intro before n rest hform a ha
  obtain ⟨-, hn, rfl⟩ := Grammar.of_singleton_eq hform
  rw [Symbol.nonterminal.inj hn]
  cases ha with
  | first hbegins hne => exact absurd (FirstSets.begins_nil.1 hbegins) hne
  | follow _ ha => exact ha

namespace Closed

/-- After a step the occurrences still get what they ask for. An occurrence in the new body gets it
by the rule, with FOLLOW of the head for what comes after the body. -/
theorem answers_replace (h : sets.Closed g) (hrule : g.rules[id]? = some rule)
    (hform : sets.Answers m (before ++ .nonterminal rule.head :: after)) :
    sets.Answers m (before ++ rule.body ++ after) := by
  intro left n right hsplit a ha
  rcases Grammar.occurrence_cases hsplit with ⟨rest, hbefore, hright⟩ |
    ⟨front, rest, hbody, -, hright⟩ | ⟨front, hafter, -⟩
  · have hstep : g.Step (rest ++ .nonterminal rule.head :: after) right :=
      hright ▸ .replace rest after hrule
    refine hform left n (rest ++ .nonterminal rule.head :: after) ?_ a
      (ha.of_begins fun b hb => h.firsts.begins_of_step hstep hb)
    rw [hbefore, List.append_assoc, List.cons_append]
  · have hoccurrence := h.occurrences rule (Array.mem_of_getElem? hrule) front n rest hbody a
    rw [hright, FollowSets.asks_append] at ha
    rcases ha with ⟨hbegins, hne⟩ | ⟨hvanish, hasks⟩
    · exact hoccurrence (.first hbegins hne)
    · exact hoccurrence (.follow hvanish (hform before rule.head after rfl a hasks))
  · refine hform (before ++ .nonterminal rule.head :: front) n right ?_ a ha
    rw [hafter, List.append_assoc, List.cons_append]

/-- The occurrences in every form that a non-terminal derives get what they ask for. -/
theorem answers_of_derives (h : sets.Closed g) (hderives : g.Derives [.nonterminal m] form) :
    sets.Answers m form := by
  have hkeeps {u v : List Symbol} (hderives : g.Derives u v) (hu : sets.Answers m u) :
      sets.Answers m v := by
    induction hderives with
    | refl => exact hu
    | step hstep _ ih =>
      cases hstep with
      | replace before after hrule => exact ih (h.answers_replace hrule hu)
  exact hkeeps hderives (answers_singleton sets m)

/-- The end of input follows both start symbols. -/
theorem endOfInput_mem (h : sets.Closed g) (hg : g.Linked)
    (hm : m = Grammar.start ∨ m = Grammar.sourceStart) :
    .endOfInput ∈ sets.follows.elements m := by
  rcases hm with rfl | rfl
  · exact h.start
  · have hbegins : sets.firsts.Begins [.endOfInput] .endOfInput :=
      h.firsts.begins_head (Grammar.endOfInput_mem_columns g) rfl
    exact h.occurrences _ (Array.mem_of_getElem? hg.augmented) [] _ [.endOfInput] rfl _
      (.first hbegins (by simp))

/-- What can follow a non-terminal is in its FOLLOW set. -/
theorem mem_of_canFollow (h : sets.Closed g) (hg : g.Linked) (ha : a.isInput = true)
    (hfollow : g.CanFollow n a) : a ∈ sets.follows.elements n := by
  cases hfollow with
  | @inner m before after a hm hderives =>
    have hm : ∀ X ∈ [Symbol.nonterminal m], X ∈ g.columns := by simpa using hm
    have hcolumn := hderives.mem_columns hg.toCrossReferenced hm a (by simp)
    have hbegins : sets.firsts.Begins (a :: after) a := h.firsts.begins_head hcolumn ha
    exact h.answers_of_derives hderives before n (a :: after) rfl a
      (.first hbegins (Symbol.ne_epsilon_of_isInput ha))
  | @atEnd m before hm hderives =>
    exact h.answers_of_derives hderives before n [] rfl _ (.follow .nil (h.endOfInput_mem hg hm))

end Closed

/-- The sets of a grammar that was read can be found, and its FOLLOW sets are exact: FOLLOW of each
non-terminal is what derivations say. If all non-terminals can be reached from the augmented start
symbol, then FOLLOW of another non-terminal has exactly the input symbols that stand after it in the
forms that the augmented start symbol derives. -/
theorem follow_exact {options : ReadOptions} {tokens : List Token}
    (hread : Grammar.ofTokens options tokens = .ok g) :
    ∃ sets, compute g = .ok sets ∧ ∀ n < g.nonterminals.size,
      ∃ follows, sets.follow (.nonterminal n) = .ok follows ∧ g.IsFollow n follows ∧
        (g.AllReachable → n ≠ Grammar.start → ∀ a, a ∈ follows ↔ a.isInput = true ∧
          ∃ before after, g.Derives [.nonterminal Grammar.start]
            (before ++ .nonterminal n :: a :: after)) := by
  have hg := (Grammar.wellFormed_ofTokens hread).toLinked
  obtain ⟨sets, hsets, hclosed⟩ := compute_ok hg
  obtain ⟨⟨_, hfirstPasses⟩, _, hfollowPasses⟩ := passes_of_compute hsets
  have hfirsts := FirstSets.sound_of_passes hg.toCrossReferenced hfirstPasses
  have hsound := FollowSets.sound_of_passes hg hfirsts hclosed.firsts.toProper hfollowPasses
  refine ⟨sets, hsets, fun n hn => ?_⟩
  have hsize : n < sets.follows.size := hclosed.follows.size_eq ▸ hn
  have hentry := entry_eq_ok.2 (SetFamily.getElem?_sets hsize)
  have hinput : ∀ a ∈ sets.follows.elements n, a.isInput = true :=
    fun a ha => Grammar.isInput_of_mem_inputSymbols (hclosed.follows.within.subset n ha)
  have hmem : ∀ a, a.isInput = true → (a ∈ sets.follows.elements n ↔ g.CanFollow n a) :=
    fun a ha => ⟨hsound n a, hclosed.mem_of_canFollow hg ha⟩
  refine ⟨_, hentry, ⟨hclosed.follows.within.nodup n, hmem, hinput⟩, fun hreachable hne a => ?_⟩
  rw [← Grammar.canFollow_iff_of_allReachable hg hreachable hne]
  constructor
  · exact fun ha => ⟨hinput a ha, (hmem a (hinput a ha)).1 ha⟩
  · exact fun ⟨ha, hfollow⟩ => (hmem a ha).2 hfollow

/-- For the rules `S -> A 'x'`, `A -> 'a' B` and `B -> 'b'`, in which every non-terminal can be
reached, FOLLOW of `B` has the `x` that comes after `A`. -/
theorem follow_exact_of_inherited :
    ∃ g sets, Grammar.ofSource {} "S -> A 'x' ; A -> 'a' B ; B -> 'b' ;" = .ok g ∧
      compute g = .ok sets ∧ g.AllReachable ∧
      sets.follow (.nonterminal 3) = .ok [.terminal 0] ∧ g.IsFollow 3 [.terminal 0] ∧
      ∀ a, a ∈ [Symbol.terminal 0] ↔ a.isInput = true ∧ ∃ before after,
        g.Derives [.nonterminal Grammar.start] (before ++ .nonterminal 3 :: a :: after) := by
  have hsource : (Grammar.ofSource {} "S -> A 'x' ; A -> 'a' B ; B -> 'b' ;").toOption.bind
      (fun g => (compute g).toOption.bind fun sets =>
        (sets.follow (.nonterminal 3)).toOption.map
          fun follows => (g.nonterminals.size, g.rules, follows)) =
      some (4, #[⟨0, [.nonterminal 1, .endOfInput]⟩, ⟨1, [.nonterminal 2, .terminal 0]⟩,
        ⟨2, [.terminal 1, .nonterminal 3]⟩, ⟨3, [.terminal 2]⟩], [.terminal 0]) := by
    decide +kernel
  obtain ⟨g, hok, hrest⟩ := Option.bind_eq_some_iff.1 hsource
  obtain ⟨sets, hsets, hrest⟩ := Option.bind_eq_some_iff.1 hrest
  obtain ⟨follows, hfollows, hparts⟩ := Option.map_eq_some_iff.1 hrest
  obtain ⟨hsize, hparts⟩ := Prod.mk.inj hparts
  obtain ⟨hrules, rfl⟩ := Prod.mk.inj hparts
  have hread := eq_ok_of_toOption hok
  have hcompute := eq_ok_of_toOption hsets
  have hfollow := eq_ok_of_toOption hfollows
  have hzero : g.Reachable 0 := g.reachable_start
  have hone : g.Reachable 1 := .of_rule (congrArg (·[0]?) hrules) hzero (by simp)
  have htwo : g.Reachable 2 := .of_rule (congrArg (·[1]?) hrules) hone (by simp)
  have hthree : g.Reachable 3 := .of_rule (congrArg (·[2]?) hrules) htwo (by simp)
  have hreachable : g.AllReachable := by
    intro n hn
    rw [hsize] at hn
    obtain rfl | rfl | rfl | rfl : n = 0 ∨ n = 1 ∨ n = 2 ∨ n = 3 := by omega
    · exact hzero
    · exact hone
    · exact htwo
    · exact hthree
  obtain ⟨sets', hsets', hexact⟩ := follow_exact hread
  obtain rfl := Except.ok.inj (hcompute.symm.trans hsets')
  obtain ⟨follows', hfollows', hisFollow, hforms⟩ := hexact 3 (hsize ▸ by decide)
  obtain rfl := Except.ok.inj (hfollow.symm.trans hfollows')
  exact ⟨g, sets, hread, hcompute, hreachable, hfollow, hisFollow, hforms hreachable (by decide)⟩

end Lookahead

end ShiftReduce
