import Mathlib.Data.List.Induction
import ShiftReduce.Grammar.Reader

/-!
# Written grammars

A grammar is written as a sequence of groups. The tokens read so far end at a place: between two
groups, after the head of a group, or inside a group. The next token leads to another place or
cannot stand there. The tokens that lead to a place are exactly the beginnings of written grammars,
so a token that cannot stand at a place is the first one that no written grammar goes on with.
-/

namespace ShiftReduce

namespace Written

/-- What an alternative is made of: names of non-terminals and quoted texts. -/
inductive Mention where
  | named (name : String)
  | quoted (quote : Quote) (text : String)
  deriving DecidableEq

/-- The token of a mention. -/
def Mention.kind : Mention → Token.Kind
  | .named name => .identifier name
  | .quoted quote text => .quoted quote text

/-- The only mention whose token is an identifier is that of its name. -/
@[simp]
theorem Mention.kind_eq_identifier {mention : Mention} {name : String} :
    mention.kind = .identifier name ↔ mention = .named name := by
  cases mention <;> simp [Mention.kind]

/-- A group: its head, its arrow, the alternatives that end with a bar, and the last one. -/
structure Group where
  head : String
  arrow : Arrow
  ended : List (List Mention) := []
  last : List Mention := []
  deriving DecidableEq

namespace Group

/-- The alternatives of a group in order. -/
def alternatives (group : Group) : List (List Mention) := group.ended ++ [group.last]

/-- The tokens of a group up to the end of its last alternative. -/
def opening (group : Group) : List Token.Kind :=
  .identifier group.head :: .arrow group.arrow ::
    ((group.ended.flatMap fun mentions => mentions.map (·.kind) ++ [.delimiter '|']) ++
      group.last.map (·.kind))

/-- The tokens of a group. -/
def kinds (group : Group) : List Token.Kind := group.opening ++ [.delimiter ';']

/-- A group in which no name is reserved and at most one alternative is empty. -/
structure Proper (startName : String) (group : Group) : Prop where
  head_ne : group.head ≠ startName
  names_ne : ∀ mentions ∈ group.alternatives, .named startName ∉ mentions
  empty_once : group.alternatives.count [] ≤ 1

/-- A group that may go on. Its last alternative does not count as empty yet. -/
structure Begun (startName : String) (group : Group) : Prop where
  head_ne : group.head ≠ startName
  names_ne : ∀ mentions ∈ group.alternatives, .named startName ∉ mentions
  empty_once : group.ended.count [] ≤ 1

/-- The last alternative would be the second empty one. -/
def RepeatsEmpty (group : Group) : Prop := group.last = [] ∧ [] ∈ group.ended

/-- Whether a group has a second empty alternative can be decided. -/
instance (group : Group) : Decidable group.RepeatsEmpty :=
  inferInstanceAs (Decidable (_ ∧ _))

/-- The group with one more mention in its last alternative. -/
def mention (group : Group) (mention : Mention) : Group :=
  { group with last := group.last ++ [mention] }

/-- The group after a bar. -/
def endAlternative (group : Group) : Group :=
  { group with ended := group.ended ++ [group.last], last := [] }

variable {startName : String} {group : Group}

/-- One more mention is one more token of the beginning of a group. -/
theorem opening_mention (group : Group) (mention : Mention) :
    (group.mention mention).opening = group.opening ++ [mention.kind] := by
  simp [opening, Group.mention]

/-- The bar after an alternative is one more token of the beginning of a group. -/
theorem opening_endAlternative (group : Group) :
    group.endAlternative.opening = group.opening ++ [.delimiter '|'] := by
  simp [opening, endAlternative]

/-- A group is proper if it may go on and its last alternative is no second empty one. -/
theorem proper_iff : group.Proper startName ↔ group.Begun startName ∧ ¬ group.RepeatsEmpty := by
  have hcount : group.alternatives.count [] =
      group.ended.count [] + if group.last = [] then 1 else 0 := by
    simp [alternatives, List.count_append, List.count_singleton]
  have hmem : [] ∈ group.ended ↔ 0 < group.ended.count [] := List.count_pos_iff.symm
  constructor
  · rintro ⟨hhead, hnames, honce⟩
    rw [hcount] at honce
    refine ⟨⟨hhead, hnames, by omega⟩, ?_⟩
    rintro ⟨hlast, hempty⟩
    rw [if_pos hlast] at honce
    have hpos := hmem.1 hempty
    omega
  · rintro ⟨⟨hhead, hnames, honce⟩, hrepeats⟩
    refine ⟨hhead, hnames, ?_⟩
    rw [hcount]
    split
    · rename_i hlast
      have hzero : ¬ 0 < group.ended.count [] := fun hpos => hrepeats ⟨hlast, hmem.2 hpos⟩
      omega
    · exact honce

/-- A group has begun with a head that is not reserved, and an arrow. -/
theorem begun_of_head {head : String} (spelling : Arrow) (h : head ≠ startName) :
    Begun startName { head, arrow := spelling } :=
  ⟨h, by simp [alternatives], by simp⟩

/-- A group may go on with any mention but that of the reserved name. -/
theorem Begun.mention {mention : Mention} (h : group.Begun startName)
    (hmention : mention ≠ .named startName) : (group.mention mention).Begun startName := by
  refine ⟨h.head_ne, fun mentions hmem => ?_, h.empty_once⟩
  rcases List.mem_append.1 hmem with hended | hlast
  · exact h.names_ne mentions (List.mem_append_left _ hended)
  · rw [List.mem_singleton.1 hlast, Group.mention, List.mem_append, List.mem_singleton]
    rintro (hold | hnew)
    · exact h.names_ne group.last (by simp [alternatives]) hold
    · exact hmention hnew.symm

/-- After a bar a proper group may go on. -/
theorem Proper.endAlternative (h : group.Proper startName) :
    group.endAlternative.Begun startName := by
  refine ⟨h.head_ne, fun mentions hmem => ?_, h.empty_once⟩
  rcases List.mem_append.1 hmem with hended | hlast
  · exact h.names_ne mentions hended
  · rw [List.mem_singleton.1 hlast]
    exact List.not_mem_nil

/-- A group with a mention in its last alternative is proper if it may go on. -/
theorem Begun.proper_mention {mention : Mention} (h : group.Begun startName)
    (hmention : mention ≠ .named startName) : (group.mention mention).Proper startName :=
  proper_iff.2 ⟨h.mention hmention, fun hrepeats => by
    simp [RepeatsEmpty, Group.mention] at hrepeats⟩

end Group

/-- A name in a group: its head, or a name in one of its alternatives. -/
def Group.Names (group : Group) (name : String) : Prop :=
  group.head = name ∨ ∃ mentions ∈ group.alternatives, .named name ∈ mentions

/-- The identifiers of a group are its head and the names in its alternatives. -/
theorem Group.identifier_mem_kinds {group : Group} {name : String} :
    .identifier name ∈ group.kinds ↔ group.Names name := by
  simp only [kinds, opening, Names, alternatives, List.mem_append, List.mem_cons, List.mem_flatMap,
    List.mem_map, Mention.kind_eq_identifier, exists_eq_right, Token.Kind.identifier.injEq,
    reduceCtorEq, false_or, or_false, List.not_mem_nil]
  constructor
  · rintro (rfl | ⟨mentions, hmem, hname⟩ | hname)
    · exact .inl rfl
    · exact .inr ⟨mentions, .inl hmem, hname⟩
    · exact .inr ⟨group.last, .inr rfl, hname⟩
  · rintro (rfl | ⟨mentions, hmem | rfl, hname⟩)
    · exact .inl rfl
    · exact .inr (.inl ⟨mentions, hmem, hname⟩)
    · exact .inr (.inr hname)

/-- No name of a proper group is reserved. -/
theorem Group.Proper.ne_startName {startName : String} {group : Group} {name : String}
    (h : group.Proper startName) (hname : group.Names name) : name ≠ startName := by
  rintro rfl
  rcases hname with hhead | ⟨mentions, hmem, hname⟩
  · exact h.head_ne hhead
  · exact h.names_ne mentions hmem hname

/-- The tokens of a sequence of groups. -/
def kindsOf (groups : List Group) : List Token.Kind := groups.flatMap (·.kinds)

/-- No groups have no tokens. -/
@[simp]
theorem kindsOf_nil : kindsOf [] = [] := rfl

/-- The tokens of one more group come last. -/
@[simp]
theorem kindsOf_concat (groups : List Group) (group : Group) :
    kindsOf (groups ++ [group]) = kindsOf groups ++ group.kinds := by
  simp [kindsOf]

/-- The identifiers of groups are those of each of them. -/
theorem identifier_mem_kindsOf {groups : List Group} {name : String} :
    .identifier name ∈ kindsOf groups ↔ ∃ group ∈ groups, group.Names name := by
  simp only [kindsOf, List.mem_flatMap, Group.identifier_mem_kinds]

/-- The tokens begin a sequence of proper groups with an end of file after it. -/
def Viable (startName : String) (read : List Token.Kind) : Prop :=
  ∃ groups, (∀ group ∈ groups, group.Proper startName) ∧ read <+: kindsOf groups ++ [.endOfFile]

/-- Where the tokens read so far end: between groups, after the head of a group, or inside a
group. -/
inductive Place where
  | between (groups : List Group)
  | headed (groups : List Group) (head : String)
  | inside (groups : List Group) (group : Group)
  deriving DecidableEq

namespace Place

/-- The tokens that lead to a place. -/
def kinds : Place → List Token.Kind
  | .between groups => kindsOf groups
  | .headed groups head => kindsOf groups ++ [.identifier head]
  | .inside groups group => kindsOf groups ++ group.opening

/-- All groups before the place are proper, and the one around it may go on. -/
def Proper (startName : String) : Place → Prop
  | .between groups => ∀ group ∈ groups, group.Proper startName
  | .headed groups head => (∀ group ∈ groups, group.Proper startName) ∧ head ≠ startName
  | .inside groups group => (∀ group ∈ groups, group.Proper startName) ∧ group.Begun startName

/-- The tokens lead to the place. -/
structure Follows (startName : String) (read : List Token.Kind) (place : Place) : Prop where
  kinds_eq : place.kinds = read
  proper : place.Proper startName

/-- What may come next at a place, in the words of a message. -/
def expectation : Place → Expectation
  | .between _ => .head
  | .headed _ _ => .arrow
  | .inside _ _ => .alternative

/-- The place after one more token, if the token can stand there. -/
def next? (startName : String) : Place → Token.Kind → Option Place
  | .between groups, .identifier name =>
    if name = startName then none else some (.headed groups name)
  | .headed groups head, .arrow spelling => some (.inside groups { head, arrow := spelling })
  | .inside groups group, .identifier name =>
    if name = startName then none else some (.inside groups (group.mention (.named name)))
  | .inside groups group, .quoted quote text =>
    some (.inside groups (group.mention (.quoted quote text)))
  | .inside groups group, .delimiter '|' =>
    if group.RepeatsEmpty then none else some (.inside groups group.endAlternative)
  | .inside groups group, .delimiter ';' =>
    if group.RepeatsEmpty then none else some (.between (groups ++ [group]))
  | _, _ => none

/-- What is wrong with a token that cannot stand at a place. A name is refused only if it is
reserved, except after a head, and a bar or a semicolon inside a group only if it ends a second
empty alternative. -/
def fault (place : Place) : Token.Kind → GrammarFault
  | .invalid fault => .lex fault
  | kind =>
    match place, kind with
    | .between _, .quoted _ text => .terminalOnLeft text
    | .between _, .identifier name | .inside _ _, .identifier name => .reservedName name
    | .inside _ group, .delimiter '|' | .inside _ group, .delimiter ';' =>
      .duplicateEpsilon group.head
    | place, kind => .unexpected place.expectation kind

variable {startName : String} {place after : Place} {read : List Token.Kind} {kind : Token.Kind}
  {groups : List Group} {group : Group}

/-- Before the first token the place is between groups. -/
theorem follows_start (startName : String) : Follows startName [] (.between []) :=
  ⟨rfl, by simp [Proper]⟩

/-- The tokens that can stand at a place, and where they lead. -/
inductive Step (startName : String) : Place → Token.Kind → Place → Prop
  | head {groups : List Group} {name : String} : name ≠ startName →
      Step startName (.between groups) (.identifier name) (.headed groups name)
  | arrow {groups : List Group} {head : String} {spelling : Arrow} :
      Step startName (.headed groups head) (.arrow spelling)
        (.inside groups { head, arrow := spelling })
  | mention {groups : List Group} {group : Group} {mention : Mention} :
      mention ≠ .named startName →
      Step startName (.inside groups group) mention.kind (.inside groups (group.mention mention))
  | bar {groups : List Group} {group : Group} : ¬ group.RepeatsEmpty →
      Step startName (.inside groups group) (.delimiter '|') (.inside groups group.endAlternative)
  | semicolon {groups : List Group} {group : Group} : ¬ group.RepeatsEmpty →
      Step startName (.inside groups group) (.delimiter ';') (.between (groups ++ [group]))

/-- A token that a place accepts is a step to the place after it. -/
theorem step_of_next? (h : place.next? startName kind = some after) :
    Step startName place kind after := by
  unfold next? at h
  split at h
  · split at h
    · cases h
    · rename_i hname
      obtain rfl := Option.some.inj h
      exact .head hname
  · obtain rfl := Option.some.inj h
    exact .arrow
  · rename_i name
    split at h
    · cases h
    · rename_i hname
      obtain rfl := Option.some.inj h
      have hmention : Mention.named name ≠ .named startName := by simpa using hname
      exact .mention hmention
  · rename_i quote text
    obtain rfl := Option.some.inj h
    have hmention : Mention.quoted quote text ≠ .named startName := by simp
    exact .mention hmention
  · split at h
    · cases h
    · rename_i hrepeats
      obtain rfl := Option.some.inj h
      exact .bar hrepeats
  · split at h
    · cases h
    · rename_i hrepeats
      obtain rfl := Option.some.inj h
      exact .semicolon hrepeats
  · cases h

/-- A token that can stand at a place leads to the next place. -/
theorem Follows.next (h : place.Follows startName read)
    (hnext : place.next? startName kind = some after) :
    after.Follows startName (read ++ [kind]) := by
  obtain ⟨rfl, hproper⟩ := h
  cases step_of_next? hnext with
  | head hname => exact ⟨rfl, hproper, hname⟩
  | arrow =>
    exact ⟨by simp [kinds, Group.opening], hproper.1, Group.begun_of_head _ hproper.2⟩
  | mention hmention =>
    refine ⟨?_, hproper.1, hproper.2.mention hmention⟩
    simp [kinds, Group.opening_mention]
  | bar hrepeats =>
    have hgroup := Group.proper_iff.2 ⟨hproper.2, hrepeats⟩
    refine ⟨?_, hproper.1, hgroup.endAlternative⟩
    simp [kinds, Group.opening_endAlternative]
  | semicolon hrepeats =>
    refine ⟨by simp [kinds, Group.kinds], fun other hother => ?_⟩
    rcases List.mem_append.1 hother with hold | hlast
    · exact hproper.1 other hold
    · rw [List.mem_singleton.1 hlast]
      exact Group.proper_iff.2 ⟨hproper.2, hrepeats⟩

/-- A mention leads on inside a group. -/
theorem next?_mention {mention : Mention} (h : mention ≠ .named startName) :
    next? startName (.inside groups group) mention.kind =
      some (.inside groups (group.mention mention)) := by
  cases mention with
  | named name =>
    have hname : name ≠ startName := by simpa using h
    simp [next?, Mention.kind, hname]
  | quoted quote text => simp [next?, Mention.kind]

/-- Mentions lead on inside a group. -/
theorem foldlM_mentions {mentions : List Mention} (h : .named startName ∉ mentions) :
    (mentions.map (·.kind)).foldlM (next? startName) (.inside groups group) =
      some (.inside groups { group with last := group.last ++ mentions }) := by
  induction mentions generalizing group with
  | nil => simp
  | cons mention mentions ih =>
    rw [List.mem_cons, not_or] at h
    have hmention : mention ≠ .named startName := fun heq => h.1 heq.symm
    rw [List.map_cons, List.foldlM_cons, next?_mention hmention, Option.bind_eq_bind,
      Option.bind_some, ih h.2]
    simp [Group.mention]

/-- Alternatives with their bars lead on inside a group, as long as only one of them is empty. -/
theorem foldlM_ended {head : String} {spelling : Arrow} {done ended : List (List Mention)}
    (hnames : ∀ mentions ∈ ended, .named startName ∉ mentions)
    (honce : (done ++ ended).count [] ≤ 1) :
    (ended.flatMap fun mentions => mentions.map (·.kind) ++ [.delimiter '|']).foldlM
        (next? startName) (.inside groups ⟨head, spelling, done, []⟩) =
      some (.inside groups ⟨head, spelling, done ++ ended, []⟩) := by
  induction ended generalizing done with
  | nil => simp
  | cons mentions ended ih =>
    obtain ⟨hmentions, hrest⟩ := List.forall_mem_cons.1 hnames
    have hrepeats : ¬ Group.RepeatsEmpty ⟨head, spelling, done, mentions⟩ := by
      rintro ⟨hlast, hempty⟩
      have hpos : 0 < done.count [] := List.count_pos_iff.2 hempty
      have hmentions : mentions = [] := hlast
      rw [List.count_append, List.count_cons, hmentions] at honce
      simp only [BEq.rfl, if_true] at honce
      omega
    have hbar : next? startName (.inside groups ⟨head, spelling, done, mentions⟩) (.delimiter '|') =
        some (.inside groups ⟨head, spelling, done ++ [mentions], []⟩) := if_neg hrepeats
    have hcount : ((done ++ [mentions]) ++ ended).count [] ≤ 1 := by
      rwa [List.append_assoc, List.singleton_append]
    rw [List.flatMap_cons, List.foldlM_append, List.foldlM_append, foldlM_mentions hmentions]
    simp only [Option.bind_eq_bind, Option.bind_some, List.nil_append, List.foldlM_cons,
      List.foldlM_nil, hbar]
    rw [Option.pure_def, Option.bind_some, ih hrest hcount, List.append_assoc,
      List.singleton_append]

/-- The tokens of a group that may go on lead from before the group into it. -/
theorem foldlM_opening (h : group.Begun startName) :
    group.opening.foldlM (next? startName) (.between groups) = some (.inside groups group) := by
  have hhead : next? startName (.between groups) (.identifier group.head) =
      some (.headed groups group.head) := if_neg h.head_ne
  have hended : ∀ mentions ∈ group.ended, .named startName ∉ mentions :=
    fun mentions hmem => h.names_ne mentions (List.mem_append_left _ hmem)
  have hlast : .named startName ∉ group.last := h.names_ne group.last (by simp [Group.alternatives])
  have honce : ([] ++ group.ended).count [] ≤ 1 := h.empty_once
  rw [Group.opening, List.foldlM_cons, hhead, Option.bind_eq_bind, Option.bind_some,
    List.foldlM_cons, next?, Option.bind_eq_bind, Option.bind_some, List.foldlM_append,
    foldlM_ended hended honce, Option.bind_eq_bind, Option.bind_some, foldlM_mentions hlast]
  rfl

/-- The tokens of proper groups lead from before the groups to after them. -/
theorem foldlM_kindsOf {done : List Group} (h : ∀ group ∈ groups, group.Proper startName) :
    (kindsOf groups).foldlM (next? startName) (.between done) =
      some (.between (done ++ groups)) := by
  induction groups generalizing done with
  | nil => simp
  | cons group groups ih =>
    obtain ⟨hgroup, hrest⟩ := List.forall_mem_cons.1 h
    obtain ⟨hbegun, hrepeats⟩ := Group.proper_iff.1 hgroup
    have hend : next? startName (.inside done group) (.delimiter ';') =
        some (.between (done ++ [group])) := if_neg hrepeats
    rw [kindsOf, List.flatMap_cons, Group.kinds, List.foldlM_append, List.foldlM_append,
      foldlM_opening hbegun]
    simp only [Option.bind_eq_bind, Option.bind_some, List.foldlM_cons, List.foldlM_nil, hend]
    rw [Option.pure_def, Option.bind_some, ← kindsOf, ih hrest, List.append_assoc,
      List.singleton_append]

/-- The tokens that lead to a place lead there only. -/
theorem Follows.foldlM_eq (h : place.Follows startName read) :
    read.foldlM (next? startName) (.between []) = some place := by
  obtain ⟨rfl, hproper⟩ := h
  cases place with
  | between groups => exact foldlM_kindsOf hproper
  | headed groups head =>
    have hhead : next? startName (.between groups) (.identifier head) =
        some (.headed groups head) := if_neg hproper.2
    rw [kinds, List.foldlM_append, foldlM_kindsOf hproper.1]
    simp [hhead]
  | inside groups group =>
    rw [kinds, List.foldlM_append, foldlM_kindsOf hproper.1]
    exact foldlM_opening hproper.2

/-- Tokens that lead somewhere lead to a place. -/
theorem follows_of_foldlM (h : read.foldlM (next? startName) (.between []) = some place) :
    place.Follows startName read := by
  induction read using List.reverseRecOn generalizing place with
  | nil =>
    obtain rfl := Option.some.inj h
    exact follows_start startName
  | append_singleton read kind ih =>
    rw [List.foldlM_append, Option.bind_eq_bind, Option.bind_eq_some_iff] at h
    obtain ⟨before, hbefore, hnext⟩ := h
    rw [List.foldlM_cons, Option.bind_eq_bind, Option.bind_eq_some_iff] at hnext
    obtain ⟨after, hafter, hlast⟩ := hnext
    obtain rfl := Option.some.inj hlast
    exact (ih hbefore).next hafter

/-- The last of the tokens that lead to a place could stand where the others lead. -/
theorem Follows.exists_before (h : place.Follows startName (read ++ [kind])) :
    ∃ before : Place, before.Follows startName read ∧ before.next? startName kind = some place := by
  have hrun := h.foldlM_eq
  rw [List.foldlM_append, Option.bind_eq_bind, Option.bind_eq_some_iff] at hrun
  obtain ⟨before, hbefore, hnext⟩ := hrun
  refine ⟨before, follows_of_foldlM hbefore, ?_⟩
  simpa using hnext

/-- Either all tokens lead to a place, or there is a first one that cannot stand where those before
it lead. -/
theorem exists_follows_or_refusal (startName : String) (tokens : List Token) :
    (∃ place : Place, place.Follows startName (tokens.map (·.kind))) ∨
      ∃ (done rest : List Token) (token : Token) (place : Place), tokens = done ++ token :: rest ∧
        place.Follows startName (done.map (·.kind)) ∧ place.next? startName token.kind = none := by
  induction tokens using List.reverseRecOn with
  | nil => exact .inl ⟨_, follows_start startName⟩
  | append_singleton tokens token ih =>
    rcases ih with ⟨place, hplace⟩ | ⟨done, rest, first, place, rfl, hplace, hnone⟩
    · cases hnext : place.next? startName token.kind with
      | none => exact .inr ⟨tokens, [], token, place, rfl, hplace, hnext⟩
      | some after =>
        refine .inl ⟨after, ?_⟩
        rw [List.map_append]
        exact hplace.next hnext
    · exact .inr ⟨done, rest ++ [token], first, place, by simp, hplace, hnone⟩

/-- Tokens that lead to a place can be completed. A group with an empty last alternative is
completed by a mention, because the empty alternative may be the second one. -/
theorem Follows.viable (h : place.Follows startName read) : Viable startName read := by
  obtain ⟨rfl, hproper⟩ := h
  cases place with
  | between groups => exact ⟨groups, hproper, List.prefix_append _ _⟩
  | headed groups head =>
    refine ⟨groups ++ [{ head, arrow := .arrow }], fun group hgroup => ?_, ?_⟩
    · rcases List.mem_append.1 hgroup with hold | hlast
      · exact hproper.1 group hold
      · rw [List.mem_singleton.1 hlast]
        refine Group.proper_iff.2 ⟨Group.begun_of_head .arrow hproper.2, ?_⟩
        simp [Group.RepeatsEmpty]
    · simp [kinds, Group.kinds, Group.opening]
  | inside groups group =>
    refine ⟨groups ++ [group.mention (.quoted .single "")], fun other hother => ?_, ?_⟩
    · rcases List.mem_append.1 hother with hold | hlast
      · exact hproper.1 other hold
      · rw [List.mem_singleton.1 hlast]
        exact hproper.2.proper_mention (by simp)
    · simp [kinds, Group.kinds, Group.opening_mention]

/-- After tokens that lead to a place, a token is viable if it can stand there, or if it ends the
file between two groups. -/
theorem Follows.viable_concat_iff (h : place.Follows startName read) :
    Viable startName (read ++ [kind]) ↔ (∃ after, place.next? startName kind = some after) ∨
      kind = .endOfFile ∧ ∃ groups, place = .between groups := by
  constructor
  · rintro ⟨groups, hproper, hpart⟩
    have hrun : _ = some (between ([] ++ groups)) := foldlM_kindsOf hproper
    rcases List.prefix_concat_iff.1 hpart with heq | hinner
    · obtain ⟨hread, hkind⟩ := List.append_inj' heq rfl
      rw [hread] at h
      have hplace := h.foldlM_eq.symm.trans hrun
      exact .inr ⟨List.singleton_inj.1 hkind, groups, by simpa using hplace⟩
    · obtain ⟨rest, hrest⟩ := hinner
      rw [← hrest, List.foldlM_append, List.foldlM_append, h.foldlM_eq] at hrun
      simp only [Option.bind_eq_bind, Option.bind_some, List.foldlM_cons, List.foldlM_nil] at hrun
      cases hnext : place.next? startName kind with
      | none => simp [hnext] at hrun
      | some after => exact .inl ⟨after, rfl⟩
  · rintro (⟨after, hafter⟩ | ⟨rfl, groups, rfl⟩)
    · exact (h.next hafter).viable
    · obtain ⟨rfl, hproper⟩ := h
      exact ⟨groups, hproper, List.prefix_refl _⟩

end Place

/-- The groups are a whole source: there is a group, all groups are proper, and each name in an
alternative heads a group. -/
structure Source (startName : String) (read : List Token.Kind) (groups : List Group) : Prop where
  kinds_eq : kindsOf groups = read
  ne_nil : groups ≠ []
  proper : ∀ group ∈ groups, group.Proper startName
  defined : ∀ group ∈ groups, ∀ mentions ∈ group.alternatives, ∀ name, .named name ∈ mentions →
    ∃ other ∈ groups, other.head = name

/-- The name in an identifier. -/
def identifier? : Token.Kind → Option String
  | .identifier name => some name
  | _ => none

/-- The name of the terminal for a quoted text. -/
def display (options : ReadOptions) (quote : Quote) (text : String) : String :=
  if options.keepQuotes then quote.wrap text else text

/-- The name of the terminal for a token. The text `$` is no terminal. -/
def terminal? (options : ReadOptions) : Token.Kind → Option String
  | .quoted quote text =>
    if text = endOfInputName then none else some (display options quote text)
  | _ => none

/-- The names of the non-terminals that tokens mention: the reserved one, and the distinct
identifiers in the order of their first occurrences. -/
def nonterminalNames (options : ReadOptions) (tokens : List Token) : List String :=
  options.startName :: (tokens.filterMap (identifier? ·.kind)).eraseDups

/-- The names of the terminals that tokens mention, in the order of their first occurrences. -/
def terminalNames (options : ReadOptions) (tokens : List Token) : List String :=
  (tokens.filterMap (terminal? options ·.kind)).eraseDups

/-- The symbol that a mention stands for in a source with the given tokens. -/
def Mention.symbol (options : ReadOptions) (tokens : List Token) : Mention → Symbol
  | .named name => .nonterminal ((nonterminalNames options tokens).idxOf name)
  | .quoted quote text =>
    if text = endOfInputName then .endOfInput
    else .terminal ((terminalNames options tokens).idxOf (display options quote text))

/-- The rule for an alternative of a group with the given head. -/
def ruleOf (options : ReadOptions) (tokens : List Token) (head : String)
    (mentions : List Mention) : Rule :=
  ⟨(nonterminalNames options tokens).idxOf head, mentions.map (·.symbol options tokens)⟩

/-- The rules of a source: the augmented one, and one for each alternative in order. -/
def rulesOf (options : ReadOptions) (tokens : List Token) (groups : List Group) : List Rule :=
  ⟨Grammar.start, [.nonterminal Grammar.sourceStart, .endOfInput]⟩ ::
    groups.flatMap fun group => group.alternatives.map (ruleOf options tokens group.head)

end Written

end ShiftReduce
