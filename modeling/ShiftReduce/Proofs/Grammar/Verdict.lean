import Mathlib.Data.List.TakeWhile
import ShiftReduce.Proofs.Grammar.Reading

/-!
# What a source is judged to be

A source without bounds is either read or refused. It is read if it is a written grammar, and then
the grammar has the names and the rules that are written. Otherwise the first offence is reported:
the first token that no written grammar goes on with, an empty source, or the first name that heads
no group.
-/

namespace ShiftReduce

namespace Written

variable {options : ReadOptions} {tokens : List Token} {groups : List Group}
  {startName name : String}

/-- An identifier is mentioned if it is among the tokens. -/
theorem identifier_mem_filterMap :
    name ∈ tokens.filterMap (identifier? ·.kind) ↔ .identifier name ∈ tokens.map (·.kind) := by
  simp only [List.mem_filterMap, List.mem_map]
  refine exists_congr fun token => and_congr_right fun _ => ?_
  cases token.kind <;> simp [identifier?]

/-- The names of a source without reserved names are distinct. -/
theorem nodup_nonterminalNames (hkinds : kindsOf groups = tokens.map (·.kind))
    (hproper : ∀ group ∈ groups, group.Proper options.startName) :
    (nonterminalNames options tokens).Nodup := by
  refine List.nodup_cons.2 ⟨fun hmem => ?_, nodup_eraseDups _⟩
  rw [List.mem_eraseDups, identifier_mem_filterMap, ← hkinds, identifier_mem_kindsOf] at hmem
  obtain ⟨group, hgroup, hname⟩ := hmem
  exact (hproper group hgroup).ne_startName hname rfl

/-- An element that has not come before is kept where it comes. -/
theorem eraseDups_append_cons {α : Type} [BEq α] [LawfulBEq α] {xs : List α} {x : α}
    (h : x ∉ xs) (ys : List α) : ∃ rest, (xs ++ x :: ys).eraseDups = xs.eraseDups ++ x :: rest := by
  rw [List.eraseDups_append, List.removeAll, List.filter_cons_of_pos (by simpa using h),
    List.eraseDups_cons]
  exact ⟨_, rfl⟩

/-- A name that has not come before is kept where it comes. -/
theorem nonterminalNames_split {before after : List Token} {token : Token}
    (hkind : token.kind = .identifier name)
    (hnew : name ∉ before.filterMap (identifier? ·.kind)) :
    ∃ rest, nonterminalNames options (before ++ token :: after) =
      (options.startName :: (before.filterMap (identifier? ·.kind)).eraseDups) ++ name :: rest := by
  obtain ⟨rest, hrest⟩ := eraseDups_append_cons hnew (after.filterMap (identifier? ·.kind))
  refine ⟨rest, ?_⟩
  rw [nonterminalNames, List.filterMap_append, List.filterMap_cons, hkind]
  simp only [identifier?] at hrest ⊢
  rw [hrest, List.cons_append]

/-- The heads of groups are among the names. -/
theorem head_mem_nonterminalNames (hkinds : kindsOf groups = tokens.map (·.kind)) {group : Group}
    (hgroup : group ∈ groups) : group.head ∈ nonterminalNames options tokens := by
  refine List.mem_cons_of_mem _ (List.mem_eraseDups.2 (identifier_mem_filterMap.2 ?_))
  rw [← hkinds, identifier_mem_kindsOf]
  exact ⟨group, hgroup, .inl rfl⟩

/-- The heads of the rules: the augmented start symbol and the heads of the groups. -/
theorem exists_rule_head_iff {n : NonterminalId} :
    (∃ rule ∈ rulesOf options tokens groups, rule.head = n) ↔
      n = Grammar.start ∨
        ∃ group ∈ groups, (nonterminalNames options tokens).idxOf group.head = n := by
  simp only [rulesOf, List.mem_cons, List.mem_flatMap, List.mem_map]
  constructor
  · rintro ⟨rule, rfl | ⟨group, hgroup, mentions, -, rfl⟩, rfl⟩
    · exact .inl rfl
    · exact .inr ⟨group, hgroup, rfl⟩
  · rintro (rfl | ⟨group, hgroup, rfl⟩)
    · exact ⟨_, .inl rfl, rfl⟩
    · refine ⟨_, .inr ⟨group, hgroup, group.last, ?_, rfl⟩, rfl⟩
      simp [Group.alternatives]

end Written

namespace Grammar

open Written

variable {options : ReadOptions} {tokens : List Token} {groups : List Written.Group} {g : Grammar}
  {nt : Nonterminal}

/-- A non-terminal has no rules if its name is not reserved and heads no group. -/
theorem Knows.rules_eq_nil_iff (h : g.Knows options tokens) (hg : g.CrossReferenced)
    (hrules : g.rules.toList = rulesOf options tokens groups)
    (hkinds : kindsOf groups = tokens.map (·.kind))
    (hproper : ∀ group ∈ groups, group.Proper options.startName) (hnt : nt ∈ g.nonterminals) :
    nt.rules = [] ↔ nt.name ≠ options.startName ∧ ∀ group ∈ groups, group.head ≠ nt.name := by
  obtain ⟨n, hn⟩ := Array.mem_iff_getElem?.1 hnt
  have hnodup := nodup_nonterminalNames hkinds hproper
  have hname : (nonterminalNames options tokens)[n]? = some nt.name := by
    rw [← h.map_name, List.getElem?_map, Array.getElem?_toList, hn, Option.map_some]
  obtain ⟨hlt, hget⟩ := List.getElem?_eq_some_iff.1 hname
  have hindex : (nonterminalNames options tokens).idxOf nt.name = n := by
    rw [← hget]
    exact hnodup.idxOf_getElem n hlt
  have hzero : (nonterminalNames options tokens).idxOf options.startName = start :=
    List.idxOf_cons_self
  have hstart : n = start ↔ nt.name = options.startName := by
    rw [← hindex, ← hzero]
    exact List.idxOf_inj (List.mem_of_getElem? hname)
  have hheads : nt.rules = [] ↔ ¬ ∃ rule ∈ rulesOf options tokens groups, rule.head = n := by
    rw [List.eq_nil_iff_forall_not_mem, ← hrules, ← not_exists]
    refine not_congr ⟨?_, ?_⟩
    · rintro ⟨id, hid⟩
      obtain ⟨rule, hrule, hhead⟩ := (hg.mem_rules hn id).1 hid
      exact ⟨rule, Array.mem_toList_iff.2 (Array.mem_of_getElem? hrule), hhead⟩
    · rintro ⟨rule, hrule, hhead⟩
      obtain ⟨id, hid⟩ := Array.mem_iff_getElem?.1 (Array.mem_toList_iff.1 hrule)
      exact ⟨id, (hg.mem_rules hn id).2 ⟨rule, hid, hhead⟩⟩
  rw [hheads, exists_rule_head_iff, not_or, hstart]
  refine and_congr_right fun _ => ?_
  simp only [not_exists, not_and]
  refine forall₂_congr fun group hgroup => not_congr ?_
  rw [← hindex]
  exact List.idxOf_inj (head_mem_nonterminalNames hkinds hgroup)

/-- The place of a name is that of its first token. -/
theorem Knows.firstUse_eq_location {before after : List Token} {token : Token}
    (h : g.Knows options (before ++ token :: after)) (hnt : nt ∈ g.nonterminals)
    (hkind : token.kind = .identifier nt.name) (hname : nt.name ≠ options.startName)
    (hnew : nt.name ∉ before.filterMap (identifier? ·.kind)) : nt.firstUse = token.location := by
  have hmem : (nt.name, nt.firstUse) ∈ g.mentions :=
    List.mem_map.2 ⟨nt, Array.mem_toList_iff.2 hnt, rfl⟩
  have hbefore : before.find? (identifier? ·.kind == some nt.name) = none := by
    rw [List.find?_eq_none]
    intro earlier hearlier hidentifier
    exact hnew (List.mem_filterMap.2 ⟨earlier, hearlier, eq_of_beq hidentifier⟩)
  have hfirst := h.firstUse_eq nt.name nt.firstUse hmem hname
  rw [List.find?_append, hbefore] at hfirst
  simpa [hkind, identifier?, eq_comm] using hfirst

/-- The first non-terminal without rules is the first name that heads no group. -/
theorem Knows.exists_find? {before after : List Token} {token : Token} {name : String}
    (h : g.Knows options (before ++ token :: after)) (hg : g.CrossReferenced)
    (hrules : g.rules.toList = rulesOf options (before ++ token :: after) groups)
    (hkinds : kindsOf groups = (before ++ token :: after).map (·.kind))
    (hproper : ∀ group ∈ groups, group.Proper options.startName)
    (hkind : token.kind = .identifier name) (hname : ∀ group ∈ groups, group.head ≠ name)
    (hbefore : ∀ earlier ∈ before, ∀ other, earlier.kind = .identifier other →
      ∃ group ∈ groups, group.head = other) :
    ∃ nt, g.nonterminals.find? (·.rules.isEmpty) = some nt ∧ nt.name = name ∧
      nt.firstUse = token.location := by
  have hmem : .identifier name ∈ kindsOf groups := by
    rw [hkinds]
    simp [hkind]
  obtain ⟨group, hgroup, hnames⟩ := identifier_mem_kindsOf.1 hmem
  have hreserved : name ≠ options.startName := (hproper group hgroup).ne_startName hnames
  have hearlier : ∀ other ∈ before.filterMap (identifier? ·.kind),
      ∃ group ∈ groups, group.head = other := by
    intro other hother
    obtain ⟨earlier, hearlier, hkind⟩ := List.mem_map.1 (identifier_mem_filterMap.1 hother)
    exact hbefore earlier hearlier other hkind
  have hnew : name ∉ before.filterMap (identifier? ·.kind) := by
    intro hold
    obtain ⟨group, hgroup, hhead⟩ := hearlier name hold
    exact hname group hgroup hhead
  obtain ⟨rest, hrest⟩ := nonterminalNames_split hkind hnew
  obtain ⟨front, back, hsplit, hfront, hback⟩ := List.map_eq_append_iff.1 (h.map_name.trans hrest)
  obtain ⟨nt, back, rfl, rfl, -⟩ := List.map_eq_cons_iff.1 hback
  have hnt : nt ∈ g.nonterminals := by
    rw [← Array.mem_toList_iff, hsplit]
    simp
  refine ⟨nt, ?_, rfl, h.firstUse_eq_location hnt hkind hreserved hnew⟩
  rw [← Array.find?_toList, List.find?_eq_some_iff_append]
  refine ⟨?_, front, back, hsplit, fun other hother => ?_⟩
  · rw [List.isEmpty_iff, h.rules_eq_nil_iff hg hrules hkinds hproper hnt]
    exact ⟨hreserved, hname⟩
  · have hother' : other ∈ g.nonterminals := by
      rw [← Array.mem_toList_iff, hsplit]
      exact List.mem_append_left _ hother
    rw [Bool.not_eq_true', Bool.eq_false_iff, ne_eq, List.isEmpty_iff,
      h.rules_eq_nil_iff hg hrules hkinds hproper hother']
    rintro ⟨hne, hheads⟩
    have hold : other.name ∈ front.map (·.name) := List.mem_map_of_mem hother
    rw [hfront] at hold
    have hmem := List.mem_eraseDups.1 ((List.mem_cons.1 hold).resolve_left hne)
    obtain ⟨group, hgroup, hhead⟩ := hearlier other.name hmem
    exact hheads group hgroup hhead

end Grammar

namespace Reader

open Written

variable {options : ReadOptions} {tokens done rest : List Token} {token : Token} {place : Place}
  {reader : Reader} {groups : List Written.Group} {location : Location}

/-- A reader without bounds goes through all tokens that lead to a place. -/
theorem exists_reaches (hfree : options.bounds = .unbounded) (hpart : done <+: tokens)
    (hplace : place.Follows options.startName (done.map (·.kind))) :
    ∃ reader, Reaches options tokens done place reader ∧
      ∀ rest, readAll options {} (done ++ rest) = readAll options reader rest := by
  induction done using List.reverseRecOn generalizing place with
  | nil =>
    obtain rfl : Place.between [] = place := by simpa using hplace.foldlM_eq
    exact ⟨{}, reaches_start options tokens, fun rest => rfl⟩
  | append_singleton done token ih =>
    rw [List.map_append, List.map_singleton] at hplace
    obtain ⟨before, hbefore, hnext⟩ := hplace.exists_before
    have hdone : done <+: tokens := (List.prefix_append done [token]).trans hpart
    obtain ⟨reader, hreaches, hall⟩ := ih hdone hbefore
    obtain ⟨next, hread, hreaches'⟩ := hreaches.read_ok hfree hpart hnext
    have heof : ¬ token.isEof = true := by
      rw [Token.isEof, decide_eq_true_eq]
      intro hkind
      rw [hkind] at hnext
      cases before <;> cases hnext
    refine ⟨next, hreaches', fun rest => ?_⟩
    rw [List.append_assoc, hall, List.singleton_append, readAll, if_neg heof, hread]
    rfl

/-- A reader without bounds comes to the end of a sequence of proper groups. -/
theorem exists_reaches_end (hfree : options.bounds = .unbounded) (hlast : token.kind = .endOfFile)
    (hkinds : kindsOf groups = tokens.map (·.kind))
    (hproper : ∀ group ∈ groups, group.Proper options.startName) :
    ∃ reader, Reaches options tokens tokens (.between groups) reader ∧
      readAll options {} (tokens ++ [token]) = reader.finish token.location := by
  have hplace : Place.Follows options.startName (tokens.map (·.kind)) (.between groups) :=
    ⟨hkinds, hproper⟩
  obtain ⟨reader, hreaches, hall⟩ := exists_reaches hfree (List.prefix_refl tokens) hplace
  have heof : token.isEof = true := by simpa [Token.isEof] using hlast
  refine ⟨reader, hreaches, ?_⟩
  rw [hall, readAll, if_pos heof]

/-- A source that ends inside a group is refused at its end. -/
theorem Reaches.finish_refused (h : reader.Reaches options tokens done place)
    (hplace : ∀ groups, place ≠ .between groups) :
    reader.finish location = .error (.grammar location (place.fault .endOfFile)) := by
  unfold finish
  rw [h.phase_eq]
  cases place with
  | between groups => exact absurd rfl (hplace groups)
  | headed groups head => rfl
  | inside groups group => rfl

/-- A reader that has gone through groups has their names and rules. -/
theorem Reaches.between (h : reader.Reaches options tokens tokens (.between groups))
    (hgroups : groups ≠ []) : reader.phase = .head ∧ reader.grammar.CrossReferenced ∧
      reader.grammar.Knows options tokens ∧
      reader.grammar.rules.toList = rulesOf options tokens groups := by
  have htokens : tokens ≠ [] := by
    rintro rfl
    have hplace : Place.between [] = .between groups := by simpa using h.follows.foldlM_eq
    exact hgroups (Place.between.inj hplace).symm
  obtain ⟨hknows, hrules⟩ := h.contents htokens
  have hreader : reader ≠ {} := by
    rintro rfl
    exact absurd hrules (by simp [Place.rules, rulesOf])
  exact ⟨h.phase_eq, (h.sound.resolve_left hreader).1.toCrossReferenced, hknows, hrules⟩

/-- What is left to ask at the end of a source with groups: whether each non-terminal has a rule. -/
theorem finish_eq (hphase : reader.phase = .head) (hknows : reader.grammar.Knows options tokens) :
    reader.finish location = match reader.grammar.nonterminals.find? (·.rules.isEmpty) with
      | some n => .error (.grammar n.firstUse (.undefinedNonterminal n.name))
      | none => .ok reader.grammar := by
  have hsome : ¬ reader.grammar.nonterminals.isEmpty = true := by
    rw [Array.isEmpty_iff_size_eq_zero, hknows.size_nonterminals]
    simp [nonterminalNames]
  unfold finish
  simp only [hphase, if_neg hsome]
  cases reader.grammar.nonterminals.find? (·.rules.isEmpty) <;> rfl

/-- A source in which each name heads a group is read. -/
theorem Reaches.finish_ok (h : reader.Reaches options tokens tokens (.between groups))
    (hgroups : groups ≠ [])
    (hdefined : ∀ name, .identifier name ∈ tokens.map (·.kind) →
      ∃ group ∈ groups, group.head = name) :
    reader.finish location = .ok reader.grammar := by
  obtain ⟨hphase, hg, hknows, hrules⟩ := h.between hgroups
  have hnone : reader.grammar.nonterminals.find? (·.rules.isEmpty) = none := by
    rw [Array.find?_eq_none]
    intro nt hnt hempty
    obtain ⟨hname, hheads⟩ := (hknows.rules_eq_nil_iff hg hrules h.follows.kinds_eq h.follows.proper
      hnt).1 (List.isEmpty_iff.1 hempty)
    have hmem : nt.name ∈ nonterminalNames options tokens := by
      rw [← hknows.map_name]
      exact List.mem_map_of_mem (Array.mem_toList_iff.2 hnt)
    have hidentifier := List.mem_eraseDups.1 ((List.mem_cons.1 hmem).resolve_left hname)
    obtain ⟨group, hgroup, hhead⟩ := hdefined nt.name (identifier_mem_filterMap.1 hidentifier)
    exact hheads group hgroup hhead
  rw [finish_eq hphase hknows, hnone]

/-- A source in which a name heads no group is refused where such a name first occurs. -/
theorem Reaches.finish_undefined (h : reader.Reaches options tokens tokens (.between groups))
    {before after : List Token} {name : String} (htokens : tokens = before ++ token :: after)
    (hkind : token.kind = .identifier name) (hname : ∀ group ∈ groups, group.head ≠ name)
    (hbefore : ∀ earlier ∈ before, ∀ other, earlier.kind = .identifier other →
      ∃ group ∈ groups, group.head = other) :
    reader.finish location = .error (.grammar token.location (.undefinedNonterminal name)) := by
  have hgroups : groups ≠ [] := by
    rintro rfl
    have hkinds := h.follows.kinds_eq
    simp [Place.kinds, htokens] at hkinds
  obtain ⟨hphase, hg, hknows, hrules⟩ := h.between hgroups
  subst htokens
  obtain ⟨nt, hfind, rfl, hplace⟩ := hknows.exists_find? hg hrules h.follows.kinds_eq
    h.follows.proper hkind hname hbefore
  rw [finish_eq hphase hknows, hfind]
  simp only [hplace]

end Reader

namespace Written

/-- What is wrong with the tokens of a source, the end of the file included, and where. -/
inductive Offence (startName : String) (tokens : List Token) : Failure → Prop
  /-- The tokens begin a written grammar, but no written grammar goes on with the next one. -/
  | token {done rest : List Token} {token : Token} {place : Place} :
      tokens = done ++ token :: rest → place.Follows startName (done.map (·.kind)) →
      ¬ Viable startName ((done ++ [token]).map (·.kind)) →
      Offence startName tokens (.grammar token.location (place.fault token.kind))
  /-- There is no group. -/
  | empty {token : Token} : tokens = [token] → token.kind = .endOfFile →
      Offence startName tokens (.grammar token.location .emptyGrammar)
  /-- A name heads no group, and it is the first token with such a name. -/
  | undefined {groups : List Group} {before after : List Token} {token : Token} {name : String} :
      tokens.map (·.kind) = kindsOf groups ++ [.endOfFile] →
      (∀ group ∈ groups, group.Proper startName) → tokens = before ++ token :: after →
      token.kind = .identifier name → (∀ group ∈ groups, group.head ≠ name) →
      (∀ earlier ∈ before, ∀ other, earlier.kind = .identifier other →
        ∃ group ∈ groups, group.head = other) →
      Offence startName tokens (.grammar token.location (.undefinedNonterminal name))

variable {options : ReadOptions} {startName : String} {tokens : List Token} {last : Token}
  {failure : Failure} {groups : List Group}

/-- A source with an offence is refused because of it. -/
theorem Offence.readAll_eq (hfree : options.bounds = .unbounded) (hlast : last.kind = .endOfFile)
    (h : Offence options.startName (tokens ++ [last]) failure) :
    Reader.readAll options {} (tokens ++ [last]) = .error failure := by
  cases h with
  | @token done rest token place hsplit hplace hviable =>
    rw [List.map_append, List.map_singleton, hplace.viable_concat_iff, not_or,
      not_exists] at hviable
    obtain ⟨hnext, hend⟩ := hviable
    obtain ⟨reader, hreaches, hall⟩ := Reader.exists_reaches hfree (List.prefix_refl done) hplace
    rw [hsplit, hall, Reader.readAll]
    by_cases heof : token.isEof = true
    · have hkind : token.kind = .endOfFile := by simpa [Token.isEof] using heof
      rw [if_pos heof, hkind]
      exact hreaches.finish_refused fun groups hplace => hend ⟨hkind, groups, hplace⟩
    · rw [if_neg heof, hreaches.read_refused (Option.eq_none_iff_forall_ne_some.2 hnext)]
      rfl
  | @empty token htokens hkind =>
    have heof : token.isEof = true := by simpa [Token.isEof] using hkind
    rw [htokens, Reader.readAll, if_pos heof]
    rfl
  | @undefined groups before after token name hkinds hproper hsplit hkind hname hbefore =>
    have hgroups : kindsOf groups = tokens.map (·.kind) := by
      rw [List.map_append] at hkinds
      exact (List.append_inj_left' hkinds rfl).symm
    obtain ⟨reader, hreaches, hall⟩ := Reader.exists_reaches_end hfree hlast hgroups hproper
    rcases List.eq_nil_or_concat after with rfl | ⟨rest, other, rfl⟩
    · have htoken := List.append_inj_right' hsplit rfl
      rw [← List.singleton_inj.1 htoken, hlast] at hkind
      cases hkind
    · have htokens : tokens = before ++ token :: rest := by
        rw [List.concat_eq_append, ← List.cons_append, ← List.append_assoc] at hsplit
        exact List.append_inj_left' hsplit rfl
      rw [hall]
      exact hreaches.finish_undefined htokens hkind hname hbefore

/-- A source that is a written grammar is read. -/
theorem Source.readAll_ok (hfree : options.bounds = .unbounded) (hlast : last.kind = .endOfFile)
    (h : Source options.startName (tokens.map (·.kind)) groups) :
    ∃ g, Reader.readAll options {} (tokens ++ [last]) = .ok g ∧ g.Knows options tokens ∧
      g.rules.toList = rulesOf options tokens groups := by
  obtain ⟨reader, hreaches, hall⟩ := Reader.exists_reaches_end hfree hlast h.kinds_eq h.proper
  obtain ⟨-, -, hknows, hrules⟩ := hreaches.between h.ne_nil
  refine ⟨reader.grammar, hall.trans (hreaches.finish_ok h.ne_nil fun name hname => ?_), hknows,
    hrules⟩
  rw [← h.kinds_eq, identifier_mem_kindsOf] at hname
  obtain ⟨group, hgroup, hhead | ⟨mentions, hmentions, hmem⟩⟩ := hname
  · exact ⟨group, hgroup, hhead⟩
  · exact h.defined group hgroup mentions hmentions name hmem

/-- Either each name heads a group, or there is a first token whose name heads none. -/
theorem exists_first_undefined (groups : List Group) (tokens : List Token) :
    (∀ token ∈ tokens, ∀ name, token.kind = .identifier name →
        ∃ group ∈ groups, group.head = name) ∨
      ∃ before token after name, tokens = before ++ token :: after ∧
        token.kind = .identifier name ∧ (∀ group ∈ groups, group.head ≠ name) ∧
        ∀ earlier ∈ before, ∀ other, earlier.kind = .identifier other →
          ∃ group ∈ groups, group.head = other := by
  induction tokens using List.reverseRecOn with
  | nil => exact .inl (by simp)
  | append_singleton tokens token ih =>
    rcases ih with hall | ⟨before, first, after, name, rfl, hfirst⟩
    · by_cases htoken : ∀ name, token.kind = .identifier name → ∃ group ∈ groups, group.head = name
      · refine .inl fun other hother => ?_
        rcases List.mem_append.1 hother with hold | hnew
        · exact hall other hold
        · rw [List.mem_singleton.1 hnew]
          exact htoken
      · simp only [not_forall, not_exists, not_and] at htoken
        obtain ⟨name, hkind, hname⟩ := htoken
        exact .inr ⟨tokens, token, [], name, rfl, hkind, hname, hall⟩
    · exact .inr ⟨before, first, after ++ [token], name, by simp, hfirst⟩

/-- Proper groups are a whole source, or a group or a head is missing. -/
theorem source_or_offence_of_kinds (hlast : last.kind = .endOfFile)
    (hkinds : kindsOf groups = tokens.map (·.kind))
    (hproper : ∀ group ∈ groups, group.Proper startName) :
    Source startName (tokens.map (·.kind)) groups ∨
      ∃ failure, Offence startName (tokens ++ [last]) failure := by
  by_cases hgroups : groups = []
  · subst hgroups
    have hnil : tokens = [] := List.map_eq_nil_iff.1 hkinds.symm
    exact .inr ⟨_, .empty (by rw [hnil, List.nil_append]) hlast⟩
  · rcases exists_first_undefined groups tokens with
      hall | ⟨before, token, after, name, rfl, hkind, hname, hbefore⟩
    · refine .inl ⟨hkinds, hgroups, hproper, fun group hgroup mentions hmentions name hmem => ?_⟩
      have hidentifier : .identifier name ∈ kindsOf groups :=
        identifier_mem_kindsOf.2 ⟨group, hgroup, .inr ⟨mentions, hmentions, hmem⟩⟩
      rw [hkinds] at hidentifier
      obtain ⟨token, htoken, hkind⟩ := List.mem_map.1 hidentifier
      exact hall token htoken name hkind
    · have hsplit : before ++ token :: after ++ [last] = before ++ token :: (after ++ [last]) := by
        rw [List.append_assoc, List.cons_append]
      refine .inr ⟨_, .undefined ?_ hproper hsplit hkind hname hbefore⟩
      rw [List.map_append, List.map_singleton, hlast, hkinds]

/-- A source is a written grammar or has an offence. -/
theorem exists_source_or_offence (startName : String) (hlast : last.kind = .endOfFile)
    (htokens : ∀ token ∈ tokens, token.kind ≠ .endOfFile) :
    (∃ groups, Source startName (tokens.map (·.kind)) groups) ∨
      ∃ failure, Offence startName (tokens ++ [last]) failure := by
  have hrefused {done rest : List Token} {token : Token} {place : Place}
      (hsplit : tokens ++ [last] = done ++ token :: rest)
      (hplace : place.Follows startName (done.map (·.kind)))
      (hnext : place.next? startName token.kind = none)
      (hend : token.kind ≠ .endOfFile ∨ ∀ groups, place ≠ .between groups) :
      ∃ failure, Offence startName (tokens ++ [last]) failure := by
    refine ⟨_, .token hsplit hplace ?_⟩
    rw [List.map_append, List.map_singleton, hplace.viable_concat_iff, hnext]
    rintro (⟨after, hafter⟩ | ⟨hkind, groups, hgroups⟩)
    · cases hafter
    · rcases hend with hne | hne
      · exact hne hkind
      · exact hne groups hgroups
  rcases Place.exists_follows_or_refusal startName tokens with
    ⟨place, hplace⟩ | ⟨done, rest, token, place, rfl, hplace, hnext⟩
  · cases place with
    | between groups =>
      obtain ⟨hkinds, hproper⟩ := hplace
      exact (source_or_offence_of_kinds hlast hkinds hproper).imp (fun h => ⟨groups, h⟩) id
    | headed groups head =>
      exact .inr (hrefused rfl hplace (by rw [hlast]; rfl) (.inr (by simp)))
    | inside groups group =>
      exact .inr (hrefused rfl hplace (by rw [hlast]; rfl) (.inr (by simp)))
  · have hsplit : done ++ token :: rest ++ [last] = done ++ token :: (rest ++ [last]) := by
      rw [List.append_assoc, List.cons_append]
    exact .inr (hrefused hsplit hplace hnext (.inl (htokens token (by simp))))

end Written

/-- The tokens of a source before the first end of file. -/
def Token.beforeEnd (tokens : List Token) : List Token := tokens.takeWhile (!·.isEof)

/-- The first end of file. The end of the list is one, too. -/
def Token.endOf (tokens : List Token) : Token := (tokens.find? (·.isEof)).getD .eof

/-- The token that ends a list is an end of file. -/
theorem Token.kind_endOf (tokens : List Token) : (Token.endOf tokens).kind = .endOfFile := by
  unfold Token.endOf
  cases hfind : tokens.find? (·.isEof) with
  | none => rfl
  | some token => simpa [Token.isEof] using List.find?_some hfind

/-- There is no end of file before the end. -/
theorem Token.kind_ne_of_mem_beforeEnd {tokens : List Token} :
    ∀ token ∈ Token.beforeEnd tokens, token.kind ≠ .endOfFile := by
  intro token htoken
  have hnot := List.mem_takeWhile_imp htoken
  simpa [Token.isEof] using hnot

/-- Nothing is read after the first end of file. -/
theorem Reader.readAll_beforeEnd (options : ReadOptions) (reader : Reader) (tokens : List Token) :
    reader.readAll options tokens =
      reader.readAll options (Token.beforeEnd tokens ++ [Token.endOf tokens]) := by
  induction tokens generalizing reader with
  | nil => rfl
  | cons token tokens ih =>
    by_cases heof : token.isEof = true
    · simp [Token.beforeEnd, Token.endOf, readAll, heof]
    · have hbefore : Token.beforeEnd (token :: tokens) = token :: Token.beforeEnd tokens := by
        simp [Token.beforeEnd, heof]
      have hend : Token.endOf (token :: tokens) = Token.endOf tokens := by
        simp [Token.endOf, heof]
      rw [hbefore, hend, List.cons_append, readAll, readAll, if_neg heof, if_neg heof]
      exact congrArg _ (funext ih)

/-- Without bounds tokens are read, or they are refused because of what is written. -/
theorem Reader.readAll_ok_or_grammar {options : ReadOptions} (hfree : options.bounds = .unbounded)
    (tokens : List Token) : (∃ g, readAll options {} tokens = .ok g) ∨
      ∃ location fault, readAll options {} tokens = .error (.grammar location fault) := by
  rw [readAll_beforeEnd]
  rcases Written.exists_source_or_offence options.startName (Token.kind_endOf tokens)
    Token.kind_ne_of_mem_beforeEnd with ⟨groups, hsource⟩ | ⟨failure, hoffence⟩
  · obtain ⟨g, hread, -⟩ := hsource.readAll_ok hfree (Token.kind_endOf tokens)
    exact .inl ⟨g, hread⟩
  · have hrefused := hoffence.readAll_eq hfree (Token.kind_endOf tokens)
    cases hoffence <;> exact .inr ⟨_, _, hrefused⟩

/-- A queue gives its tokens up to the first end of file. -/
theorem TokenQueue.take_eq {tokens : List Token} {count : Nat} (hcount : tokens.length < count) :
    TokenStream.take count (TokenQueue.mk tokens) =
      Token.beforeEnd tokens ++ [Token.endOf tokens] := by
  induction tokens generalizing count with
  | nil =>
    obtain ⟨count, rfl⟩ := Nat.exists_eq_succ_of_ne_zero (Nat.ne_of_gt hcount)
    rfl
  | cons token tokens ih =>
    obtain ⟨count, rfl⟩ := Nat.exists_eq_succ_of_ne_zero (Nat.ne_of_gt (Nat.zero_lt_of_lt hcount))
    have htake : TokenStream.take (count + 1) (TokenQueue.mk (token :: tokens)) =
        if token.isEof then [token]
        else token :: TokenStream.take count (TokenQueue.mk tokens) := rfl
    have hrest : tokens.length < count := Nat.lt_of_succ_lt_succ hcount
    rw [htake, ih hrest]
    by_cases heof : token.isEof = true
    · simp [Token.beforeEnd, Token.endOf, heof]
    · simp [Token.beforeEnd, Token.endOf, heof]

namespace Grammar

open Written

variable {options : ReadOptions} {tokens : List Token} {groups : List Written.Group}

/-- A grammar has the names and the rules that are written: the names of its non-terminals and of
its terminals in the order of their first occurrences, and a rule for each alternative in order. -/
structure Presents (options : ReadOptions) (tokens : List Token) (groups : List Written.Group)
    (g : Grammar) : Prop where
  nonterminals_eq : g.nonterminals.toList.map (·.name) = nonterminalNames options tokens
  terminals_eq : g.terminals.toList.map (·.name) = terminalNames options tokens
  rules_eq : g.rules.toList = rulesOf options tokens groups

/-- A queue is read as the list of its tokens. -/
theorem ofStream_queue (options : ReadOptions) (tokens : List Token) :
    ofStream options (TokenQueue.mk tokens) = ofTokens options tokens := by
  have htake := congrArg (ofTokens options) (TokenQueue.take_eq (Nat.lt_succ_self tokens.length))
  exact htake.trans (Reader.readAll_beforeEnd options {} tokens).symm

/-- Tokens that are a written grammar are read, and the grammar knows their names. -/
theorem ofTokens_ok_of_source (options : ReadOptions) (hfree : options.bounds = .unbounded)
    (h : Source options.startName ((Token.beforeEnd tokens).map (·.kind)) groups) :
    ∃ g, ofTokens options tokens = .ok g ∧ g.Knows options (Token.beforeEnd tokens) ∧
      g.rules.toList = rulesOf options (Token.beforeEnd tokens) groups := by
  obtain ⟨g, hread, hknows, hrules⟩ := h.readAll_ok hfree (Token.kind_endOf tokens)
  exact ⟨g, (Reader.readAll_beforeEnd options {} tokens).trans hread, hknows, hrules⟩

/-- Tokens with an offence are refused because of it. -/
theorem ofTokens_error_of_offence {failure : Failure} (options : ReadOptions)
    (hfree : options.bounds = .unbounded)
    (h : Offence options.startName (Token.beforeEnd tokens ++ [Token.endOf tokens]) failure) :
    ofTokens options tokens = .error failure :=
  (Reader.readAll_beforeEnd options {} tokens).trans (h.readAll_eq hfree (Token.kind_endOf tokens))

/-- A source that is a written grammar is read, and its grammar has the names and the rules that are
written. -/
theorem ofStream_ok_of_source
    (h : Source options.startName ((Token.beforeEnd tokens).map (·.kind)) groups) :
    ∃ g, ofStream { options with bounds := .unbounded } (TokenQueue.mk tokens) = .ok g ∧
      g.Presents options (Token.beforeEnd tokens) groups := by
  obtain ⟨g, hread, hknows, hrules⟩ :=
    ofTokens_ok_of_source { options with bounds := .unbounded } rfl h
  exact ⟨g, (ofStream_queue _ tokens).trans hread, hknows.map_name, hknows.terminals_eq, hrules⟩

/-- A source with an offence is refused because of it. -/
theorem ofStream_error_of_offence {failure : Failure}
    (h : Offence options.startName (Token.beforeEnd tokens ++ [Token.endOf tokens]) failure) :
    ofStream { options with bounds := .unbounded } (TokenQueue.mk tokens) = .error failure :=
  (ofStream_queue _ tokens).trans
    (ofTokens_error_of_offence { options with bounds := .unbounded } rfl h)

/-- Without bounds a source is read if and only if its tokens before the first end of file are a
written grammar: a sequence of groups, at least one, in which no name is reserved, no group has two
empty alternatives, and each name in an alternative heads a group. The grammar that is read then has
the names and the rules that are written, with the augmented rule first. -/
theorem read_iff_written (options : ReadOptions) (tokens : List Token) :
    ((∃ g, ofStream { options with bounds := .unbounded } (TokenQueue.mk tokens) = .ok g) ↔
        ∃ groups, Source options.startName ((Token.beforeEnd tokens).map (·.kind)) groups) ∧
      ∀ g groups, ofStream { options with bounds := .unbounded } (TokenQueue.mk tokens) = .ok g →
        Source options.startName ((Token.beforeEnd tokens).map (·.kind)) groups →
        g.Presents options (Token.beforeEnd tokens) groups := by
  refine ⟨⟨?_, ?_⟩, ?_⟩
  · rintro ⟨g, hread⟩
    rcases exists_source_or_offence options.startName (Token.kind_endOf tokens)
      Token.kind_ne_of_mem_beforeEnd with hsource | ⟨failure, hoffence⟩
    · exact hsource
    · rw [ofStream_error_of_offence hoffence] at hread
      cases hread
  · rintro ⟨groups, hgroups⟩
    obtain ⟨g, hread, -⟩ := ofStream_ok_of_source hgroups
    exact ⟨g, hread⟩
  · intro g groups hread hgroups
    obtain ⟨g', hread', hpresents⟩ := ofStream_ok_of_source hgroups
    obtain rfl := Except.ok.inj (hread'.symm.trans hread)
    exact hpresents

/-- The source `A -> 'a' A '$' | ;` is a written grammar. With quotes kept its terminal is named
`'a'`, and the quoted `$` is the end of input. What comes after the end of file does not count. -/
theorem read_iff_written_of_letter :
    ∃ g groups, ofStream { keepQuotes := true } (TokenQueue.mk (([.identifier "A", .arrow .arrow,
        .quoted .single "a", .identifier "A", .quoted .single "$", .delimiter '|', .delimiter ';',
        .endOfFile, .delimiter '+'] : List Token.Kind).map (⟨·, {}⟩))) = .ok g ∧
      Source "S'" [.identifier "A", .arrow .arrow, .quoted .single "a", .identifier "A",
        .quoted .single "$", .delimiter '|', .delimiter ';'] groups ∧
      g.nonterminals.toList.map (·.name) = ["S'", "A"] ∧ g.terminals.toList.map (·.name) = ["'a'"] ∧
      g.rules.toList = [⟨0, [.nonterminal 1, .endOfInput]⟩,
        ⟨1, [.terminal 0, .nonterminal 1, .endOfInput]⟩, ⟨1, []⟩] := by
  let group : Written.Group :=
    ⟨"A", .arrow, [[.quoted .single "a", .named "A", .quoted .single "$"]], []⟩
  have hsource : Source "S'" [.identifier "A", .arrow .arrow, .quoted .single "a", .identifier "A",
      .quoted .single "$", .delimiter '|', .delimiter ';'] [group] := by
    have hproper : group.Proper "S'" := ⟨by decide, by decide, by decide⟩
    refine ⟨rfl, List.cons_ne_nil _ _, by simpa using hproper, ?_⟩
    simp [group, Group.alternatives]
  obtain ⟨hread, hpresents⟩ := read_iff_written { keepQuotes := true }
    (([.identifier "A", .arrow .arrow, .quoted .single "a", .identifier "A", .quoted .single "$",
      .delimiter '|', .delimiter ';', .endOfFile, .delimiter '+'] : List Token.Kind).map (⟨·, {}⟩))
  obtain ⟨g, hg⟩ := hread.2 ⟨[group], hsource⟩
  obtain ⟨hnonterminals, hterminals, hrules⟩ := hpresents g [group] hg hsource
  refine ⟨g, [group], hg, hsource, hnonterminals.trans ?_, hterminals.trans ?_, hrules.trans ?_⟩
  · decide +kernel
  · decide +kernel
  · decide +kernel

/-- Without bounds a source is refused if and only if it has an offence, and then with the failure
of its offence: at the first token that no written grammar goes on with, at the end of an empty
source, or at the first name that heads no group. -/
theorem refused_iff_offence (options : ReadOptions) (tokens : List Token) (failure : Failure) :
    ofStream { options with bounds := .unbounded } (TokenQueue.mk tokens) = .error failure ↔
      Offence options.startName (Token.beforeEnd tokens ++ [Token.endOf tokens]) failure := by
  refine ⟨fun hrefused => ?_, ofStream_error_of_offence⟩
  rcases exists_source_or_offence options.startName (Token.kind_endOf tokens)
    Token.kind_ne_of_mem_beforeEnd with ⟨groups, hsource⟩ | ⟨failure', hoffence⟩
  · obtain ⟨g, hread, -⟩ := ofStream_ok_of_source hsource
    rw [hread] at hrefused
    cases hrefused
  · rw [ofStream_error_of_offence hoffence] at hrefused
    rwa [← Except.error.inj hrefused]

end Grammar

end ShiftReduce
