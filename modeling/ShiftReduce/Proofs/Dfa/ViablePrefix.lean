import ShiftReduce.Proofs.Derivation
import ShiftReduce.Proofs.Dfa.Moves

/-!
# Viable prefixes

An item is valid for a string if a rightmost derivation can use its rule in such a way that the
string ends where the dot stands. The canonical collection can be walked along every string that an
item is valid for, and the state at the end of the walk has the item. If every non-terminal derives
an input, the states have no other items.
-/

namespace ShiftReduce

/-- An item is valid for a string if rightmost steps lead from the augmented start symbol to a form
in which the head of its rule has only an input after it, and the string is what stands before the
head and then the body up to the dot. -/
def Item.ValidFor (g : Grammar) (symbols : List Symbol) (item : Item) : Prop :=
  ∃ rule before after ids, g.rules[item.rule]? = some rule ∧ item.dot ≤ rule.length ∧
    symbols = before ++ rule.body.take item.dot ∧ Grammar.IsInput after ∧
    g.Rightmost ids [.nonterminal Grammar.start] (before ++ .nonterminal rule.head :: after)

namespace Grammar

/-- The items that goto gives along a string from the start of the augmented rule. -/
def reached (g : Grammar) (symbols : List Symbol) : Set Item :=
  g.gotoAll (g.closure {⟨augmentedRule, 0⟩}) symbols

variable {g : Grammar} {symbols form form' before after : List Symbol} {X : Symbol} {item : Item}
  {id : RuleId} {rule : Rule}

/-- One more symbol leads to the set that goto gives. -/
theorem reached_concat (g : Grammar) (symbols : List Symbol) (X : Symbol) :
    g.reached (symbols ++ [X]) = g.goto (g.reached symbols) X :=
  List.foldl_concat ..

/-- The augmented rule with the dot at the start is in the first set. -/
theorem start_mem_reached (g : Grammar) : (⟨augmentedRule, 0⟩ : Item) ∈ g.reached [] :=
  subset_closure g _ (Set.mem_singleton _)

/-- The set that a string leads to is closed. -/
theorem closed_reached (g : Grammar) (symbols : List Symbol) : g.Closed (g.reached symbols) := by
  rcases List.eq_nil_or_concat symbols with rfl | ⟨front, X, rfl⟩
  · exact closed_closure g _
  · rw [List.concat_eq_append, reached_concat]
    exact closed_closure g _

/-- An item that waits for the next symbol of a string is advanced along it. -/
theorem advance_mem_reached (hitem : item ∈ g.reached symbols) (hawaits : item.Awaits g X) :
    item.advance ∈ g.reached (symbols ++ [X]) := by
  rw [reached_concat]
  exact subset_closure g _ ⟨item, hitem, hawaits, rfl⟩

/-- The start of a rule is advanced along the body of the rule. -/
theorem mem_reached_take {d : Nat} (hrule : g.rules[id]? = some rule)
    (hitem : (⟨id, 0⟩ : Item) ∈ g.reached before) (hd : d ≤ rule.length) :
    (⟨id, d⟩ : Item) ∈ g.reached (before ++ rule.body.take d) := by
  induction d with
  | zero => simpa using hitem
  | succ d ih =>
    have hlt : d < rule.body.length := hd
    have hawaits : Item.Awaits g ⟨id, d⟩ rule.body[d] :=
      ⟨rule, hrule, List.getElem?_eq_getElem hlt⟩
    have hnext := advance_mem_reached (ih (Nat.le_of_lt hlt)) hawaits
    rw [List.append_assoc, List.take_append_getElem hlt] at hnext
    exact hnext

/-- Before each non-terminal of a form the starts of its rules are reached. -/
def Covered (g : Grammar) (form : List Symbol) : Prop :=
  ∀ before n after, form = before ++ .nonterminal n :: after →
    ∀ id, g.Heads n id → (⟨id, 0⟩ : Item) ∈ g.reached before

/-- The start symbol is covered, because the augmented rule leads from it. -/
theorem covered_start (hg : g.Linked) : g.Covered [.nonterminal start] := by
  rintro before n after hform id ⟨rule, hrule, hhead⟩
  obtain ⟨rfl, hn, -⟩ := of_singleton_eq hform
  rw [hg.head_start hrule (hhead.trans (Symbol.nonterminal.inj hn))]
  exact start_mem_reached g

/-- A rightmost step keeps a form covered. A non-terminal of the new body is waited for by the rule
of the body with the dot before the non-terminal, and no non-terminal stands after the body. -/
theorem Covered.replace (h : g.Covered (before ++ .nonterminal rule.head :: after))
    (hrule : g.rules[id]? = some rule) (hafter : IsInput after) :
    g.Covered (before ++ rule.body ++ after) := by
  intro left n right hform id' hheads
  rcases occurrence_cases hform with ⟨rest, hbefore, -⟩ | ⟨front, rest, hbody, hleft, -⟩ |
    ⟨front, hinput, -⟩
  · refine h left n (rest ++ .nonterminal rule.head :: after) ?_ id' hheads
    rw [hbefore, List.append_assoc, List.cons_append]
  · have hstart := h before rule.head after rfl id ⟨rule, hrule, rfl⟩
    have hle : front.length ≤ rule.length := by
      rw [Rule.length, hbody, List.length_append]
      exact Nat.le_add_right _ _
    have hitem := mem_reached_take hrule hstart hle
    have hawaits : Item.Awaits g ⟨id, front.length⟩ (.nonterminal n) :=
      ⟨rule, hrule, by simp [hbody]⟩
    rw [hbody, List.take_left, ← hleft] at hitem
    exact closed_reached g left _ hitem n hawaits id' hheads
  · have hn : (Symbol.nonterminal n).isInput = true := hafter _ (by simp [hinput])
    exact absurd hn Bool.false_ne_true

/-- Rightmost derivations lead from covered forms to covered forms. -/
theorem Covered.of_rightmost {ids : List RuleId} (hform : g.Covered form)
    (h : g.Rightmost ids form form') : g.Covered form' := by
  induction h with
  | refl => exact hform
  | step hrule hafter _ ih => exact ih (hform.replace hrule hafter)

/-- Valid items are reached. -/
theorem mem_reached_of_validFor (hg : g.Linked) (h : item.ValidFor g symbols) :
    item ∈ g.reached symbols := by
  obtain ⟨rule, before, after, ids, hrule, hdot, rfl, -, hderives⟩ := h
  have hcovered := (covered_start hg).of_rightmost hderives
  have hstart := hcovered before rule.head after rfl item.rule ⟨rule, hrule, rfl⟩
  exact mem_reached_take hrule hstart hdot

/-- If every non-terminal derives an input, then so does every form. -/
theorem AllProductive.exists_parse (h : g.AllProductive) (hform : ∀ X ∈ form, X.In g) :
    ∃ ids u, g.Parse ids form u := by
  induction form with
  | nil => exact ⟨[], [], .nil⟩
  | cons X form ih =>
    obtain ⟨hX, hform⟩ := List.forall_mem_cons.1 hform
    obtain ⟨ids, u, hparse⟩ := ih hform
    cases X with
    | terminal t => exact ⟨ids, .terminal t :: u, .input rfl hparse⟩
    | endOfInput => exact ⟨ids, .endOfInput :: u, .input rfl hparse⟩
    | epsilon => exact absurd hX not_false
    | nonterminal n =>
      obtain ⟨v, hv, hderives⟩ := h n hX.2
      obtain ⟨ids', hparse'⟩ := Parse.exists_of_derives hderives hv
      exact ⟨ids' ++ ids, v ++ u, hparse'.append hparse⟩

end Grammar

namespace Item.ValidFor

variable {g : Grammar} {symbols : List Symbol} {item : Item}

/-- The start of the augmented rule is valid for the empty string. -/
theorem start (hg : g.Linked) : Item.ValidFor g [] ⟨augmentedRule, 0⟩ :=
  ⟨_, [], [], [], hg.augmented, Nat.zero_le _, rfl, by simp [Grammar.IsInput], .refl _⟩

/-- An item stays valid when it is advanced along a longer string. -/
theorem advance {X : Symbol} (h : item.ValidFor g symbols) (hawaits : item.Awaits g X) :
    item.advance.ValidFor g (symbols ++ [X]) := by
  obtain ⟨rule, before, after, ids, hrule, -, rfl, hafter, hderives⟩ := h
  obtain ⟨rule', hrule', hX⟩ := hawaits
  obtain rfl := Option.some.inj (hrule.symm.trans hrule')
  obtain ⟨hlt, rfl⟩ := List.getElem?_eq_some_iff.1 hX
  refine ⟨rule, before, after, ids, hrule, hlt, ?_, hafter, hderives⟩
  rw [List.append_assoc, List.take_append_getElem hlt]
  rfl

/-- If a valid item waits for a non-terminal, the starts of the rules of the non-terminal are valid
too, because what stands after the non-terminal derives an input. -/
theorem expand {n : NonterminalId} {id : RuleId} (hg : g.CrossReferenced)
    (hproductive : g.AllProductive) (h : item.ValidFor g symbols)
    (hawaits : item.Awaits g (.nonterminal n)) (hheads : g.Heads n id) :
    Item.ValidFor g symbols ⟨id, 0⟩ := by
  obtain ⟨rule, before, after, ids, hrule, -, rfl, hafter, hderives⟩ := h
  obtain ⟨rule', hrule', hn⟩ := hawaits
  obtain rfl := Option.some.inj (hrule.symm.trans hrule')
  obtain ⟨inner, hinner, rfl⟩ := hheads
  obtain ⟨hlt, hget⟩ := List.getElem?_eq_some_iff.1 hn
  let rest := rule.body.drop (item.dot + 1)
  have hbody : rule.body = rule.body.take item.dot ++ .nonterminal inner.head :: rest := by
    rw [← hget, List.getElem_cons_drop, List.take_append_drop]
  have hrest : ∀ X ∈ rest, X.In g := fun X hX => hg.body_in hrule X (List.mem_of_mem_drop hX)
  obtain ⟨restIds, v, hparse⟩ := hproductive.exists_parse hrest
  have hafter' : Grammar.IsInput (v ++ after) :=
    List.forall_mem_append.2 ⟨hparse.isInput, hafter⟩
  have hlast : g.Rightmost restIds.reverse (rest ++ after) (v ++ after) :=
    hparse.rightmost.append_right hafter
  have hbefore := hlast.append_left (before ++ rule.body.take item.dot ++ [.nonterminal inner.head])
  have hform : before ++ rule.body.take item.dot ++ [.nonterminal inner.head] ++ (rest ++ after) =
      before ++ rule.body ++ after := by
    conv_rhs => rw [hbody]
    simp only [List.append_assoc, List.cons_append, List.nil_append]
  rw [hform, List.append_assoc _ [_]] at hbefore
  have hall := hderives.trans (.step hrule hafter hbefore)
  exact ⟨inner, before ++ rule.body.take item.dot, v ++ after, _, hinner, Nat.zero_le _,
    by simp, hafter', hall⟩

/-- If every non-terminal derives an input, the items that are reached are valid. -/
theorem of_mem_reached (hg : g.Linked) (hproductive : g.AllProductive)
    (h : item ∈ g.reached symbols) : item.ValidFor g symbols := by
  have hclosed (symbols : List Symbol) : g.Closed { item | item.ValidFor g symbols } :=
    fun _ hitem _ hawaits _ hheads =>
      expand hg.toCrossReferenced hproductive hitem hawaits hheads
  -- The last symbol of the string is read by the last goto.
  induction symbols using List.reverseRecOn generalizing item with
  | nil =>
    have hkernel : {⟨augmentedRule, 0⟩} ⊆ { item | Item.ValidFor g [] item } :=
      Set.singleton_subset_iff.2 (start hg)
    exact Grammar.closure_subset hkernel (hclosed []) h
  | append_singleton symbols X ih =>
    rw [Grammar.reached_concat] at h
    have hkernel : g.advanced (g.reached symbols) X ⊆
        { item | item.ValidFor g (symbols ++ [X]) } := by
      rintro item ⟨waiting, hwaiting, hawaits, rfl⟩
      exact (ih hwaiting).advance hawaits
    exact Grammar.closure_subset hkernel (hclosed _) h

end Item.ValidFor

namespace Dfa

/-- For a grammar that was read and a table of some of its items, the canonical collection is built.
It can be walked along every string that an item is valid for, to a state that has the item. If
every non-terminal derives an input, all items of the state that a string leads to are valid for
the string. -/
theorem viable_prefixes {options : ReadOptions} {tokens : List Token} {g : Grammar}
    {table : ItemTable} (hread : Grammar.ofTokens options tokens = .ok g) (hvalid : table.Valid g)
    (hbounds : table.bounds = .unbounded) :
    ∃ dfa after, build g .unbounded table = .ok dfa after ∧
      (∀ symbols item, Item.ValidFor g symbols item →
        ∃ s, dfa.walk? start symbols = some s ∧ item ∈ dfa.itemsAt after s) ∧
      (g.AllProductive → ∀ symbols s, dfa.walk? start symbols = some s →
        ∀ item ∈ dfa.itemsAt after s, item.ValidFor g symbols) := by
  have hg := Grammar.wellFormed_ofTokens hread
  obtain ⟨dfa, after, hdfa, -, hcanonical⟩ := (build_meets hg hvalid).exists_ok hbounds
  have hwalked {symbols : List Symbol} {s : StateId} (hwalk : dfa.walk? start symbols = some s) :
      dfa.itemsAt after s = g.reached symbols := by
    rw [hcanonical.itemsAt_walk hwalk, hcanonical.itemsAt_start]
    rfl
  refine ⟨dfa, after, hdfa, fun symbols item hitem => ?_, fun hproductive symbols s hwalk => ?_⟩
  · have hreached := Grammar.mem_reached_of_validFor hg.toLinked hitem
    have hnonempty : (g.gotoAll (dfa.itemsAt after start) symbols).Nonempty := by
      rw [hcanonical.itemsAt_start]
      exact ⟨item, hreached⟩
    obtain ⟨s, hwalk⟩ := (hcanonical.exists_walk_iff hcanonical.nonempty).2 hnonempty
    refine ⟨s, hwalk, ?_⟩
    rw [hwalked hwalk]
    exact hreached
  · rw [hwalked hwalk]
    exact fun item hitem => .of_mem_reached hg.toLinked hproductive hitem

/-- For the rules `S -> A S 'b' | 'x'` and `A ->`, in which a non-terminal that vanishes stands
before a recursive one, the string `A A S` leads to a state with the item `S -> A S . 'b'`, and the
items of this state are valid for the string. -/
theorem viable_prefixes_of_hidden_recursion :
    ∃ g dfa after s, Grammar.ofSource {} "S -> A S 'b' | 'x' ; A -> ;" = .ok g ∧
      g.AllProductive ∧ build g .unbounded (.empty .unbounded) = .ok dfa after ∧
      dfa.walk? start [.nonterminal 2, .nonterminal 2, .nonterminal 1] = some s ∧
      (⟨1, 2⟩ : Item) ∈ dfa.itemsAt after s ∧ ∀ item ∈ dfa.itemsAt after s,
        item.ValidFor g [.nonterminal 2, .nonterminal 2, .nonterminal 1] := by
  have hsource : (Grammar.ofSource {} "S -> A S 'b' | 'x' ; A -> ;").toOption.map
      (fun g => (g.rules, g.nonterminals.size)) = some (#[⟨0, [.nonterminal 1, .endOfInput]⟩,
        ⟨1, [.nonterminal 2, .nonterminal 1, .terminal 0]⟩, ⟨1, [.terminal 1]⟩, ⟨2, []⟩], 3) := by
    decide +kernel
  obtain ⟨g, hok, hparts⟩ := Option.map_eq_some_iff.1 hsource
  obtain ⟨hrules, hsize⟩ := Prod.mk.inj hparts
  have hread := eq_ok_of_toOption hok
  have hrule0 : g.rules[0]? = some ⟨0, [.nonterminal 1, .endOfInput]⟩ := by simp [hrules]
  have hrule1 : g.rules[1]? = some ⟨1, [.nonterminal 2, .nonterminal 1, .terminal 0]⟩ := by
    simp [hrules]
  have hrule2 : g.rules[2]? = some ⟨1, [.terminal 1]⟩ := by simp [hrules]
  have hrule3 : g.rules[3]? = some ⟨2, []⟩ := by simp [hrules]
  have hS := Grammar.derives_of_rule hrule2
  have hproductive : g.AllProductive := by
    intro n hn
    obtain rfl | rfl | rfl : n = 0 ∨ n = 1 ∨ n = 2 := by omega
    · exact ⟨[.terminal 1, .endOfInput], by simp [Grammar.IsInput, Symbol.isInput],
        (Grammar.derives_of_rule hrule0).trans (hS.append_right [.endOfInput])⟩
    · exact ⟨[.terminal 1], by simp [Grammar.IsInput, Symbol.isInput], hS⟩
    · exact ⟨[], by simp [Grammar.IsInput], Grammar.derives_of_rule hrule3⟩
  have hderives : g.Rightmost [0, 1] [.nonterminal 0]
      [.nonterminal 2, .nonterminal 1, .terminal 0, .endOfInput] := by
    refine @Grammar.Rightmost.step _ 0 _ _ [] [] _ hrule0 (by simp [Grammar.IsInput]) ?_
    exact @Grammar.Rightmost.step _ 1 _ _ [] [.endOfInput] _ hrule1
      (by simp [Grammar.IsInput, Symbol.isInput]) (.refl _)
  have hvalid : Item.ValidFor g [.nonterminal 2, .nonterminal 2, .nonterminal 1] ⟨1, 2⟩ :=
    ⟨_, [.nonterminal 2], [.terminal 0, .endOfInput], [0, 1], hrule1, by decide, rfl,
      by simp [Grammar.IsInput, Symbol.isInput], hderives⟩
  obtain ⟨dfa, after, hdfa, hwalks, honly⟩ :=
    viable_prefixes hread (ItemTable.valid_empty g .unbounded) rfl
  obtain ⟨s, hwalk, hitem⟩ := hwalks _ _ hvalid
  exact ⟨g, dfa, after, s, hread, hproductive, hdfa, hwalk, hitem, honly hproductive _ s hwalk⟩

end Dfa

end ShiftReduce
