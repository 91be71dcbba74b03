import ShiftReduce.Derivation
import ShiftReduce.Proofs.Grammar.WellFormed

/-!
# Derivations and parses

A derivation stays among the symbols of the grammar, and each symbol of a derived form is derived
further on its own. A parse takes a sentential form symbol by symbol, from left to right, and lists
the rules in the order in which they are completed. This is the order in which a shift-reduce
machine reduces, and the reverse of a rightmost derivation. Every derivation of an input has a
parse.
-/

namespace ShiftReduce.Grammar

/-- A sentential form derives an input, and the listed rules are completed in this order. -/
inductive Parse (g : Grammar) : List RuleId → List Symbol → List Symbol → Prop
  | nil : Parse g [] [] []
  | input {ids : List RuleId} {X : Symbol} {Xs u : List Symbol} : X.isInput = true →
      Parse g ids Xs u → Parse g ids (X :: Xs) (X :: u)
  | rule {ids ids' : List RuleId} {id : RuleId} {rule : Rule} {Xs u u' : List Symbol} :
      g.rules[id]? = some rule → Parse g ids rule.body u → Parse g ids' Xs u' →
      Parse g (ids ++ id :: ids') (.nonterminal rule.head :: Xs) (u ++ u')

variable {g : Grammar} {ids ids' : List RuleId} {id : RuleId} {rule : Rule}
  {Xs Ys u v : List Symbol}

/-- Derivations stay among the symbols of the grammar. -/
theorem Derives.mem_columns (h : g.Derives u v) (hg : g.CrossReferenced)
    (hu : ∀ X ∈ u, X ∈ g.columns) : ∀ X ∈ v, X ∈ g.columns := by
  induction h with
  | refl => exact hu
  | step hstep _ ih =>
    cases hstep with
    | replace before after hrule =>
      obtain ⟨hbefore, hafter⟩ := List.forall_mem_append.1 hu
      have hbody := List.forall_mem_append.2 ⟨hbefore, hg.body_columns hrule⟩
      exact ih (List.forall_mem_append.2 ⟨hbody, (List.forall_mem_cons.1 hafter).2⟩)

/-- A symbol of a derived form can be derived further. -/
theorem Derives.refine {before after left right : List Symbol} {X Y : Symbol}
    (h : g.Derives u (before ++ X :: after)) (hX : g.Derives [X] (left ++ Y :: right)) :
    g.Derives u (before ++ left ++ Y :: (right ++ after)) := by
  have hinner := (hX.append_right after).append_left before
  rw [List.append_assoc left, ← List.append_assoc before left] at hinner
  exact h.trans hinner

/-- The only symbol of a form stands alone. -/
theorem of_singleton_eq {before after : List Symbol} {X Y : Symbol}
    (h : [X] = before ++ Y :: after) : before = [] ∧ Y = X ∧ after = [] := by
  cases before with
  | nil =>
    obtain ⟨hX, hafter⟩ := List.cons.inj h
    exact ⟨rfl, hX.symm, hafter.symm⟩
  | cons Z before => simp at h

/-- An input symbol at the end of a form stays there. -/
theorem Derives.of_concat {X : Symbol} (h : g.Derives (u ++ [X]) v) (hX : X.isInput = true) :
    ∃ front, v = front ++ [X] ∧ g.Derives u front := by
  generalize hform : u ++ [X] = form at h
  induction h generalizing u with
  | refl => exact ⟨u, hform.symm, .refl u⟩
  | step hstep hlater ih =>
    cases hstep with
    | replace before after hrule =>
      rename_i id rule
      rcases List.eq_nil_or_concat after with rfl | ⟨rest, Y, rfl⟩
      · obtain ⟨-, hhead⟩ := List.append_inj' hform rfl
        obtain rfl := (List.cons.inj hhead).1
        exact absurd hX Bool.false_ne_true
      · rw [List.concat_eq_append, ← List.cons_append, ← List.append_assoc] at hform
        obtain ⟨rfl, hY⟩ := List.append_inj' hform rfl
        obtain rfl := (List.cons.inj hY).1
        obtain ⟨front, hfront, hderives⟩ := ih (u := before ++ rule.body ++ rest) (by simp)
        exact ⟨front, hfront, .step (.replace before rest hrule) hderives⟩

/-- The augmented start symbol derives itself and forms that end with the end of input. -/
theorem Derives.of_start (h : g.Derives [.nonterminal start] v) (hg : g.Linked) :
    v = [.nonterminal start] ∨
      ∃ front, v = front ++ [.endOfInput] ∧ g.Derives [.nonterminal sourceStart] front := by
  generalize hform : [Symbol.nonterminal start] = form at h
  cases h with
  | refl => exact .inl rfl
  | step hstep hrest =>
    cases hstep with
    | replace before after hrule =>
      obtain ⟨rfl, hhead, rfl⟩ := of_singleton_eq hform
      obtain rfl := hg.head_start hrule (Symbol.nonterminal.inj hhead)
      obtain rfl := Option.some.inj (hrule.symm.trans hg.augmented)
      rw [List.nil_append, List.append_nil] at hrest
      exact .inr (Derives.of_concat (u := [_]) hrest rfl)

/-- A symbol of a form that is made of three parts stands in one of them. -/
theorem occurrence_cases {before middle after left right : List Symbol} {X : Symbol}
    (h : before ++ middle ++ after = left ++ X :: right) :
    (∃ rest, before = left ++ X :: rest ∧ right = rest ++ middle ++ after) ∨
    (∃ front rest, middle = front ++ X :: rest ∧ left = before ++ front ∧ right = rest ++ after) ∨
    ∃ front, after = front ++ X :: right ∧ left = before ++ middle ++ front := by
  have htwo {xs ys zs zs' : List Symbol} (h : xs ++ ys = zs ++ X :: zs') :
      (∃ rest, xs = zs ++ X :: rest ∧ zs' = rest ++ ys) ∨
      ∃ front, ys = front ++ X :: zs' ∧ zs = xs ++ front := by
    rcases List.append_eq_append_iff.1 h with ⟨front, hzs, hys⟩ | ⟨rest, hxs, hzs'⟩
    · exact .inr ⟨front, hys, hzs⟩
    · cases rest with
      | nil => exact .inr ⟨[], by simpa using hzs'.symm, by simpa using hxs.symm⟩
      | cons Y rest =>
        obtain ⟨rfl, htail⟩ := List.cons.inj hzs'
        exact .inl ⟨rest, hxs, htail⟩
  rcases htwo h with ⟨rest, hfirst, hright⟩ | hlast
  · rcases htwo hfirst with ⟨rest', hbefore, hrest⟩ | ⟨front, hmiddle, hleft⟩
    · exact .inl ⟨rest', hbefore, by rw [hright, hrest]⟩
    · exact .inr (.inl ⟨front, rest, hmiddle, hleft, hright⟩)
  · exact .inr (.inr hlast)

/-- An input is its own parse. -/
theorem parse_of_isInput (hu : IsInput u) : g.Parse [] u u := by
  induction u with
  | nil => exact .nil
  | cons a u ih =>
    obtain ⟨ha, hu⟩ := List.forall_mem_cons.1 hu
    exact .input ha (ih hu)

namespace Parse

/-- What is parsed is an input. -/
theorem isInput (h : g.Parse ids Xs u) : IsInput u := by
  induction h with
  | nil => simp [IsInput]
  | input hX _ ih => exact List.forall_mem_cons.2 ⟨hX, ih⟩
  | rule _ _ _ ih ih' => exact List.forall_mem_append.2 ⟨ih, ih'⟩

/-- What is parsed has symbols of the grammar only. -/
theorem symbols_in (h : g.Parse ids Xs u) (hg : g.CrossReferenced) (hXs : ∀ X ∈ Xs, X.In g) :
    ∀ a ∈ u, a.In g := by
  induction h with
  | nil => simp
  | input _ _ ih =>
    obtain ⟨hX, hXs⟩ := List.forall_mem_cons.1 hXs
    exact List.forall_mem_cons.2 ⟨hX, ih hXs⟩
  | rule hrule _ _ ih ih' =>
    exact List.forall_mem_append.2 ⟨ih (hg.body_in hrule), ih' (List.forall_mem_cons.1 hXs).2⟩

/-- An input is parsed in one way only. -/
theorem eq_of_isInput (h : g.Parse ids Xs u) (hXs : IsInput Xs) : ids = [] ∧ u = Xs := by
  induction h with
  | nil => exact ⟨rfl, rfl⟩
  | input _ _ ih =>
    obtain ⟨rfl, rfl⟩ := ih (List.forall_mem_cons.1 hXs).2
    exact ⟨rfl, rfl⟩
  | rule _ _ _ _ _ => exact absurd (List.forall_mem_cons.1 hXs).1 Bool.false_ne_true

/-- The parses of two parts of a form are a parse of the form. -/
theorem append (h : g.Parse ids Xs u) (h' : g.Parse ids' Ys v) :
    g.Parse (ids ++ ids') (Xs ++ Ys) (u ++ v) := by
  induction h with
  | nil => exact h'
  | input hX _ ih => exact .input hX ih
  | rule hrule hbody _ _ ih =>
    rw [List.append_assoc, List.append_assoc]
    exact .rule hrule hbody ih

/-- The parse of a form is made of parses of its parts. -/
theorem split (h : g.Parse ids (Xs ++ Ys) u) :
    ∃ ids₁ ids₂ u₁ u₂, ids = ids₁ ++ ids₂ ∧ u = u₁ ++ u₂ ∧ g.Parse ids₁ Xs u₁ ∧
      g.Parse ids₂ Ys u₂ := by
  induction Xs generalizing ids u with
  | nil => exact ⟨[], ids, [], u, rfl, rfl, .nil, h⟩
  | cons X Xs ih =>
    cases h with
    | input hX hrest =>
      obtain ⟨ids₁, ids₂, u₁, u₂, rfl, rfl, h₁, h₂⟩ := ih hrest
      exact ⟨ids₁, ids₂, X :: u₁, u₂, rfl, rfl, .input hX h₁, h₂⟩
    | rule hrule hbody hrest =>
      obtain ⟨ids₁, ids₂, u₁, u₂, rfl, rfl, h₁, h₂⟩ := ih hrest
      exact ⟨_, ids₂, _, u₂, by simp, (List.append_assoc _ _ _).symm, .rule hrule hbody h₁, h₂⟩

/-- A parse before a derivation step. -/
theorem unstep {before after : List Symbol} (hrule : g.rules[id]? = some rule)
    (h : g.Parse ids (before ++ rule.body ++ after) u) :
    ∃ ids₁ ids₂ v, ids = ids₁ ++ ids₂ ∧ g.Parse ids₂ after v ∧
      g.Parse (ids₁ ++ id :: ids₂) (before ++ .nonterminal rule.head :: after) u := by
  obtain ⟨_, ids₃, _, u₃, rfl, rfl, h, hafter⟩ := h.split
  obtain ⟨ids₁, ids₂, u₁, u₂, rfl, rfl, hbefore, hbody⟩ := h.split
  refine ⟨ids₁ ++ ids₂, ids₃, u₃, rfl, hafter, ?_⟩
  rw [List.append_assoc, List.append_assoc]
  exact hbefore.append (.rule hrule hbody hafter)

/-- A rightmost derivation of an input is a parse in reverse. -/
theorem of_rightmost (h : g.Rightmost ids Xs u) (hu : IsInput u) : g.Parse ids.reverse Xs u := by
  induction h with
  | refl => exact parse_of_isInput hu
  | step hrule hafter _ ih =>
    obtain ⟨ids₁, ids₂, v, hids, hrest, hparse⟩ := (ih hu).unstep hrule
    obtain ⟨rfl, -⟩ := hrest.eq_of_isInput hafter
    rw [List.reverse_cons, hids, List.append_nil]
    exact hparse

/-- A parse in reverse is a rightmost derivation: the symbols on the right come first. -/
theorem rightmost (h : g.Parse ids Xs u) : g.Rightmost ids.reverse Xs u := by
  induction h with
  | nil => exact .refl []
  | input _ _ ih => exact ih.append_left [_]
  | rule hrule hbody hrest ih ih' =>
    rename_i ids ids' id rule Xs u u'
    have hafter : g.Rightmost ids'.reverse ([.nonterminal rule.head] ++ Xs)
        ([.nonterminal rule.head] ++ u') := ih'.append_left [.nonterminal rule.head]
    have hbefore : g.Rightmost (id :: ids.reverse) ([] ++ .nonterminal rule.head :: u')
        (u ++ u') := .step hrule hrest.isInput (ih.append_right hrest.isInput)
    have hids : (ids ++ id :: ids').reverse = ids'.reverse ++ id :: ids.reverse := by simp
    rw [hids]
    exact hafter.trans hbefore

/-- A parse is a derivation. -/
theorem derives (h : g.Parse ids Xs u) : g.Derives Xs u := h.rightmost.derives

/-- Every derivation of an input has a parse. -/
theorem exists_of_derives (h : g.Derives Xs u) (hu : IsInput u) : ∃ ids, g.Parse ids Xs u := by
  induction h with
  | refl => exact ⟨[], parse_of_isInput hu⟩
  | step hstep _ ih =>
    obtain ⟨ids, hparse⟩ := ih hu
    cases hstep with
    | replace before after hrule =>
      obtain ⟨_, _, _, -, -, hparse⟩ := hparse.unstep hrule
      exact ⟨_, hparse⟩

/-- A parse of the augmented start symbol ends with the augmented rule. -/
theorem of_start (h : g.Parse ids [.nonterminal start] u) (hg : g.Linked) :
    ∃ ids', ids = ids' ++ [augmentedRule] ∧
      g.Parse ids' [.nonterminal sourceStart, .endOfInput] u := by
  generalize hform : [Symbol.nonterminal start] = form at h
  cases h with
  | nil => cases hform
  | input hX _ =>
    obtain ⟨rfl, -⟩ := List.cons.inj hform
    exact absurd hX Bool.false_ne_true
  | rule hrule hbody hrest =>
    obtain ⟨hhead, rfl⟩ := List.cons.inj hform
    cases hrest
    obtain rfl := hg.head_start hrule (Symbol.nonterminal.inj hhead).symm
    obtain rfl := Option.some.inj (hrule.symm.trans hg.augmented)
    exact ⟨_, rfl, by simpa using hbody⟩

end Parse

end ShiftReduce.Grammar
