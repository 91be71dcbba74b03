import ShiftReduce.Grammar.Basic

/-!
# Derivations

A derivation step replaces a non-terminal of a sentential form by the body of one of its rules. In
a rightmost step only input symbols stand after the non-terminal, and the numbers of the rules used
say which derivation it is.
-/

namespace ShiftReduce.Grammar

/-- One derivation step. -/
inductive Step (g : Grammar) : List Symbol → List Symbol → Prop
  | replace {id : RuleId} {rule : Rule} (before after : List Symbol)
      (hrule : g.rules[id]? = some rule) :
      Step g (before ++ .nonterminal rule.head :: after) (before ++ rule.body ++ after)

/-- Any number of derivation steps. -/
inductive Derives (g : Grammar) : List Symbol → List Symbol → Prop
  | refl (form : List Symbol) : Derives g form form
  | step {u v w : List Symbol} : Step g u v → Derives g v w → Derives g u w

/-- Whether a string has only input symbols. -/
def IsInput (form : List Symbol) : Prop := ∀ symbol ∈ form, symbol.isInput = true

/-- Rightmost steps by the listed rules, in this order. -/
inductive Rightmost (g : Grammar) : List RuleId → List Symbol → List Symbol → Prop
  | refl (form : List Symbol) : Rightmost g [] form form
  | step {id : RuleId} {ids : List RuleId} {rule : Rule} {before after form : List Symbol} :
      g.rules[id]? = some rule → IsInput after →
      Rightmost g ids (before ++ rule.body ++ after) form →
      Rightmost g (id :: ids) (before ++ .nonterminal rule.head :: after) form

/-- Whether a non-terminal derives a string of input symbols. -/
def Productive (g : Grammar) (n : NonterminalId) : Prop :=
  ∃ u, IsInput u ∧ Derives g [.nonterminal n] u

/-- Whether every non-terminal derives a string of input symbols. -/
def AllProductive (g : Grammar) : Prop := ∀ n < g.nonterminals.size, g.Productive n

/-- Whether the augmented start symbol derives a form with a given non-terminal. -/
def Reachable (g : Grammar) (n : NonterminalId) : Prop :=
  ∃ before after, Derives g [.nonterminal start] (before ++ .nonterminal n :: after)

/-- Whether every non-terminal can be reached from the augmented start symbol. -/
def AllReachable (g : Grammar) : Prop := ∀ n < g.nonterminals.size, g.Reachable n

/-- Whether the augmented start symbol derives a string of input symbols. -/
def Sentence (g : Grammar) (u : List Symbol) : Prop :=
  IsInput u ∧ Derives g [.nonterminal start] u

variable {g : Grammar} {u v w : List Symbol}

/-- Derivations can be put one after the other. -/
theorem Derives.trans (huv : Derives g u v) (hvw : Derives g v w) : Derives g u w := by
  induction huv with
  | refl => exact hvw
  | step hstep _ ih => exact .step hstep (ih hvw)

/-- A step can be made after any string. -/
theorem Step.append_left (before : List Symbol) (h : Step g u v) :
    Step g (before ++ u) (before ++ v) := by
  cases h with
  | replace left right hrule =>
    simpa [List.append_assoc] using Step.replace (before ++ left) right hrule

/-- A step can be made before any string. -/
theorem Step.append_right (after : List Symbol) (h : Step g u v) :
    Step g (u ++ after) (v ++ after) := by
  cases h with
  | replace left right hrule =>
    simpa [List.append_assoc] using Step.replace left (right ++ after) hrule

/-- A derivation can be made after any string. -/
theorem Derives.append_left (before : List Symbol) (h : Derives g u v) :
    Derives g (before ++ u) (before ++ v) := by
  induction h with
  | refl => exact .refl _
  | step hstep _ ih => exact .step (hstep.append_left before) ih

/-- A derivation can be made before any string. -/
theorem Derives.append_right (after : List Symbol) (h : Derives g u v) :
    Derives g (u ++ after) (v ++ after) := by
  induction h with
  | refl => exact .refl _
  | step hstep _ ih => exact .step (hstep.append_right after) ih

/-- A rule is a derivation of its body. -/
theorem derives_of_rule {id : RuleId} {rule : Rule} (hrule : g.rules[id]? = some rule) :
    Derives g [.nonterminal rule.head] rule.body := by
  have hstep : Step g ([] ++ .nonterminal rule.head :: []) ([] ++ rule.body ++ []) :=
    .replace [] [] hrule
  rw [List.nil_append, List.nil_append, List.append_nil] at hstep
  exact .step hstep (.refl _)

namespace Rightmost

variable {ids ids' : List RuleId}

/-- A rightmost derivation is a derivation. -/
theorem derives (h : Rightmost g ids u v) : Derives g u v := by
  induction h with
  | refl => exact .refl _
  | step hrule _ _ ih => exact .step (.replace _ _ hrule) ih

/-- Rightmost derivations can be put one after the other, and so can their rules. -/
theorem trans (huv : Rightmost g ids u v) (hvw : Rightmost g ids' v w) :
    Rightmost g (ids ++ ids') u w := by
  induction huv with
  | refl => exact hvw
  | step hrule hafter _ ih => exact .step hrule hafter (ih hvw)

/-- Symbols before a form do not matter for its rightmost derivations. -/
theorem append_left (first : List Symbol) (h : Rightmost g ids u v) :
    Rightmost g ids (first ++ u) (first ++ v) := by
  induction h with
  | refl => exact .refl _
  | step hrule hafter _ ih =>
    rw [← List.append_assoc]
    refine .step hrule hafter ?_
    simpa only [List.append_assoc] using ih

/-- An input after a form does not matter for its rightmost derivations. -/
theorem append_right {last : List Symbol} (hlast : IsInput last) (h : Rightmost g ids u v) :
    Rightmost g ids (u ++ last) (v ++ last) := by
  induction h with
  | refl => exact .refl _
  | step hrule hafter _ ih =>
    rw [List.append_assoc, List.cons_append]
    refine .step hrule (List.forall_mem_append.2 ⟨hafter, hlast⟩) ?_
    simpa only [List.append_assoc] using ih

end Rightmost

end ShiftReduce.Grammar
