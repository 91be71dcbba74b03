import Mathlib.Order.BoundedOrder.Lattice
import Mathlib.Order.Nat
import ShiftReduce.Proofs.Requests

/-!
# Runs under bounds

A run under bounds is compared with the same run without bounds. As long as the bounds admit the
load of what was built, both runs are at the same point. The run under bounds stops where the load
would pass a bound, and because the load only grows, the result of the run without bounds, if it has
one, has a load past the same bound. The rules here follow the parts of a run: a check of a bound, a
step that does not depend on the bounds, a sequence of two steps, and a pass over a list.
-/

namespace ShiftReduce

/-- How many entries there are in each store. -/
abbrev Load := Store → Nat

/-- The load of a single store. -/
def Load.single (store : Store) (count : Nat) : Load :=
  fun other => if other = store then count else 0

/-- The load of a single store is in this store. -/
@[simp]
theorem Load.single_self (store : Store) (count : Nat) : Load.single store count store = count := by
  simp [Load.single]

/-- More entries are a larger load. -/
theorem Load.single_mono {store : Store} {count more : Nat} (h : count ≤ more) :
    Load.single store count ≤ Load.single store more := by
  intro other
  unfold Load.single
  split
  · exact h
  · exact Nat.le_refl 0

/-- Things that take room in stores. Some of them carry the bounds that they were built under. -/
class Charged (α : Type) where
  /-- The room that a thing takes. -/
  load : α → Load
  /-- The same thing, built under other bounds. -/
  under : Bounds → α → α
  load_under : ∀ bounds a, load (under bounds a) = load a := by intros; rfl
  under_under : ∀ bounds others a, under bounds (under others a) = under bounds a := by intros; rfl

namespace Charged

attribute [simp] load_under

/-- Things that take no room. -/
abbrev weightless (α : Type) : Charged α where
  load _ := ⊥
  under _ a := a

/-- A request for its effect has no result to charge for. -/
instance : Charged Unit := weightless Unit

/-- A number stands for an entry that is charged for where it is stored. -/
instance : Charged Nat := weightless Nat

/-- A symbol stands for an entry that is charged for in its grammar. -/
instance : Charged Symbol := weightless Symbol

/-- Two things are charged for together. -/
instance {α β : Type} [Charged α] [Charged β] : Charged (α × β) where
  load pair := load pair.1 ⊔ load pair.2
  under bounds pair := (under bounds pair.1, under bounds pair.2)
  load_under bounds pair := by rw [load_under, load_under]
  under_under bounds others pair := by rw [under_under, under_under]

/-- The result of a request for its effect takes no room. -/
@[simp]
theorem load_unit (u : Unit) : load u = ⊥ := rfl

/-- A number takes no room. -/
@[simp]
theorem load_nat (n : Nat) : load n = ⊥ := rfl

/-- A symbol takes no room. -/
@[simp]
theorem load_symbol (symbol : Symbol) : load symbol = ⊥ := rfl

/-- Two things take as much room as the larger one of them in each store. -/
@[simp]
theorem load_pair {α β : Type} [Charged α] [Charged β] (a : α) (b : β) :
    load (a, b) = load a ⊔ load b := rfl

end Charged

namespace Bounds

open Charged

/-- No store of a load is past its bound. -/
def Admits (bounds : Bounds) (load : Load) : Prop :=
  ∀ store bound, bounds.bound store = some bound → load store ≤ bound

/-- All bounds admit the empty load. -/
theorem admits_bot (bounds : Bounds) : bounds.Admits ⊥ :=
  fun _ _ _ => Nat.zero_le _

/-- Bounds that admit two loads admit them together. -/
theorem Admits.sup {bounds : Bounds} {load more : Load} (h : bounds.Admits load)
    (hmore : bounds.Admits more) : bounds.Admits (load ⊔ more) :=
  fun store bound hbound => Nat.max_le.2 ⟨h store bound hbound, hmore store bound hbound⟩

/-- Bounds that admit a load admit every smaller one. -/
theorem Admits.mono {bounds : Bounds} {load less : Load} (h : bounds.Admits load)
    (hless : less ≤ load) : bounds.Admits less :=
  fun store bound hbound => (hless store).trans (h store bound hbound)

/-- A check of a bound fails when more is needed. -/
theorem allow_eq_error {bounds : Bounds} {store : Store} {needed : Nat} {failure : Failure} :
    bounds.allow store needed = .error failure ↔
      ∃ bound, bounds.bound store = some bound ∧ bound < needed ∧ failure = .full store bound := by
  unfold allow
  cases bounds.bound store with
  | none => simp
  | some bound =>
    by_cases hlt : bound < needed
    · simp [hlt, eq_comm]
    · simp [hlt]

/-- What a check of a bound lets pass is admitted. -/
theorem admits_of_allow {bounds : Bounds} {store : Store} {needed : Nat} {u : Unit}
    (h : bounds.allow store needed = .ok u) : bounds.Admits (.single store needed) := by
  intro other bound hbound
  unfold Load.single
  split
  · rename_i heq
    subst heq
    by_contra hlt
    have herror := allow_eq_error.2 ⟨bound, hbound, Nat.lt_of_not_le hlt, rfl⟩
    rw [h] at herror
    cases herror
  · exact Nat.zero_le _

/-- How a run under bounds can end, compared with the run without bounds: with the same result, with
the same failure, or at a store whose bound is below the load of any result. -/
inductive Curtailed {α : Type} [Charged α] (bounds : Bounds) :
    Except Failure α → Except Failure α → Prop
  | ok {a : α} : bounds.Admits (load a) → Curtailed bounds (.ok a) (.ok (under bounds a))
  | error (failure : Failure) : Curtailed bounds (.error failure) (.error failure)
  | full {free : Except Failure α} {store : Store} {bound : Nat} :
      bounds.bound store = some bound → (∀ a, free = .ok a → bound < load a store) →
      Curtailed bounds free (.error (.full store bound))

/-- A run under bounds curtails the run without bounds, where `before` is the load that both start
from. -/
structure Curtails {α : Type} [Charged α] (bounds : Bounds) (before : Load)
    (free bounded : Except Failure α) : Prop where
  /-- The load only grows, and a result of the run without bounds carries no bounds. -/
  grows : ∀ a, free = .ok a → under .unbounded a = a ∧ before ≤ load a
  curtailed : bounds.Admits before → bounds.Curtailed free bounded

namespace Curtails

variable {α β γ : Type} [Charged α] [Charged β] {bounds : Bounds} {before base : Load}

/-- A run that ends with a result of the load that it started from. -/
theorem pure (a : α) (h : before = load a) :
    bounds.Curtails before (Pure.pure (under .unbounded a)) (Pure.pure (under bounds a)) where
  grows b hb := by
    obtain rfl := Except.ok.inj hb
    exact ⟨under_under _ _ _, by rw [h, load_under]⟩
  curtailed hadmits := by
    have hok : bounds.Admits (load (under .unbounded a)) := by rwa [load_under, ← h]
    have hcurtailed := Curtailed.ok hok
    rwa [under_under] at hcurtailed

/-- A result that carries no bounds. -/
theorem result {a : α} (h : before = load a)
    (hunder : ∀ others, under others a = a := by intros; rfl) :
    bounds.Curtails before (Pure.pure a) (Pure.pure a) := by
  have hpure : bounds.Curtails before _ _ := pure a h
  rwa [hunder, hunder] at hpure

/-- A run that does not depend on the bounds and takes no room. -/
theorem same {step : Except Failure α}
    (h : ∀ a, step = .ok a → before = load a ∧ ∀ others, under others a = a) :
    bounds.Curtails before step step where
  grows a ha := ⟨(h a ha).2 _, (h a ha).1.le⟩
  curtailed hadmits := by
    cases step with
    | error failure => exact .error failure
    | ok a =>
      obtain ⟨hload, hunder⟩ := h a rfl
      have hcurtailed : bounds.Curtailed (.ok a) (.ok (under bounds a)) := .ok (hload ▸ hadmits)
      rwa [hunder] at hcurtailed

/-- A run that fails fails under bounds too. -/
theorem error (failure : Failure) :
    bounds.Curtails before (Except.error failure : Except Failure α) (.error failure) where
  grows a ha := by cases ha
  curtailed _ := .error failure

/-- A check of a bound raises the load to what is checked. -/
theorem allow_bind {store : Store} {needed : Nat} {next next' : Unit → Except Failure α}
    (h : bounds.Curtails (before ⊔ .single store needed) (next ()) (next' ())) :
    bounds.Curtails before (Bounds.unbounded.allow store needed >>= next)
      (bounds.allow store needed >>= next') := by
  rw [allow_unbounded]
  refine ⟨fun a ha => ?_, fun hadmits => ?_⟩
  · obtain ⟨hunder, hle⟩ := h.grows a ha
    exact ⟨hunder, le_sup_left.trans hle⟩
  · cases hallow : bounds.allow store needed with
    | ok u => exact h.curtailed (hadmits.sup (admits_of_allow hallow))
    | error failure =>
      obtain ⟨bound, hbound, hlt, rfl⟩ := allow_eq_error.1 hallow
      refine .full hbound fun a ha => ?_
      have hneeded : needed ≤ load a store := by
        simpa using (le_sup_right.trans (h.grows a ha).2) store
      omega

/-- A step that does not depend on the bounds, and then the rest of the run. -/
theorem step_bind {step : Except Failure γ} {next next' : γ → Except Failure α}
    (h : ∀ c, step = .ok c → bounds.Curtails before (next c) (next' c)) :
    bounds.Curtails before (step >>= next) (step >>= next') := by
  cases step with
  | error failure => exact error failure
  | ok c => exact h c rfl

/-- A step that runs beside what was built before, and then the rest of the run. -/
theorem bind_beside {first first' : Except Failure α} {next next' : α → Except Failure β}
    (h : bounds.Curtails before first first')
    (hnext : ∀ a, bounds.Curtails (base ⊔ load a) (next (under .unbounded a))
      (next' (under bounds a))) :
    bounds.Curtails (base ⊔ before) (first >>= next) (first' >>= next') := by
  cases first with
  | error failure =>
    refine ⟨fun b hb => (by cases hb), fun hadmits => ?_⟩
    cases h.curtailed (hadmits.mono le_sup_right) with
    | error => exact .error failure
    | full hbound _ => exact .full hbound fun b hb => by cases hb
  | ok a =>
    obtain ⟨hunder, hle⟩ := h.grows a rfl
    have hrest := hnext a
    rw [hunder] at hrest
    have hgrows : ∀ b, (Except.ok a >>= next) = .ok b →
        under .unbounded b = b ∧ base ⊔ load a ≤ load b := hrest.grows
    refine ⟨fun b hb => ?_, fun hadmits => ?_⟩
    · obtain ⟨hfree, hlater⟩ := hgrows b hb
      exact ⟨hfree, (sup_le_sup_left hle base).trans hlater⟩
    · cases h.curtailed (hadmits.mono le_sup_right) with
      | ok hok => exact hrest.curtailed ((hadmits.mono le_sup_left).sup hok)
      | full hbound hlt =>
        refine .full hbound fun b hb => ?_
        have hlater : load a ≤ load b := le_sup_right.trans (hgrows b hb).2
        exact (hlt a rfl).trans_le (hlater _)

/-- A step and then the rest of the run. -/
theorem bind {first first' : Except Failure α} {next next' : α → Except Failure β}
    (h : bounds.Curtails before first first')
    (hnext : ∀ a, bounds.Curtails (load a) (next (under .unbounded a)) (next' (under bounds a))) :
    bounds.Curtails before (first >>= next) (first' >>= next') := by
  have hbeside : bounds.Curtails (⊥ ⊔ before) (first >>= next) (first' >>= next') :=
    h.bind_beside fun a => by rw [bot_sup_eq]; exact hnext a
  rwa [bot_sup_eq] at hbeside

/-- A pass over a list curtails if its steps do. -/
theorem foldlM {xs : List γ} {step step' : α → γ → Except Failure α}
    (hstep : ∀ x ∈ xs, ∀ a, bounds.Curtails (load a) (step (under .unbounded a) x)
      (step' (under bounds a) x)) (a : α) :
    bounds.Curtails (load a) (xs.foldlM step (under .unbounded a))
      (xs.foldlM step' (under bounds a)) := by
  induction xs generalizing a with
  | nil => exact pure a rfl
  | cons x xs ih =>
    rw [List.foldlM_cons, List.foldlM_cons]
    have hrest := ih fun y hy => hstep y (List.mem_cons_of_mem x hy)
    exact (hstep x List.mem_cons_self a).bind hrest

end Curtails

/-- A request under bounds curtails a request without bounds, when both start from a state that
differs in its bounds only. -/
def CurtailsFrom {σ α : Type} [Charged σ] [Charged α] (bounds : Bounds) (before : Load)
    (free bounded : EStateM Failure σ α) (state : σ) : Prop :=
  bounds.Curtails before (outcome (free (under .unbounded state)))
    (outcome (bounded (under bounds state)))

namespace CurtailsFrom

variable {σ α β γ : Type} [Charged σ] [Charged α] [Charged β] {bounds : Bounds}
  {before base : Load} {state : σ}

/-- A result that carries the bounds, from a state that does. -/
theorem pure (a : α) (h : before = load a ⊔ load state) :
    bounds.CurtailsFrom before (Pure.pure (under .unbounded a)) (Pure.pure (under bounds a))
      state :=
  Curtails.pure (a, state) h

/-- A result that carries no bounds. -/
theorem result {a : α} (h : before = load a ⊔ load state)
    (hunder : ∀ others, under others a = a := by intros; rfl) :
    bounds.CurtailsFrom before (Pure.pure a) (Pure.pure a) state := by
  have hpure : bounds.CurtailsFrom before _ _ state := pure a h
  rwa [hunder, hunder] at hpure

/-- A request that runs beside what was built before, and then the rest of the run. -/
theorem bind_beside {free bounded : EStateM Failure σ α} {next next' : α → EStateM Failure σ β}
    (h : bounds.CurtailsFrom before free bounded state)
    (hnext : ∀ a after, bounds.CurtailsFrom (base ⊔ (load a ⊔ load after))
      (next (under .unbounded a)) (next' (under bounds a)) after) :
    bounds.CurtailsFrom (base ⊔ before) (free >>= next) (bounded >>= next') state := by
  unfold CurtailsFrom
  rw [outcome_bind, outcome_bind]
  exact Curtails.bind_beside h fun reached => hnext reached.1 reached.2

/-- A request and then the rest of the run. -/
theorem bind {free bounded : EStateM Failure σ α} {next next' : α → EStateM Failure σ β}
    (h : bounds.CurtailsFrom before free bounded state)
    (hnext : ∀ a after, bounds.CurtailsFrom (load a ⊔ load after) (next (under .unbounded a))
      (next' (under bounds a)) after) :
    bounds.CurtailsFrom before (free >>= next) (bounded >>= next') state := by
  unfold CurtailsFrom
  rw [outcome_bind, outcome_bind]
  exact Curtails.bind h fun reached => hnext reached.1 reached.2

/-- A step that does not depend on the bounds, and then the rest of the run. -/
theorem step_bind {step : Except Failure γ} {next next' : γ → EStateM Failure σ α}
    (h : ∀ c, bounds.CurtailsFrom before (next c) (next' c) state) :
    bounds.CurtailsFrom before (liftStep step >>= next) (liftStep step >>= next') state := by
  unfold CurtailsFrom
  rw [outcome_liftStep_bind, outcome_liftStep_bind]
  exact Curtails.step_bind fun c _ => h c

/-- A check of a bound, and then the rest of the run. -/
theorem allow_bind {store : Store} {needed : Nat} {next next' : EStateM Failure σ α}
    (h : bounds.CurtailsFrom (before ⊔ .single store needed) next next' state) :
    bounds.CurtailsFrom before (liftStep (Bounds.unbounded.allow store needed) >>= fun _ => next)
      (liftStep (bounds.allow store needed) >>= fun _ => next') state := by
  unfold CurtailsFrom
  rw [outcome_liftStep_bind, outcome_liftStep_bind]
  exact Curtails.allow_bind h

/-- A step that takes room of its own, beside the state. -/
theorem lifted {step step' : Except Failure α} (h : bounds.Curtails before step step')
    (state : σ) :
    bounds.CurtailsFrom (before ⊔ load state) (liftStep step) (liftStep step') state := by
  have hlift (step : Except Failure α) (state : σ) :
      outcome (liftStep step state) = step >>= fun a => Pure.pure (a, state) := by
    cases step <;> rfl
  unfold CurtailsFrom
  rw [hlift, hlift, sup_comm]
  refine h.bind_beside fun a => ?_
  exact .pure (a, state) (by rw [load_pair, sup_comm])

/-- A pass over a list curtails if its steps do. -/
theorem foldlM {xs : List γ} {step step' : α → γ → EStateM Failure σ α}
    (hstep : ∀ x ∈ xs, ∀ a after, bounds.CurtailsFrom (load a ⊔ load after)
      (step (under .unbounded a) x) (step' (under bounds a) x) after) (a : α) (state : σ) :
    bounds.CurtailsFrom (load a ⊔ load state) (xs.foldlM step (under .unbounded a))
      (xs.foldlM step' (under bounds a)) state := by
  unfold CurtailsFrom
  rw [outcome_foldlM, outcome_foldlM]
  refine Curtails.foldlM (a := (a, state)) fun x hx reached => ?_
  exact hstep x hx reached.1 reached.2

/-- A pass over a list for its effect curtails if its steps do. -/
theorem forM {xs : List γ} {step step' : γ → EStateM Failure σ PUnit}
    (hstep : ∀ x ∈ xs, ∀ after, bounds.CurtailsFrom (load after) (step x) (step' x) after)
    (state : σ) :
    bounds.CurtailsFrom (load state) (xs.forM step) (xs.forM step') state := by
  unfold CurtailsFrom
  rw [outcome_forM, outcome_forM, ← bot_sup_eq (load state)]
  refine Curtails.foldlM (a := ((), state)) fun x hx reached => ?_
  rw [load_pair, load_unit, bot_sup_eq]
  exact hstep x hx reached.2

end CurtailsFrom

end Bounds

end ShiftReduce
