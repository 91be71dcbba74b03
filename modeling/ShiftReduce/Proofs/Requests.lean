import ShiftReduce.Failure

/-!
# What requests ensure

Requests run in a state, may change it and may fail, and a failed request keeps what it changed.
A request is described by what it ensures in both cases. The rules here follow the parts of a
request: a sequence of two requests, a pure value, and a pass over a list.
-/

namespace ShiftReduce

/-- Two steps that may fail succeed together if each of them does. -/
theorem bind_eq_ok {α β : Type} {first : Except Failure α} {next : α → Except Failure β} {b : β} :
    (first >>= next) = .ok b ↔ ∃ a, first = .ok a ∧ next a = .ok b := by
  cases first with
  | error failure => simp [Bind.bind, Except.bind]
  | ok a => simp [Bind.bind, Except.bind]

/-- A step that has a result succeeds. -/
theorem eq_ok_of_toOption {α : Type} {step : Except Failure α} {a : α}
    (h : step.toOption = some a) : step = .ok a := by
  cases step with
  | error failure => cases h
  | ok b => exact congrArg _ (Option.some.inj h)

/-- A pass over a list succeeds if all its steps do, and keeps an invariant about the elements
visited so far. -/
theorem foldlM_ok {α β : Type} {xs : List β} {step : α → β → Except Failure α}
    (inv : List β → α → Prop) {a : α}
    (hstep : ∀ done x rest a, xs = done ++ x :: rest → inv done a →
      ∃ b, step a x = .ok b ∧ inv (done ++ [x]) b)
    (hstart : inv [] a) : ∃ b, xs.foldlM step a = .ok b ∧ inv xs b := by
  have hrest : ∀ rest done a, xs = done ++ rest → inv done a →
      ∃ b, rest.foldlM step a = .ok b ∧ inv xs b := by
    intro rest
    induction rest with
    | nil =>
      intro done a hxs hinv
      rw [List.append_nil] at hxs
      exact ⟨a, rfl, hxs ▸ hinv⟩
    | cons x rest ih =>
      intro done a hxs hinv
      obtain ⟨b, hb, hinvb⟩ := hstep done x rest a hxs hinv
      rw [List.foldlM_cons, hb]
      exact ih (done ++ [x]) b (by rw [hxs, List.append_assoc]; rfl) hinvb
  exact hrest xs [] a rfl hstart

/-- A pass over a list that only lets something grow has in the end what each step gives, because
later steps take nothing away. -/
theorem foldlM_collects {α β : Type} {xs : List β} {step : α → β → Except Failure α}
    (inv : α → Prop) (grows : α → α → Prop) (gives : β → α → Prop) {a : α} (hinv : inv a)
    (hrefl : grows a a) (htrans : ∀ {a b c}, grows a b → grows b c → grows a c)
    (hkeeps : ∀ {x b c}, grows b c → gives x b → gives x c)
    (hstep : ∀ x ∈ xs, ∀ b, inv b → grows a b →
      ∃ c, step b x = .ok c ∧ inv c ∧ grows b c ∧ gives x c) :
    ∃ b, xs.foldlM step a = .ok b ∧ inv b ∧ grows a b ∧ ∀ x ∈ xs, gives x b := by
  refine foldlM_ok (fun done b => inv b ∧ grows a b ∧ ∀ x ∈ done, gives x b) ?_
    ⟨hinv, hrefl, by simp⟩
  rintro done x rest b hsplit ⟨hb, hgrows, hdone⟩
  obtain ⟨c, hc, hinv, hlater, hgives⟩ := hstep x (by simp [hsplit]) b hb hgrows
  refine ⟨c, hc, hinv, htrans hgrows hlater, fun y hy => ?_⟩
  rcases List.mem_append.1 hy with hy | hy
  · exact hkeeps hlater (hdone y hy)
  · rw [List.mem_singleton.1 hy]
    exact hgives

/-- A pass over a list keeps what every step keeps. -/
theorem foldlM_keeps {α β : Type} {xs : List β} {step : α → β → Except Failure α}
    (inv : α → Prop) {a b : α} (hstep : ∀ x ∈ xs, ∀ a b, inv a → step a x = .ok b → inv b)
    (ha : inv a) (h : xs.foldlM step a = .ok b) : inv b := by
  induction xs generalizing a with
  | nil =>
    obtain rfl := Except.ok.inj h
    exact ha
  | cons x xs ih =>
    rw [List.foldlM_cons] at h
    obtain ⟨c, hc, hrest⟩ := bind_eq_ok.1 h
    have hinv : inv c := hstep x List.mem_cons_self a c ha hc
    exact ih (fun y hy => hstep y (List.mem_cons_of_mem x hy)) hinv hrest

/-- Passes with the same steps have the same result. -/
theorem foldlM_congr {α β : Type} {xs : List β} {step step' : α → β → Except Failure α}
    (h : ∀ x ∈ xs, ∀ a, step a x = step' a x) (a : α) : xs.foldlM step a = xs.foldlM step' a := by
  induction xs generalizing a with
  | nil => rfl
  | cons x xs ih =>
    rw [List.foldlM_cons, List.foldlM_cons, h x List.mem_cons_self a]
    exact congrArg _ (funext fun b => ih (fun y hy => h y (List.mem_cons_of_mem x hy)) b)

/-- How a request ended: with a result and the state it left, or with a failure. -/
def outcome {σ α : Type} : EStateM.Result Failure σ α → Except Failure (α × σ)
  | .ok a after => .ok (a, after)
  | .error failure _ => .error failure

/-- The outcome of a request has a result if the request has it. -/
@[simp]
theorem outcome_eq_ok {σ α : Type} {result : EStateM.Result Failure σ α} {a : α} {after : σ} :
    outcome result = .ok (a, after) ↔ result = .ok a after := by
  cases result <;> simp [outcome]

/-- A sequence of two requests ends as the second one does from where the first one ended. -/
theorem outcome_bind {σ α β : Type} (request : EStateM Failure σ α)
    (next : α → EStateM Failure σ β) (state : σ) :
    outcome ((request >>= next) state) =
      outcome (request state) >>= fun reached => outcome (next reached.1 reached.2) := by
  simp only [Bind.bind, EStateM.bind]
  cases request state <;> rfl

/-- A lifted step ends as the step does, and leaves the state to what follows. -/
theorem outcome_liftStep_bind {σ α β : Type} (step : Except Failure α)
    (next : α → EStateM Failure σ β) (state : σ) :
    outcome ((liftStep step >>= next) state) = step >>= fun a => outcome (next a state) := by
  cases step <;> rfl

/-- A request that looks at the state first goes on with the state. -/
theorem get_bind_run {σ α : Type} (next : σ → EStateM Failure σ α) (state : σ) :
    (get >>= next) state = next state state := rfl

/-- A pass over a list ends as the pass over its outcomes does. -/
theorem outcome_foldlM {σ α β : Type} (step : α → β → EStateM Failure σ α) (xs : List β) (a : α)
    (state : σ) :
    outcome (xs.foldlM step a state) =
      xs.foldlM (fun reached x => outcome (step reached.1 x reached.2)) (a, state) := by
  induction xs generalizing a state with
  | nil => rfl
  | cons x xs ih =>
    rw [List.foldlM_cons, List.foldlM_cons, outcome_bind]
    exact congrArg _ (funext fun reached => ih reached.1 reached.2)

/-- A pass over a list for its effect ends as the pass over its outcomes does. -/
theorem outcome_forM {σ β : Type} (step : β → EStateM Failure σ PUnit) (xs : List β) (state : σ) :
    outcome (xs.forM step state) =
      xs.foldlM (fun reached x => outcome (step x reached.2)) (PUnit.unit, state) := by
  induction xs generalizing state with
  | nil => rfl
  | cons x xs ih =>
    rw [List.forM, List.foldlM_cons, outcome_bind]
    exact congrArg _ (funext fun reached => ih reached.2)

/-- A request ensures `good` of its result and of the state it leaves if it succeeds, and `bad` of
its failure and of the state it leaves otherwise. -/
def Ensures {σ α : Type} (request : EStateM Failure σ α) (state : σ) (good : α → σ → Prop)
    (bad : Failure → σ → Prop) : Prop :=
  match request state with
  | .ok a after => good a after
  | .error failure after => bad failure after

namespace Ensures

variable {σ α β : Type} {request : EStateM Failure σ α} {state after : σ}
  {good good' : α → σ → Prop} {bad bad' : Failure → σ → Prop}

/-- What a successful request has ensured. -/
theorem of_ok {a : α} (h : Ensures request state good bad) (hok : request state = .ok a after) :
    good a after := by
  simpa only [Ensures, hok] using h

/-- A request that cannot fail has a result. -/
theorem exists_ok (h : Ensures request state good bad)
    (hbad : ∀ failure after, ¬ bad failure after) :
    ∃ a after, request state = .ok a after ∧ good a after := by
  cases hrun : request state with
  | ok a after => exact ⟨a, after, rfl, h.of_ok hrun⟩
  | error failure after =>
    simp only [Ensures, hrun] at h
    exact absurd h (hbad failure after)

/-- A request ensures everything that follows from what it ensures. -/
theorem mono (h : Ensures request state good bad) (hgood : ∀ a after, good a after → good' a after)
    (hbad : ∀ failure after, bad failure after → bad' failure after) :
    Ensures request state good' bad' := by
  unfold Ensures at h ⊢
  cases hrun : request state with
  | ok a after =>
    simp only [hrun] at h
    exact hgood a after h
  | error failure after =>
    simp only [hrun] at h
    exact hbad failure after h

/-- A request ensures what two descriptions of it say together. -/
theorem and (h : Ensures request state good bad) (h' : Ensures request state good' bad') :
    Ensures request state (fun a after => good a after ∧ good' a after)
      (fun failure after => bad failure after ∧ bad' failure after) := by
  unfold Ensures at h h' ⊢
  cases hrun : request state with
  | ok a after =>
    simp only [hrun] at h h'
    exact ⟨h, h'⟩
  | error failure after =>
    simp only [hrun] at h h'
    exact ⟨h, h'⟩

/-- Every request ensures what is always true. -/
theorem trivial (request : EStateM Failure σ α) (state : σ) :
    Ensures request state (fun _ _ => True) (fun _ _ => True) := by
  unfold Ensures
  split <;> exact True.intro

/-- A request that changes nothing and cannot fail. -/
theorem pure {a : α} (h : good a state) : Ensures (Pure.pure a) state good bad := h

/-- A lifted step has the result or the failure of the step and leaves the state as it is. -/
theorem lifted (step : Except Failure α) (state : σ) :
    Ensures (liftStep step) state (fun a after => step = .ok a ∧ after = state)
      (fun failure after => step = .error failure ∧ after = state) := by
  cases step with
  | error failure => exact ⟨rfl, rfl⟩
  | ok a => exact ⟨rfl, rfl⟩

/-- A request and one that goes on with its result. -/
theorem bind {next : α → EStateM Failure σ β} {final : β → σ → Prop}
    (h : Ensures request state good bad)
    (hnext : ∀ a after, good a after → Ensures (next a) after final bad) :
    Ensures (request >>= next) state final bad := by
  unfold Ensures at h ⊢
  simp only [Bind.bind, EStateM.bind]
  cases hrun : request state with
  | ok a after =>
    simp only [hrun] at h
    exact hnext a after h
  | error failure after =>
    simp only [hrun] at h
    exact h

/-- A pass over a list keeps an invariant that speaks about the elements visited so far. -/
theorem foldlM {xs : List β} {step : α → β → EStateM Failure σ α}
    (inv : List β → α → σ → Prop) {a : α}
    (hstep : ∀ done x rest a state, xs = done ++ x :: rest → inv done a state →
      Ensures (step a x) state (inv (done ++ [x])) bad)
    (hstart : inv [] a state) : Ensures (xs.foldlM step a) state (inv xs) bad := by
  have hrest : ∀ rest done a state, xs = done ++ rest → inv done a state →
      Ensures (rest.foldlM step a) state (inv xs) bad := by
    intro rest
    induction rest with
    | nil =>
      intro done a state hxs hinv
      rw [List.append_nil] at hxs
      rw [List.foldlM_nil, hxs]
      exact pure hinv
    | cons x rest ih =>
      intro done a state hxs hinv
      rw [List.foldlM_cons]
      refine (hstep done x rest a state hxs hinv).bind fun a after hafter => ?_
      exact ih (done ++ [x]) a after (by rw [hxs, List.append_assoc]; rfl) hafter
  exact hrest xs [] a state rfl hstart

/-- A pass over a list for its effect keeps an invariant about the elements visited so far. -/
theorem forM {xs : List β} {step : β → EStateM Failure σ PUnit} (inv : List β → σ → Prop)
    (hstep : ∀ done x rest state, xs = done ++ x :: rest → inv done state →
      Ensures (step x) state (fun _ => inv (done ++ [x])) bad)
    (hstart : inv [] state) : Ensures (xs.forM step) state (fun _ => inv xs) bad := by
  have hrest : ∀ rest done state, xs = done ++ rest → inv done state →
      Ensures (rest.forM step) state (fun _ => inv xs) bad := by
    intro rest
    induction rest with
    | nil =>
      intro done state hxs hinv
      rw [List.append_nil] at hxs
      rw [List.forM, hxs]
      exact pure hinv
    | cons x rest ih =>
      intro done state hxs hinv
      rw [List.forM]
      refine (hstep done x rest state hxs hinv).bind fun _ after hafter => ?_
      exact ih (done ++ [x]) after (by rw [hxs, List.append_assoc]; rfl) hafter
  exact hrest xs [] state rfl hstart

end Ensures

/-- A look-up finds the entries of a store. -/
theorem entry_eq_ok {α : Type} {store : Array α} {id : Nat} {a : α} :
    entry store id = .ok a ↔ store[id]? = some a := by
  unfold entry
  cases store[id]? <;> simp

/-- The entries of a store can be changed. -/
theorem update_eq_ok {α : Type} {store after : Array α} {id : Nat} {change : α → α} :
    update store id change = .ok after ↔ id < store.size ∧ store.modify id change = after := by
  unfold update
  split <;> simp [*]

/-- A store keeps its entries when one is added. -/
theorem getElem?_push_of_eq_some {α : Type} {store : Array α} {id : Nat} {a new : α}
    (h : store[id]? = some a) : (store.push new)[id]? = some a := by
  obtain ⟨hid, rfl⟩ := Array.getElem?_eq_some_iff.1 h
  exact Array.getElem?_push_lt hid

/-- No store has a bound if there are none. -/
@[simp]
theorem Bounds.bound_unbounded (store : Store) : Bounds.unbounded.bound store = none := by
  cases store <;> rfl

/-- Without bounds there is always room. -/
@[simp]
theorem Bounds.allow_unbounded (store : Store) (needed : Nat) :
    Bounds.unbounded.allow store needed = .ok () := by
  simp [Bounds.allow]

/-- The failure of a store that would grow past one of the given bounds. -/
def Bounds.Refuses (bounds : Bounds) (failure : Failure) : Prop :=
  ∃ store bound, bounds.bound store = some bound ∧ failure = .full store bound

/-- Without bounds no store is refused room. -/
theorem Bounds.not_refuses_unbounded (failure : Failure) :
    ¬ Bounds.unbounded.Refuses failure := by
  rintro ⟨store, bound, hbound, -⟩
  simp at hbound

/-- A store that is refused room is refused it by its bound. -/
theorem Bounds.refuses_of_allow {bounds : Bounds} {store : Store} {needed : Nat}
    {failure : Failure} (h : bounds.allow store needed = .error failure) :
    bounds.Refuses failure := by
  unfold Bounds.allow at h
  cases hbound : bounds.bound store with
  | none => simp [hbound] at h
  | some bound =>
    simp only [hbound] at h
    split at h
    · exact ⟨store, bound, hbound, by simpa using h.symm⟩
    · simp at h

end ShiftReduce
