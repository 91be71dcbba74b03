import ShiftReduce.Proofs.SetFamily

/-!
# The history of a family of sets

A family is asked for one thing after the other, and the requests name its sets in any order. What a
set holds and what requests about it are answered with depends only on the requests that name the
set. If an element is only put into a set that does not have it, the requests and their replies tell
everything about the set: what it holds, in which order, and how many elements these are.
-/

namespace ShiftReduce

namespace SetFamily

variable {α : Type}

/-- A request and what it was answered with. -/
structure Event (α : Type) where
  request : Request α
  reply : Reply α
  deriving DecidableEq

namespace Event

/-- The request names the set. -/
def names (n : Nat) (event : Event α) : Bool := event.request.set? == some n

/-- The set is cleared. -/
def clears (n : Nat) (event : Event α) : Bool :=
  event.names n && match event with
    | ⟨.clear _, _⟩ => true
    | _ => false

/-- An element is put into the set. -/
def grows (n : Nat) (event : Event α) : Bool :=
  event.names n && match event with
    | ⟨.insert .., .truth grew⟩ => grew
    | _ => false

/-- An element is taken out of the set. -/
def shrinks (n : Nat) (event : Event α) : Bool :=
  event.names n && match event with
    | ⟨.erase .., .truth shrank⟩ => shrank
    | _ => false

variable [BEq α]

/-- The given element is put into the set. -/
def adds (n : Nat) (x : α) (event : Event α) : Bool :=
  event.names n && match event with
    | ⟨.insert _ y _, .truth grew⟩ => y == x && grew
    | _ => false

/-- The set is asked to remove the given element, whether it has it or not. -/
def erases (n : Nat) (x : α) (event : Event α) : Bool :=
  event.names n && match event with
    | ⟨.erase _ y, _⟩ => y == x
    | _ => false

end Event

/-- The number of events up to the last one with a property, which is zero if none has it. -/
def latest (p : Event α → Bool) (events : List (Event α)) : Nat :=
  events.length - events.reverse.findIdx p

/-- The last event with a property is one of the events. -/
theorem latest_le (p : Event α → Bool) (events : List (Event α)) :
    latest p events ≤ events.length :=
  Nat.sub_le _ _

/-- One more event is the last one with a property if it has the property. -/
theorem latest_concat (p : Event α → Bool) (events : List (Event α)) (event : Event α) :
    latest p (events ++ [event]) = if p event then events.length + 1 else latest p events := by
  simp only [latest, List.reverse_concat, List.findIdx_cons, List.length_append,
    List.length_singleton]
  cases p event with
  | true => rfl
  | false => exact Nat.add_sub_add_right _ _ _

/-- The events after the last one that clears a set. -/
def sinceClear (n : Nat) (events : List (Event α)) : List (Event α) :=
  events.drop (latest (Event.clears n) events)

/-- One more event comes after the last one that clears a set, unless it clears the set itself. -/
theorem sinceClear_concat (n : Nat) (events : List (Event α)) (event : Event α) :
    sinceClear n (events ++ [event]) =
      if event.clears n then [] else sinceClear n events ++ [event] := by
  unfold sinceClear
  rw [latest_concat]
  split
  · simp
  · exact List.drop_append_of_le_length (latest_le _ _)

/-- One more event is counted since a set was last cleared, unless it clears the set itself. -/
theorem countP_sinceClear_concat {n : Nat} (p : Event α → Bool) (events : List (Event α))
    {event : Event α} (hclears : event.clears n = false) :
    (sinceClear n (events ++ [event])).countP p =
      (sinceClear n events).countP p + (p event).toNat := by
  rw [sinceClear_concat, hclears, if_neg Bool.false_ne_true, List.countP_append,
    List.countP_singleton]
  cases p event <;> rfl

/-- A new set is empty, as it was before there was a set with its number. -/
theorem elements_newSet (family : SetFamily α) (n : Nat) :
    family.newSet.elements n = family.elements n := by
  simp only [newSet, elements, Array.getD_eq_getD_getElem?, Array.getElem?_push]
  split
  · rename_i heq
    simp [heq]
  · rfl

variable [BEq α]

section Requests

variable {family : SetFamily α} {request : Request α} {n : Nat}

/-- A request leaves the sets that it does not name as they are. -/
theorem elements_answer_of_ne (hlegal : ∀ m ∈ request.set?, m < family.size)
    (hne : request.set? ≠ some n) : (family.answer request).2.elements n = family.elements n := by
  cases request with
  | newSet => exact elements_newSet family n
  | insert m x unique =>
    have hm : n ≠ m := fun heq => hne (congrArg some heq.symm)
    simp only [answer]
    split
    · rfl
    · exact (elements_modify _ (hlegal m rfl)).trans (if_neg hm)
  | erase m x =>
    have hm : n ≠ m := fun heq => hne (congrArg some heq.symm)
    exact (elements_modify _ (hlegal m rfl)).trans (if_neg hm)
  | contains m x => rfl
  | count m => rfl
  | clear m =>
    have hm : n ≠ m := fun heq => hne (congrArg some heq.symm)
    exact (elements_modify _ (hlegal m rfl)).trans (if_neg hm)
  | read m index => rfl

/-- What a request makes of the elements of the set that it names, and what it is answered with. -/
def Request.act (xs : List α) : Request α → Reply α × List α
  | .newSet => (.done, xs)
  | .insert _ x unique =>
    if unique && xs.contains x then (.truth false, xs) else (.truth true, xs ++ [x])
  | .erase _ x => (.truth (xs.contains x), xs.filter fun y => !(y == x))
  | .contains _ x => (.truth (xs.contains x), xs)
  | .count _ => (.size xs.length, xs)
  | .clear _ => (.done, [])
  | .read _ index => (.element xs[index]?, xs)

/-- A request reads and changes nothing but the set that it names. -/
theorem answer_eq_act (hn : n < family.size) (hset : request.set? = some n) :
    (family.answer request).1 = (request.act (family.elements n)).1 ∧
      (family.answer request).2.elements n = (request.act (family.elements n)).2 := by
  cases request with
  | newSet => cases hset
  | insert m x unique =>
    obtain rfl := Option.some.inj hset
    by_cases hold : (unique && family.contains m x) = true
    · have hanswer : family.answer (.insert m x unique) = (.truth false, family) := if_pos hold
      have hact : (Request.insert m x unique).act (family.elements m) =
          (.truth false, family.elements m) := if_pos hold
      rw [hanswer, hact]
      exact ⟨rfl, rfl⟩
    · have hanswer : family.answer (.insert m x unique) = (.truth true, family.append m x) :=
        if_neg hold
      have hact : (Request.insert m x unique).act (family.elements m) =
          (.truth true, family.elements m ++ [x]) := if_neg hold
      rw [hanswer, hact]
      exact ⟨rfl, (elements_modify _ hn).trans (if_pos rfl)⟩
  | erase m x =>
    obtain rfl := Option.some.inj hset
    exact ⟨rfl, (elements_modify _ hn).trans (if_pos rfl)⟩
  | contains m x =>
    obtain rfl := Option.some.inj hset
    exact ⟨rfl, rfl⟩
  | count m =>
    obtain rfl := Option.some.inj hset
    exact ⟨rfl, rfl⟩
  | clear m =>
    obtain rfl := Option.some.inj hset
    exact ⟨rfl, (elements_modify _ hn).trans (if_pos rfl)⟩
  | read m index =>
    obtain rfl := Option.some.inj hset
    exact ⟨rfl, rfl⟩

end Requests

/-- The events of a family that had no sets at first. A request names only sets that exist at the
time. -/
inductive History : List (Event α) → SetFamily α → Prop
  | start : History [] empty
  | ask {events : List (Event α)} {family : SetFamily α} (h : History events family)
      (request : Request α) (hlegal : ∀ n ∈ request.set?, n < family.size) :
      History (events ++ [⟨request, (family.answer request).1⟩]) (family.answer request).2

section Independence

variable {events : List (Event α)} {family : SetFamily α} {n : Nat}

/-- The events of one set. -/
def eventsOf (n : Nat) (events : List (Event α)) : List (Event α) := events.filter (Event.names n)

/-- Requests about a single set that is empty at first: their events and the elements in the end. -/
def replay (requests : List (Request α)) : List (Event α) × List α :=
  requests.foldl (fun (events, xs) request =>
    (events ++ [⟨request, (request.act xs).1⟩], (request.act xs).2)) ([], [])

/-- Among the requests to a family, those about one set go as if there were no others. -/
theorem History.replay_eq (h : History events family) (n : Nat) :
    replay ((eventsOf n events).map Event.request) = (eventsOf n events, family.elements n) := by
  induction h with
  | start => rfl
  | @ask events family h request hlegal ih =>
    by_cases hset : request.set? = some n
    · obtain ⟨hreply, helements⟩ := answer_eq_act (hlegal n hset) hset
      have hevents : eventsOf n (events ++ [⟨request, (family.answer request).1⟩]) =
          eventsOf n events ++ [⟨request, (family.answer request).1⟩] := by
        simp [eventsOf, Event.names, hset]
      rw [hevents, List.map_append, List.map_singleton, replay, List.foldl_concat, ← replay, ih,
        helements, hreply]
    · have hevents : eventsOf n (events ++ [⟨request, (family.answer request).1⟩]) =
          eventsOf n events := by
        simp [eventsOf, Event.names, hset]
      rw [hevents, ih, elements_answer_of_ne hlegal hset]

end Independence

/-- What the events tell about a set into which no element was put twice. -/
structure Records (n : Nat) (events : List (Event α)) (family : SetFamily α) : Prop where
  /-- No two elements are equal. -/
  distinct : (family.elements n).Pairwise fun x y => (x == y) = false
  /-- Elements stand in the order in which they were last put into the set. -/
  ordered : (family.elements n).Pairwise fun x y =>
    latest (Event.adds n x) events < latest (Event.adds n y) events
  /-- An element is in the set if it was put into it after it was last removed, and after the set
  was last cleared. -/
  contains_iff : ∀ x, family.contains n x = true ↔
    latest (Event.erases n x) events < latest (Event.adds n x) events ∧
      latest (Event.clears n) events < latest (Event.adds n x) events
  /-- Since the set was last cleared, its elements were put into it, and so were those that were
  taken out of it. -/
  count_eq : family.count n + (sinceClear n events).countP (Event.shrinks n) =
    (sinceClear n events).countP (Event.grows n)

/-- The event tells nothing about the set. -/
structure Event.Quiet (n : Nat) (event : Event α) : Prop where
  adds : ∀ x, event.adds n x = false
  erases : ∀ x, event.erases n x = false
  clears : event.clears n = false
  grows : event.grows n = false
  shrinks : event.shrinks n = false

/-- A request tells nothing about the sets that it does not name. -/
theorem Event.quiet_of_ne {n : Nat} {event : Event α} (hne : event.request.set? ≠ some n) :
    event.Quiet n := by
  have hnames : event.names n = false := by simpa [names] using hne
  constructor <;> simp [Event.adds, Event.erases, Event.clears, Event.grows, Event.shrinks, hnames]

/-- What is left after a removal. -/
theorem contains_filter_beq [EquivBEq α] (xs : List α) (x y : α) :
    (xs.filter fun z => !(z == x)).contains y = (xs.contains y && !(x == y)) := by
  have hkeeps (z : α) : (y == z && !(z == x)) = (y == z && !(x == y)) := by
    cases hyz : y == z with
    | false => rfl
    | true => rw [← BEq.congr_left hyz, BEq.comm]
  rw [List.contains_filter, List.any_congr rfl hkeeps, ← List.and_any_distrib_right,
    List.contains_eq_any_beq]

/-- At most one of several distinct elements is equal to a given one. -/
theorem length_filter_of_distinct [EquivBEq α] {xs : List α}
    (h : xs.Pairwise fun y z => (y == z) = false) (x : α) :
    (xs.filter fun y => !(y == x)).length + (xs.contains x).toNat = xs.length := by
  induction xs with
  | nil => rfl
  | cons y ys ih =>
    obtain ⟨hy, hys⟩ := List.pairwise_cons.1 h
    have hrest := ih hys
    -- If the first element is removed, it is the only one, since it is equal to no other.
    cases hyx : y == x with
    | false =>
      have hxy : (x == y) = false := BEq.comm.trans hyx
      simp only [List.filter_cons, List.contains_cons, hyx, hxy, Bool.not_false, if_true,
        Bool.false_or, List.length_cons]
      omega
    | true =>
      have hxy : (x == y) = true := BEq.symm hyx
      have hgone : ys.contains x = false := by
        rw [List.contains_congr hxy]
        simpa [List.contains_eq_any_beq] using hy
      simp only [List.filter_cons, List.contains_cons, hyx, hxy, Bool.not_true, Bool.true_or,
        List.length_cons, hgone] at hrest ⊢
      exact congrArg (· + 1) hrest

namespace Records

variable {events : List (Event α)} {event : Event α} {family after : SetFamily α} {n : Nat} {x : α}

/-- Nothing is recorded at first, and all sets are empty. -/
theorem start (n : Nat) : Records n [] (empty : SetFamily α) := by
  constructor <;> simp [empty, elements, contains, count, latest, sinceClear]

/-- An event that tells nothing about a set and leaves it as it is. -/
theorem quiet (h : Records n events family) (hquiet : event.Quiet n)
    (hsame : after.elements n = family.elements n) : Records n (events ++ [event]) after := by
  refine ⟨?_, ?_, fun x => ?_, ?_⟩
  · rw [hsame]
    exact h.distinct
  · simp only [hsame, latest_concat, hquiet.adds]
    exact h.ordered
  · simp only [contains, hsame, latest_concat, hquiet.adds, hquiet.erases, hquiet.clears]
    exact h.contains_iff x
  · rw [count, hsame, countP_sinceClear_concat _ _ hquiet.clears,
      countP_sinceClear_concat _ _ hquiet.clears, hquiet.grows, hquiet.shrinks]
    exact h.count_eq

/-- Nothing is left of a set that is cleared. -/
theorem clear (helements : after.elements n = []) :
    Records n (events ++ [⟨.clear n, .done⟩]) after := by
  have hclears : Event.clears n (⟨.clear n, .done⟩ : Event α) = true := by
    simp [Event.clears, Event.names, Request.set?]
  refine ⟨by simp [helements], by simp [helements], fun x => ?_, ?_⟩
  · have hle := latest_le (Event.adds n x) events
    have hadds : Event.adds n x (⟨.clear n, .done⟩ : Event α) = false := by
      simp [Event.adds]
    simp [contains, helements, latest_concat, hclears, hadds]
    omega
  · simp [count, helements, sinceClear_concat, hclears]

variable [EquivBEq α]

/-- A new element comes last. -/
theorem add {unique : Bool} (h : Records n events family) (hnew : family.contains n x = false)
    (helements : after.elements n = family.elements n ++ [x]) :
    Records n (events ++ [⟨.insert n x unique, .truth true⟩]) after := by
  have hadds (y : α) : Event.adds n y ⟨.insert n x unique, .truth true⟩ = (x == y) := by
    simp [Event.adds, Event.names, Request.set?]
  have herases (y : α) : Event.erases n y ⟨.insert n x unique, .truth true⟩ = false := by
    simp [Event.erases]
  have hclears : Event.clears n (⟨.insert n x unique, .truth true⟩ : Event α) = false := by
    simp [Event.clears]
  have hold : ∀ y ∈ family.elements n, (x == y) = false := by
    simpa [contains, List.contains_eq_any_beq] using hnew
  refine ⟨?_, ?_, fun y => ?_, ?_⟩
  · rw [helements, List.pairwise_append]
    refine ⟨h.distinct, List.pairwise_singleton _ _, fun y hy z hz => ?_⟩
    rw [List.mem_singleton.1 hz]
    exact BEq.comm.trans (hold y hy)
  · rw [helements, List.pairwise_append]
    refine ⟨h.ordered.imp_of_mem fun {y z} hy hz hlt => ?_, List.pairwise_singleton _ _,
      fun y hy z hz => ?_⟩
    · rw [latest_concat, latest_concat, hadds, hadds, hold y hy, hold z hz]
      exact hlt
    · rw [List.mem_singleton.1 hz, latest_concat, latest_concat, hadds, hadds, hold y hy, BEq.rfl]
      exact Nat.lt_succ_of_le (latest_le _ _)
  · have hcontains : after.contains n y = (family.contains n y || x == y) := by
      simp [contains, helements, BEq.comm]
    rw [latest_concat, latest_concat, latest_concat, hadds, herases, hclears, hcontains]
    cases hxy : x == y with
    | true =>
      have herased := latest_le (Event.erases n y) events
      have hcleared := latest_le (Event.clears n) events
      simp
      omega
    | false =>
      rw [Bool.or_false]
      exact h.contains_iff y
  · have hcount := h.count_eq
    have hgrows : Event.grows n (⟨.insert n x unique, .truth true⟩ : Event α) = true := by
      simp [Event.grows, Event.names, Request.set?]
    have hshrinks : Event.shrinks n (⟨.insert n x unique, .truth true⟩ : Event α) = false := by
      simp [Event.shrinks]
    rw [countP_sinceClear_concat _ _ hclears, countP_sinceClear_concat _ _ hclears, hgrows,
      hshrinks, count, helements, List.length_append, List.length_singleton, Bool.toNat_true,
      Bool.toNat_false]
    unfold count at hcount
    omega

/-- An element that is removed is there no more, and the others stay in their order. -/
theorem erase (h : Records n events family)
    (helements : after.elements n = (family.elements n).filter fun y => !(y == x)) :
    Records n (events ++ [⟨.erase n x, .truth (family.contains n x)⟩]) after := by
  generalize hshrank : family.contains n x = shrank
  have hadds (y : α) : Event.adds n y ⟨.erase n x, .truth shrank⟩ = false := by
    simp [Event.adds]
  have herases (y : α) : Event.erases n y ⟨.erase n x, .truth shrank⟩ = (x == y) := by
    simp [Event.erases, Event.names, Request.set?]
  have hclears : Event.clears n (⟨.erase n x, .truth shrank⟩ : Event α) = false := by
    simp [Event.clears]
  refine ⟨?_, ?_, fun y => ?_, ?_⟩
  · rw [helements]
    exact h.distinct.filter _
  · simp only [helements, latest_concat, hadds]
    exact h.ordered.filter _
  · have hcontains : after.contains n y = (family.contains n y && !(x == y)) := by
      rw [contains, helements, contains_filter_beq, contains]
    rw [latest_concat, latest_concat, latest_concat, hadds, herases, hclears, hcontains]
    cases hxy : x == y with
    | true =>
      have hle := latest_le (Event.adds n y) events
      simp
      omega
    | false =>
      rw [Bool.not_false, Bool.and_true]
      exact h.contains_iff y
  · have hcount := h.count_eq
    have hlength := length_filter_of_distinct h.distinct x
    have hgrows : Event.grows n (⟨.erase n x, .truth shrank⟩ : Event α) = false := by
      simp [Event.grows]
    have hshrinks : Event.shrinks n (⟨.erase n x, .truth shrank⟩ : Event α) = shrank := by
      simp [Event.shrinks, Event.names, Request.set?]
    rw [countP_sinceClear_concat _ _ hclears, countP_sinceClear_concat _ _ hclears, hgrows,
      hshrinks, count, helements, Bool.toNat_false, ← hshrank]
    unfold count at hcount
    unfold contains
    omega

/-- A request that puts no element into a set that has it already. -/
theorem answer {request : Request α} (h : Records n events family)
    (hlegal : ∀ m ∈ request.set?, m < family.size)
    (hunique : ∀ x unique, request = .insert n x unique → unique = true) :
    Records n (events ++ [⟨request, (family.answer request).1⟩]) (family.answer request).2 := by
  by_cases hset : request.set? = some n
  · obtain ⟨hreply, helements⟩ := answer_eq_act (hlegal n hset) hset
    rw [hreply]
    cases request with
    | newSet => cases hset
    | insert m x unique =>
      obtain rfl := Option.some.inj hset
      obtain rfl := hunique x unique rfl
      cases hold : family.contains m x with
      | true =>
        -- The insertion is refused, and a refused one is not among those that add the element.
        have hact : (Request.insert m x true).act (family.elements m) =
            (.truth false, family.elements m) := if_pos hold
        rw [hact] at helements ⊢
        refine h.quiet ?_ helements
        constructor <;>
          simp [Event.adds, Event.erases, Event.clears, Event.grows, Event.shrinks]
      | false =>
        have hact : (Request.insert m x true).act (family.elements m) =
            (.truth true, family.elements m ++ [x]) := if_neg (ne_true_of_eq_false hold)
        rw [hact] at helements ⊢
        exact h.add hold helements
    | erase m x =>
      obtain rfl := Option.some.inj hset
      exact h.erase helements
    | clear m =>
      obtain rfl := Option.some.inj hset
      exact clear helements
    | contains m _ | count m | read m _ =>
      obtain rfl := Option.some.inj hset
      refine h.quiet ?_ helements
      constructor <;>
        simp [Event.adds, Event.erases, Event.clears, Event.grows, Event.shrinks]
  · exact h.quiet (Event.quiet_of_ne hset) (elements_answer_of_ne hlegal hset)

end Records

section Sets

variable {events : List (Event α)} {family : SetFamily α} {n : Nat}

/-- The events tell everything about a set if an element is only put into it while it does not
have it. -/
theorem History.records [EquivBEq α] (h : History events family)
    (hunique : ∀ event ∈ events, ∀ x unique, event.request = .insert n x unique → unique = true) :
    Records n events family := by
  induction h with
  | start => exact Records.start n
  | ask h request hlegal ih =>
    have hold := ih fun event hevent => hunique event (List.mem_append_left _ hevent)
    exact hold.answer hlegal (hunique _ List.mem_concat_self)

/-- The sets of a family are independent of each other. Requests about one set are answered in the
same way whatever is asked of the others, and leave the same elements in the set. One more request
is answered from the elements of the set: a read with the element at its position, the other ones
as `Request.act` says. If equality is an equivalence and an element is only put into a set that does
not have it, the events tell what the set holds. -/
theorem sets_independent (h : History events family) (n : Nat) :
    (∀ (events' : List (Event α)) (family' : SetFamily α), History events' family' →
      (eventsOf n events').map Event.request = (eventsOf n events).map Event.request →
      eventsOf n events' = eventsOf n events ∧ family'.elements n = family.elements n) ∧
    (n < family.size → ∀ request, request.set? = some n →
      (family.answer request).1 = (request.act (family.elements n)).1 ∧
        (family.answer request).2.elements n = (request.act (family.elements n)).2) ∧
    (EquivBEq α →
      (∀ event ∈ events, ∀ x unique, event.request = .insert n x unique → unique = true) →
      Records n events family) := by
  refine ⟨fun events' family' h' hrequests => ?_, fun hn request hset => answer_eq_act hn hset,
    fun _ hunique => h.records hunique⟩
  have hreplay := (h'.replay_eq n).symm.trans ((congrArg replay hrequests).trans (h.replay_eq n))
  exact Prod.mk.inj hreplay

/-- Requests about two sets in turn, and those about the first one of them without the others. -/
theorem sets_independent_of_turns :
    ∃ (events alone : List (Event Nat)) (family single : SetFamily Nat),
      History events family ∧ History alone single ∧ alone.length < events.length ∧
      eventsOf 0 alone = eventsOf 0 events ∧ single.elements 0 = family.elements 0 ∧
      family.elements 0 = [5, 3] ∧ family.elements 1 = [3] ∧
      (family.answer (.read 0 1)).1 = .element (some 3) ∧
      Records 0 events family ∧ Records 1 events family := by
  have h := @History.start Nat _
    |>.ask .newSet (by decide)
    |>.ask .newSet (by decide)
    |>.ask (.insert 0 3 true) (by decide)
    |>.ask (.insert 1 7 true) (by decide)
    |>.ask (.insert 0 5 true) (by decide)
    |>.ask (.insert 0 3 true) (by decide)
    |>.ask (.clear 1) (by decide)
    |>.ask (.erase 0 3) (by decide)
    |>.ask (.insert 1 3 true) (by decide)
    |>.ask (.insert 0 3 true) (by decide)
  have halone := @History.start Nat _
    |>.ask .newSet (by decide)
    |>.ask (.insert 0 3 true) (by decide)
    |>.ask (.insert 0 5 true) (by decide)
    |>.ask (.insert 0 3 true) (by decide)
    |>.ask (.erase 0 3) (by decide)
    |>.ask (.insert 0 3 true) (by decide)
  obtain ⟨hevents, helements⟩ := (sets_independent h 0).1 _ _ halone (by decide)
  have hread := ((sets_independent h 0).2.1 (by decide) (.read 0 1) rfl).1
  exact ⟨_, _, _, _, h, halone, by decide, hevents, helements, by decide, by decide, hread,
    (sets_independent h 0).2.2 inferInstance (by simp),
    (sets_independent h 1).2.2 inferInstance (by simp)⟩

end Sets

end SetFamily

end ShiftReduce
