import Mathlib.Algebra.Order.BigOperators.Group.Finset
import Mathlib.Algebra.Order.Ring.Nat
import Mathlib.Data.List.Perm.Subperm
import ShiftReduce.SetFamily

/-!
# How families of sets grow

To insert elements changes one set of a family and puts new elements at its end. Families that grow
this way are ordered, and the number of all elements tells whether a family has grown at all. It is
bounded if the elements come from a fixed list.
-/

namespace ShiftReduce

/-- An element that is there already changes nothing. -/
theorem pushUnique_of_mem {α : Type} [BEq α] [LawfulBEq α] {xs : List α} {x : α} (h : x ∈ xs) :
    pushUnique xs x = xs := by
  rw [pushUnique, if_pos (List.contains_iff_mem.2 h)]

/-- A new element comes last. -/
theorem pushUnique_of_notMem {α : Type} [BEq α] [LawfulBEq α] {xs : List α} {x : α} (h : x ∉ xs) :
    pushUnique xs x = xs ++ [x] := by
  rw [pushUnique, if_neg (by rwa [List.contains_iff_mem])]

/-- What a list holds after several insertions. -/
theorem mem_foldl_pushUnique {α : Type} [BEq α] [LawfulBEq α] {xs known : List α} {x : α} :
    x ∈ xs.foldl pushUnique known ↔ x ∈ known ∨ x ∈ xs := by
  induction xs generalizing known with
  | nil => simp
  | cons y ys ih =>
    rw [List.foldl_cons, ih, mem_pushUnique, List.mem_cons]
    tauto

/-- Insertions make no repetitions. -/
theorem nodup_foldl_pushUnique {α : Type} [BEq α] [LawfulBEq α] {xs known : List α}
    (h : known.Nodup) : (xs.foldl pushUnique known).Nodup := by
  induction xs generalizing known with
  | nil => exact h
  | cons y ys ih => exact ih (nodup_pushUnique h)

/-- Insertions keep what was there in its place. -/
theorem prefix_foldl_pushUnique {α : Type} [BEq α] (xs known : List α) :
    known <+: xs.foldl pushUnique known := by
  induction xs generalizing known with
  | nil => exact List.prefix_refl known
  | cons y ys ih =>
    refine List.IsPrefix.trans ?_ (ih (pushUnique known y))
    unfold pushUnique
    split
    · exact List.prefix_refl known
    · exact List.prefix_append known [y]

/-- Elements that are there already change nothing. -/
theorem foldl_pushUnique_of_subset {α : Type} [BEq α] [LawfulBEq α] {xs known : List α}
    (h : xs ⊆ known) : xs.foldl pushUnique known = known := by
  induction xs with
  | nil => rfl
  | cons x xs ih =>
    obtain ⟨hx, hxs⟩ := List.cons_subset.1 h
    rw [List.foldl_cons, pushUnique_of_mem hx, ih hxs]

/-- Copies of one new element put it at the end once. -/
theorem foldl_pushUnique_copies {α : Type} [BEq α] [LawfulBEq α] {xs known : List α}
    {pick : Option α} (hxs : ∀ x, x ∈ xs ↔ pick = some x) (hnew : ∀ x, pick = some x → x ∉ known) :
    xs.foldl pushUnique known = known ++ pick.toList := by
  cases xs with
  | nil =>
    have hnone : pick = none :=
      Option.eq_none_iff_forall_ne_some.2 fun x hx => List.not_mem_nil ((hxs x).2 hx)
    rw [hnone, Option.toList_none, List.append_nil, List.foldl_nil]
  | cons a xs =>
    have ha : pick = some a := (hxs a).1 List.mem_cons_self
    have hcopies : xs ⊆ known ++ [a] := by
      intro x hx
      have hxa := ha.symm.trans ((hxs x).1 (List.mem_cons_of_mem a hx))
      simp [Option.some.inj hxa]
    rw [List.foldl_cons, pushUnique_of_notMem (hnew a ha), foldl_pushUnique_of_subset hcopies, ha,
      Option.toList_some]

/-- A pass whose steps insert copies of at most one element each puts these elements at the end in
the order of the steps, if no two steps insert the same element. -/
theorem foldl_pushUnique_flatMap {ι α : Type} [BEq α] [LawfulBEq α] {steps : List ι}
    {inserted : ι → List α} {pick : ι → Option α} {known : List α}
    (hpick : ∀ i ∈ steps, ∀ x, x ∈ inserted i ↔ pick i = some x)
    (hnodup : (known ++ steps.filterMap pick).Nodup) :
    (steps.flatMap inserted).foldl pushUnique known = known ++ steps.filterMap pick := by
  induction steps generalizing known with
  | nil => simp
  | cons i steps ih =>
    have hsplit : (i :: steps).filterMap pick = (pick i).toList ++ steps.filterMap pick := by
      cases hi : pick i <;> simp [hi]
    rw [hsplit, ← List.append_assoc] at hnodup ⊢
    have hnew : ∀ x, pick i = some x → x ∉ known := by
      intro x hx hknown
      have hbefore := (List.nodup_append.1 (List.nodup_append.1 hnodup).1).2.2
      exact hbefore x hknown x (by simp [hx]) rfl
    rw [List.flatMap_cons, List.foldl_append,
      foldl_pushUnique_copies (hpick i List.mem_cons_self) hnew,
      ih (fun j hj => hpick j (List.mem_cons_of_mem i hj)) hnodup]

namespace SetFamily

variable {α : Type} {family after later : SetFamily α} {n m : Nat} {x : α} {xs : List α}

/-- The elements of a set that exists. -/
theorem getElem?_sets (hn : n < family.size) : family.sets[n]? = some (family.elements n) := by
  have hsize : n < family.sets.size := hn
  simp [elements, hsize]

/-- The elements of a set that is there. -/
theorem elements_eq (h : family.sets[n]? = some xs) : family.elements n = xs := by
  rw [elements, Array.getD_eq_getD_getElem?, h, Option.getD_some]

/-- A set that does not exist has no elements. -/
theorem elements_eq_nil (hn : ¬ n < family.size) : family.elements n = [] := by
  have hsize : ¬ n < family.sets.size := hn
  simp [elements, hsize]

/-- A family of empty sets has as many sets as it was made with. -/
@[simp] theorem size_ofSize (count : Nat) : (ofSize count : SetFamily α).size = count := by
  simp [ofSize, size]

/-- The sets of a family of empty sets have no elements. -/
@[simp] theorem elements_ofSize (count n : Nat) : (ofSize count : SetFamily α).elements n = [] := by
  simp only [ofSize, elements, Array.getD_eq_getD_getElem?, Array.getElem?_replicate]
  split <;> rfl

/-- A change of one set leaves the others as they are. -/
theorem elements_modify (change : List α → List α) (hn : n < family.size) :
    (mk (family.sets.modify n change)).elements m =
      if m = n then change (family.elements n) else family.elements m := by
  have hsize : n < family.sets.size := hn
  simp only [elements, Array.getD_eq_getD_getElem?, Array.getElem?_modify]
  split
  · rename_i heq
    subst heq
    simp [hsize]
  · rename_i hne
    rw [if_neg fun heq => hne heq.symm]

/-- Families with the same sets are equal. -/
theorem ext_elements (hsize : family.size = after.size)
    (h : ∀ n, family.elements n = after.elements n) : family = after := by
  have hsets : family.sets = after.sets := by
    refine Array.ext hsize fun n hn hn' => ?_
    have heq := h n
    rw [elements, elements, Array.getD_eq_getD_getElem?, Array.getD_eq_getD_getElem?,
      Array.getElem?_eq_getElem hn, Array.getElem?_eq_getElem hn'] at heq
    exact heq
  cases family
  cases after
  exact congrArg mk hsets

/-- The number of elements of all sets. -/
def total (family : SetFamily α) : Nat :=
  ∑ n ∈ Finset.range family.size, (family.elements n).length

/-- A family with the same sets, to which new elements may have been added at the end. -/
structure Grows (family after : SetFamily α) : Prop where
  size_eq : after.size = family.size
  keeps : ∀ n, family.elements n <+: after.elements n

namespace Grows

/-- A family grows to itself. -/
theorem refl (family : SetFamily α) : family.Grows family := ⟨rfl, fun _ => List.prefix_refl _⟩

/-- A family that grows twice has grown. -/
theorem trans (h : family.Grows after) (h' : after.Grows later) : family.Grows later :=
  ⟨h'.size_eq.trans h.size_eq, fun n => (h.keeps n).trans (h'.keeps n)⟩

/-- A family that grows keeps its elements. -/
theorem mem (h : family.Grows after) (hx : x ∈ family.elements n) : x ∈ after.elements n :=
  (h.keeps n).subset hx

/-- A family that grows has more elements, unless nothing is new. -/
theorem total_lt (h : family.Grows after) (hne : after ≠ family) : family.total < after.total := by
  have hle : ∀ n, (family.elements n).length ≤ (after.elements n).length :=
    fun n => (h.keeps n).length_le
  have hnew : ∃ n ∈ Finset.range family.size,
      (family.elements n).length < (after.elements n).length := by
    by_contra hold
    refine hne (ext_elements h.size_eq fun n => ?_)
    by_cases hn : n < family.size
    · refine ((h.keeps n).eq_of_length_le (Nat.le_of_not_lt fun hlt => hold ?_)).symm
      exact ⟨n, Finset.mem_range.2 hn, hlt⟩
    · rw [elements_eq_nil hn, elements_eq_nil (by rwa [h.size_eq])]
  unfold total
  rw [h.size_eq]
  exact Finset.sum_lt_sum (fun n _ => hle n) hnew

end Grows

/-- The elements of a family come from a list, and no set has one twice. -/
structure Within (alphabet : List α) (family : SetFamily α) : Prop where
  nodup : ∀ n, (family.elements n).Nodup
  subset : ∀ n, family.elements n ⊆ alphabet

/-- The number of elements of all sets is bounded if they come from a list. -/
theorem Within.total_le {alphabet : List α} (h : family.Within alphabet) :
    family.total ≤ family.size * alphabet.length := by
  have hsum := Finset.sum_le_card_nsmul (Finset.range family.size)
    (fun n => (family.elements n).length) alphabet.length
    fun n _ => (List.subperm_of_subset (h.nodup n) (h.subset n)).length_le
  simpa [total] using hsum

variable [BEq α]

/-- An insertion adds no set. -/
@[simp] theorem size_insert (family : SetFamily α) (n : Nat) (x : α) :
    (family.insert n x).size = family.size := by
  simp [insert, size]

/-- An insertion changes one set. -/
theorem elements_insert (hn : n < family.size) :
    (family.insert n x).elements m =
      if m = n then pushUnique (family.elements n) x else family.elements m :=
  elements_modify (fun xs => pushUnique xs x) hn

/-- Insertions add no set. -/
@[simp] theorem size_insertAll (family : SetFamily α) (n : Nat) (xs : List α) :
    (family.insertAll n xs).size = family.size := by
  unfold insertAll
  induction xs generalizing family with
  | nil => rfl
  | cons x xs ih => rw [List.foldl_cons, ih, size_insert]

/-- Insertions change one set. -/
theorem elements_insertAll (hn : n < family.size) :
    (family.insertAll n xs).elements m =
      if m = n then xs.foldl pushUnique (family.elements n) else family.elements m := by
  unfold insertAll
  induction xs generalizing family with
  | nil =>
    split
    · rename_i heq
      rw [heq]
      rfl
    · rfl
  | cons x xs ih =>
    rw [List.foldl_cons, ih (by rwa [size_insert]), elements_insert hn, elements_insert hn,
      if_pos rfl]
    split <;> rfl

/-- Insertions let a family grow. -/
theorem grows_insertAll (hn : n < family.size) : family.Grows (family.insertAll n xs) := by
  refine ⟨size_insertAll family n xs, fun m => ?_⟩
  rw [elements_insertAll hn]
  split
  · rename_i heq
    rw [heq]
    exact prefix_foldl_pushUnique xs _
  · exact List.prefix_refl _

variable [LawfulBEq α]

/-- What the sets hold after insertions. -/
theorem mem_insertAll (hn : n < family.size) :
    x ∈ (family.insertAll n xs).elements m ↔ x ∈ family.elements m ∨ m = n ∧ x ∈ xs := by
  rw [elements_insertAll hn]
  split
  · rename_i heq
    rw [heq, mem_foldl_pushUnique]
    simp
  · rename_i hne
    simp [hne]

/-- Insertions of elements of a list keep a family within the list. -/
theorem Within.insertAll {alphabet : List α} (h : family.Within alphabet) (hn : n < family.size)
    (hxs : xs ⊆ alphabet) : (family.insertAll n xs).Within alphabet := by
  refine ⟨fun m => ?_, fun m x hx => ?_⟩
  · rw [elements_insertAll hn]
    split
    · exact nodup_foldl_pushUnique (h.nodup n)
    · exact h.nodup m
  · rcases (mem_insertAll hn).1 hx with hx | ⟨-, hx⟩
    · exact h.subset m hx
    · exact hxs hx

end SetFamily

end ShiftReduce
