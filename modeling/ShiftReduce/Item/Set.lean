import ShiftReduce.Item.Basic

/-!
# Sets of items

A set of items is the ascending list of their numbers, so equal sets are equal lists.
-/

namespace ShiftReduce

/-- Puts a number into an ascending list, once. -/
def insertAscending (n : Nat) : List Nat → List Nat
  | [] => [n]
  | m :: ms => if n < m then n :: m :: ms else if n = m then m :: ms
    else m :: insertAscending n ms

/-- An insertion adds the number and keeps the others. -/
theorem mem_insertAscending {n k : Nat} {ms : List Nat} :
    k ∈ insertAscending n ms ↔ k = n ∨ k ∈ ms := by
  induction ms with
  | nil => simp [insertAscending]
  | cons m ms ih =>
    simp only [insertAscending]
    split
    · simp
    · split
      · rename_i h
        subst h
        simp
      · simp only [List.mem_cons, ih]
        grind

/-- An insertion into ascending numbers leaves them ascending. -/
theorem pairwise_insertAscending {n : Nat} {ms : List Nat} (h : ms.Pairwise (· < ·)) :
    (insertAscending n ms).Pairwise (· < ·) := by
  induction ms with
  | nil => simp [insertAscending]
  | cons m ms ih =>
    simp only [insertAscending]
    rw [List.pairwise_cons] at h
    split
    · rename_i hlt
      rw [List.pairwise_cons, List.pairwise_cons]
      refine ⟨fun k hk => ?_, h⟩
      rcases List.mem_cons.1 hk with rfl | hk
      · exact hlt
      · exact Nat.lt_trans hlt (h.1 k hk)
    · split
      · exact List.pairwise_cons.2 h
      · rw [List.pairwise_cons]
        refine ⟨fun k hk => ?_, ih h.2⟩
        rcases mem_insertAscending.1 hk with rfl | hk
        · omega
        · exact h.1 k hk

/-- A finite set of items. -/
structure ItemSet where
  ids : List ItemId
  ascending : ids.Pairwise (· < ·)
  deriving DecidableEq

namespace ItemSet

/-- The set without items. -/
def empty : ItemSet := ⟨[], .nil⟩

/-- Adds an item to a set. -/
def insert (set : ItemSet) (id : ItemId) : ItemSet :=
  ⟨insertAscending id set.ids, pairwise_insertAscending set.ascending⟩

/-- A set with one more number has this number and the ones that it had. -/
@[simp]
theorem mem_insert {set : ItemSet} {id k : ItemId} :
    k ∈ (set.insert id).ids ↔ k = id ∨ k ∈ set.ids :=
  mem_insertAscending

/-- The set of the listed items. -/
def ofList (ids : List ItemId) : ItemSet := ids.foldl insert empty

/-- Whether a set has no items. -/
def isEmpty (set : ItemSet) : Bool := set.ids.isEmpty

/-- How many items a set has. -/
def size (set : ItemSet) : Nat := set.ids.length

/-- Whether an item is in a set. -/
def contains (set : ItemSet) (id : ItemId) : Bool := set.ids.contains id

end ItemSet

end ShiftReduce
