/-!
# Ordered sets and families of them

An ordered set is a list without repetitions in the order of insertion. A family holds numbered
ordered sets, which are independent of each other.
-/

namespace ShiftReduce

/-- Puts an element at the end of a list unless the list has it already. -/
def pushUnique {α : Type} [BEq α] (xs : List α) (x : α) : List α :=
  if xs.contains x then xs else xs ++ [x]

/-- An insertion adds the element and keeps the others. -/
@[simp]
theorem mem_pushUnique {α : Type} [BEq α] [LawfulBEq α] {xs : List α} {x y : α} :
    y ∈ pushUnique xs x ↔ y ∈ xs ∨ y = x := by
  unfold pushUnique
  split
  · rename_i h
    rw [List.contains_iff_mem] at h
    constructor
    · exact Or.inl
    · rintro (hy | rfl)
      · exact hy
      · exact h
  · simp

/-- An insertion makes no repetition. -/
theorem nodup_pushUnique {α : Type} [BEq α] [LawfulBEq α] {xs : List α} {x : α}
    (h : xs.Nodup) : (pushUnique xs x).Nodup := by
  unfold pushUnique
  split
  · exact h
  · rename_i hx
    rw [List.contains_iff_mem] at hx
    rw [List.nodup_append]
    refine ⟨h, by simp, fun a ha b hb => ?_⟩
    rintro rfl
    exact hx (List.mem_singleton.1 hb ▸ ha)

/-- Puts elements at the end of a list one after the other, and tells of each whether the list
grew. -/
def pushAllUnique {α : Type} [BEq α] (xs : List α) : List α → List Bool × List α
  | [] => ([], xs)
  | y :: ys =>
    let (grew, all) := pushAllUnique (pushUnique xs y) ys
    ((!xs.contains y) :: grew, all)

/-- Sets numbered in the order of their creation, each in the order of insertion. -/
structure SetFamily (α : Type) where
  sets : Array (List α)
  deriving DecidableEq

namespace SetFamily

variable {α : Type}

/-- The family without sets. -/
def empty : SetFamily α := ⟨#[]⟩

/-- A family of `count` empty sets. -/
def ofSize (count : Nat) : SetFamily α := ⟨Array.replicate count []⟩

/-- How many sets the family has. -/
def size (family : SetFamily α) : Nat := family.sets.size

/-- Whether the family has no set. -/
def isEmpty (family : SetFamily α) : Bool := family.sets.isEmpty

/-- The elements of a set. A set that does not exist has none. -/
def elements (family : SetFamily α) (set : Nat) : List α := family.sets.getD set []

/-- Adds an empty set, which gets the next number. -/
def newSet (family : SetFamily α) : SetFamily α := ⟨family.sets.push []⟩

/-- How many elements a set has. -/
def count (family : SetFamily α) (set : Nat) : Nat := (family.elements set).length

/-- The element of a set at a position. -/
def read? (family : SetFamily α) (set index : Nat) : Option α := (family.elements set)[index]?

/-- Removes all elements of a set. -/
def clear (family : SetFamily α) (set : Nat) : SetFamily α :=
  ⟨family.sets.modify set fun _ => []⟩

variable [BEq α]

/-- Whether a set has an element. -/
def contains (family : SetFamily α) (set : Nat) (x : α) : Bool :=
  (family.elements set).contains x

/-- Puts an element at the end of a set unless the set has it already. -/
def insert (family : SetFamily α) (set : Nat) (x : α) : SetFamily α :=
  ⟨family.sets.modify set fun xs => pushUnique xs x⟩

/-- Puts an element at the end of a set, also if the set has it already. -/
def append (family : SetFamily α) (set : Nat) (x : α) : SetFamily α :=
  ⟨family.sets.modify set fun xs => xs ++ [x]⟩

/-- Removes all copies of an element from a set. -/
def erase (family : SetFamily α) (set : Nat) (x : α) : SetFamily α :=
  ⟨family.sets.modify set fun xs => xs.filter fun y => !(y == x)⟩

/-- Puts elements at the end of a set one after the other. -/
def insertAll (family : SetFamily α) (set : Nat) (xs : List α) : SetFamily α :=
  xs.foldl (fun family x => family.insert set x) family

/-- What can be asked of a family. -/
inductive Request (α : Type) where
  | newSet
  /-- Adds an element, which may stand in the set already unless `unique` is set. -/
  | insert (set : Nat) (x : α) (unique : Bool)
  | erase (set : Nat) (x : α)
  | contains (set : Nat) (x : α)
  | count (set : Nat)
  | clear (set : Nat)
  | read (set index : Nat)
  deriving DecidableEq

/-- The set that a request is about. -/
def Request.set? : Request α → Option Nat
  | .newSet => none
  | .insert set _ _ | .erase set _ | .contains set _ | .count set | .clear set | .read set _ =>
    some set

/-- What a request is answered with. -/
inductive Reply (α : Type) where
  | done
  | truth (value : Bool)
  | size (value : Nat)
  | element (value : Option α)
  deriving DecidableEq

/-- Carries out a request. Insertions and removals tell whether the set has changed. -/
def answer (family : SetFamily α) : Request α → Reply α × SetFamily α
  | .newSet => (.done, family.newSet)
  | .insert set x unique =>
    if unique && family.contains set x then (.truth false, family)
    else (.truth true, family.append set x)
  | .erase set x => (.truth (family.contains set x), family.erase set x)
  | .contains set x => (.truth (family.contains set x), family)
  | .count set => (.size (family.count set), family)
  | .clear set => (.done, family.clear set)
  | .read set index => (.element (family.read? set index), family)

end SetFamily

end ShiftReduce
