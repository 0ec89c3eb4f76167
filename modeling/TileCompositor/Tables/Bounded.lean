import TileCompositor.Tables.Error
/-!
# Bounded tables

A table takes entries at its end until its capacity is reached and answers
lookups by index. `toList` is the view of its contents.
-/
namespace TileCompositor

structure Table (α : Type) where
  kind : TableKind
  capacity : Nat
  entries : Array α := #[]
  size_le : entries.size ≤ capacity := by simp

namespace Table
variable {α : Type}

/-- A table without entries.
mirrors `new`, tables/table:15-21 -/
def empty (kind : TableKind) (capacity : Nat) : Table α := { kind, capacity }

def length (t : Table α) : Nat := t.entries.size

def isEmpty (t : Table α) : Bool := t.entries.isEmpty

/-- The entries in the order of their indices. -/
def toList (t : Table α) : List α := t.entries.toList

/-- The table with `entry` at its end, and the index of that entry.
mirrors `push`, tables/table:39-49 -/
def push (t : Table α) (entry : α) : Except TableFull (UInt32 × Table α) :=
  if h : t.entries.size < t.capacity then
    .ok (t.entries.size.toUInt32,
      { t with entries := t.entries.push entry, size_le := by simpa using Nat.succ_le_of_lt h })
  else .error ⟨t.kind, t.capacity⟩

/-- The table without its entries.
mirrors `clear`, tables/table:53-55 -/
def clear (t : Table α) : Table α := empty t.kind t.capacity

/-- The entry at `index`.
mirrors `get`, tables/table:102-108 -/
def get (t : Table α) (index : UInt32) : Except OutOfRange α :=
  match t.entries[index.toNat]? with
  | some entry => .ok entry
  | none => .error ⟨t.kind, index, t.entries.size⟩

/-- One slot of `slot` numbers for each place of the table: the entries in
order, then zeros.
mirrors `to_gpu_block`, tables/gpu:69-73 -/
def toBlock (t : Table α) (slot : Nat) (numbers : α → List Float32) : List (List Float32) :=
  t.toList.map numbers ++ List.replicate (t.capacity - t.length) (List.replicate slot 0.0)

/-- The bytes that the block of the table takes up; a table without places
has nothing to bind.
mirrors `min_binding_size`, tables/gpu:78-80 -/
def bindingSize? (t : Table α) (slot : Nat) : Option Nat :=
  if t.capacity * (4 * slot) = 0 then none else some (t.capacity * (4 * slot))

@[simp] theorem toList_empty (kind : TableKind) (capacity : Nat) :
    (empty kind capacity : Table α).toList = [] := rfl

@[simp] theorem toList_clear (t : Table α) : t.clear.toList = [] := rfl

@[simp] theorem length_toList (t : Table α) : t.toList.length = t.length := rfl

theorem length_le_capacity (t : Table α) : t.length ≤ t.capacity := t.size_le

/-- A push succeeds exactly when there is room; it answers the length before
it and adds the entry at the end. -/
theorem push_of_lt (t : Table α) (entry : α) (h : t.length < t.capacity) :
    ∃ t', t.push entry = .ok (t.length.toUInt32, t') ∧ t'.toList = t.toList ++ [entry] ∧
      t'.capacity = t.capacity ∧ t'.kind = t.kind := by
  rw [length] at h
  unfold push
  rw [dif_pos h]
  exact ⟨_, rfl, by simp [toList], rfl, rfl⟩

theorem push_of_le (t : Table α) (entry : α) (h : t.capacity ≤ t.length) :
    t.push entry = .error ⟨t.kind, t.capacity⟩ := by
  rw [length] at h
  unfold push
  rw [dif_neg (Nat.not_lt.mpr h)]

/-- A lookup finds the entry of the view at its index. -/
theorem get_eq_ok_iff (t : Table α) (index : UInt32) (entry : α) :
    t.get index = .ok entry ↔ t.toList[index.toNat]? = some entry := by
  unfold get toList
  rw [Array.getElem?_toList]
  cases t.entries[index.toNat]? <;> simp

theorem length_toBlock (t : Table α) (slot : Nat) (numbers : α → List Float32) :
    (t.toBlock slot numbers).length = t.capacity := by
  have := t.length_le_capacity
  simp only [toBlock, List.length_append, List.length_map, length_toList, List.length_replicate]
  omega

end Table

end TileCompositor
