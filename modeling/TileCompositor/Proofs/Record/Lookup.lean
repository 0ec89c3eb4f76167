import Mathlib.Tactic.ByContra
import TileCompositor.Quad.Expansion
/-!
# The table entries that a record refers to

A record addresses four table entries, and resolves to them if all four are
there.

Results:
* `Table.get_eq_error_iff`: when a lookup fails.
* `InstanceRecord.resolve_eq_ok_iff`, `InstanceRecord.resolve_eq_error_iff`:
  what a record resolves to, and when it does not.
-/
namespace TileCompositor

/-! ## Lookups -/

theorem exists_of_bind_eq_ok {ε α β : Type} {x : Except ε α} {f : α → Except ε β} {b : β}
    (h : x >>= f = .ok b) :
    ∃ a, x = .ok a ∧ f a = .ok b := by
  cases x with
  | error e => cases h
  | ok a => exact ⟨a, rfl, h⟩

theorem mapError_eq_ok_iff {ε ε' α : Type} {x : Except ε α} {g : ε → ε'} {a : α} :
    x.mapError g = .ok a ↔ x = .ok a := by
  cases x <;> simp [Except.mapError]

theorem map_eq_ok_iff {ε α β : Type} {x : Except ε α} {g : α → β} {b : β} :
    x.map g = .ok b ↔ ∃ a, x = .ok a ∧ g a = b := by
  cases x <;> simp [Except.map]

theorem Table.get_eq_error_iff {α : Type} {t : Table α} {index : UInt32} {e : OutOfRange} :
    t.get index = .error e ↔ t.length ≤ index.toNat ∧ e = ⟨t.kind, index, t.length⟩ := by
  unfold get length
  by_cases h : index.toNat < t.entries.size
  · rw [Array.getElem?_eq_getElem h]
    exact iff_of_false nofun fun h' => absurd h'.1 (Nat.not_le.mpr h)
  · rw [Array.getElem?_eq_none (Nat.not_lt.mp h)]
    simp only [Except.error.injEq, Nat.not_lt.mp h, true_and]
    exact eq_comm

theorem Table.exists_get {α : Type} {t : Table α} {index : UInt32} (h : index.toNat < t.length) :
    ∃ entry, t.get index = .ok entry := by
  cases hget : t.get index with
  | ok entry => exact ⟨entry, rfl⟩
  | error e => exact absurd (get_eq_error_iff.mp hget).1 (Nat.not_le.mpr h)

theorem Table.lt_length_of_get {α : Type} {t : Table α} {index : UInt32} {entry : α}
    (h : t.get index = .ok entry) : index.toNat < t.length := by
  by_contra hle
  exact nomatch h.symm.trans (get_eq_error_iff.mpr ⟨Nat.not_lt.mp hle, rfl⟩)

namespace InstanceRecord
variable {record : InstanceRecord} {tables : UniformTables}

/-- The record with the given table entries. -/
def withEntries (record : InstanceRecord) (transform : Mat4) (clipIn clipOut : ClipRect)
    (tile : TileParams) : ResolvedInstance where
  record := record
  indices := record.indices
  transform := transform
  flat := {
    border := record.border
    borderRadii := record.borderRadii
    sourceSize := record.sourceSize
    targetSize := record.targetSize
    blurRadius := record.blurRadius
    aux := record.aux
    tile := tile
    clipIn := clipIn
    clipOut := clipOut
    borderCornerMode := record.indices.borderCornerMode }

/-- A record resolves if all four lookups succeed, and to what they give. -/
theorem resolve_eq_ok_iff {i : ResolvedInstance} :
    record.resolve tables = .ok i ↔
      ∃ transform clipIn clipOut tile,
        tables.transforms.get record.indices.transform = .ok transform ∧
        tables.clipRects.get record.indices.clipIn = .ok clipIn ∧
        tables.clipRects.get record.indices.clipOut = .ok clipOut ∧
        tables.tileParams.get record.indices.tile = .ok tile ∧
        i = record.withEntries transform clipIn clipOut tile := by
  constructor
  · intro h
    obtain ⟨transform, ht, h⟩ := exists_of_bind_eq_ok h
    obtain ⟨clipIn, hin, h⟩ := exists_of_bind_eq_ok h
    obtain ⟨clipOut, hout, h⟩ := exists_of_bind_eq_ok h
    obtain ⟨tile, htile, h⟩ := exists_of_bind_eq_ok h
    cases h
    exact ⟨transform, clipIn, clipOut, tile, ht, hin, hout, htile, rfl⟩
  · rintro ⟨transform, clipIn, clipOut, tile, ht, hin, hout, htile, rfl⟩
    simp only [resolve, ht, hin, hout, htile]
    rfl

/-- Looking up the table entries keeps the record. -/
theorem record_of_resolve {i : ResolvedInstance} (h : record.resolve tables = .ok i) :
    i.record = record := by
  obtain ⟨_, _, _, _, -, -, -, -, rfl⟩ := resolve_eq_ok_iff.mp h
  rfl

/-- One of the four indices of the record leads past the end of its table. -/
def MissesTable (record : InstanceRecord) (tables : UniformTables) : Prop :=
  tables.transforms.length ≤ record.indices.transform.toNat ∨
    tables.clipRects.length ≤ record.indices.clipIn.toNat ∨
    tables.clipRects.length ≤ record.indices.clipOut.toNat ∨
    tables.tileParams.length ≤ record.indices.tile.toNat

/-- A record whose four indices are in range finds its entries. -/
theorem exists_resolve (h : ¬ record.MissesTable tables) : ∃ i, record.resolve tables = .ok i := by
  simp only [MissesTable, not_or, Nat.not_le] at h
  obtain ⟨ht, hin, hout, htile⟩ := h
  obtain ⟨transform, ht⟩ := Table.exists_get ht
  obtain ⟨clipIn, hin⟩ := Table.exists_get hin
  obtain ⟨clipOut, hout⟩ := Table.exists_get hout
  obtain ⟨tile, htile⟩ := Table.exists_get htile
  exact ⟨_, resolve_eq_ok_iff.mpr ⟨transform, clipIn, clipOut, tile, ht, hin, hout, htile, rfl⟩⟩

theorem resolve_eq_error_iff : (∃ e, record.resolve tables = .error e) ↔ record.MissesTable tables := by
  constructor
  · rintro ⟨e, he⟩
    by_contra h
    obtain ⟨i, hi⟩ := exists_resolve h
    exact nomatch he.symm.trans hi
  · intro h
    cases hres : record.resolve tables with
    | error e => exact ⟨e, rfl⟩
    | ok i =>
      obtain ⟨_, _, _, _, ht, hin, hout, htile, -⟩ := resolve_eq_ok_iff.mp hres
      have ht := Table.lt_length_of_get ht
      have hin := Table.lt_length_of_get hin
      have hout := Table.lt_length_of_get hout
      have htile := Table.lt_length_of_get htile
      unfold MissesTable at h
      omega

end InstanceRecord

end TileCompositor
