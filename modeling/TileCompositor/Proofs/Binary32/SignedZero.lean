import TileCompositor.Proofs.Binary32.Extended
/-!
# Values up to the sign of zero

The two zeros compare as equal, and arithmetic does not tell them apart but by
the sign of a zero again: whatever the other operand is, an infinity or NaN
included, results from values that are the same up to the sign of zero are so
too.

Results:
* `SameNumber.add`, `SameNumber.sub_right`, `SameNumber.mul_right`: operations.
* `SameNumber.le_iff`: comparison.
* `SameNumber.beq_or_isNaN`: such values are equal, or both NaN.
* `sub_self_eq_zero`: the difference of equal values is the positive zero.
-/
namespace TileCompositor.Binary32
open Float.Model (Format UnpackedFloat)
open Float.Model.UnpackedFloat

/-- The values are the same, or both are zero. -/
def SameNumber (x y : Float32) : Prop := x = y ∨ Denotes x 0 ∧ Denotes y 0

variable {x y z w : Float32} {q : ℚ}

theorem SameNumber.trans (h : SameNumber x y) (h' : SameNumber y z) : SameNumber x z := by
  rcases h with rfl | ⟨hx, hy⟩
  · exact h'
  · rcases h' with rfl | ⟨-, hz⟩
    · exact .inr ⟨hx, hy⟩
    · exact .inr ⟨hx, hz⟩

/-- Values that stand for the same number differ by the sign of zero at most. -/
theorem Denotes.sameNumber (hx : Denotes x q) (hy : Denotes y q) : SameNumber x y := by
  by_cases h0 : q = 0
  · exact .inr ⟨h0 ▸ hx, h0 ▸ hy⟩
  · exact .inl (hx.eq hy h0)

/-! ## Operations

With a finite operand the results stand for one number. With an infinity or NaN
they are the same, as the fields of a zero other than its sign are not read.
-/

/-- What treats the fields of the zeros alike gives the same for both. -/
theorem eq_of_zeros (op : UnpackedFloat → UnpackedFloat) (hx : Denotes x 0) (hy : Denotes y 0)
    (hop : ∀ s t, op (.zero s) = op (.zero t)) :
    Float32.ofModel (.pack (op (view x))) = Float32.ofModel (.pack (op (view y))) := by
  obtain ⟨s, hs⟩ := view_of_zero hx
  obtain ⟨t, ht⟩ := view_of_zero hy
  rw [hs, ht, hop s t]

theorem SameNumber.add_right (h : SameNumber x y) (z : Float32) : SameNumber (x + z) (y + z) := by
  rcases h with rfl | ⟨hx, hy⟩
  · exact .inl rfl
  rcases kind_cases z with ⟨q, hz⟩ | hz
  · exact (denotes_zero_add hx hz).sameNumber (denotes_zero_add hy hz)
  · refine .inl (eq_of_zeros (UnpackedFloat.add Format.binary32 · (view z)) hx hy fun s t => ?_)
    rcases hz with ⟨u, hz⟩ | hz <;> rw [hz] <;> rfl

theorem SameNumber.add_left (h : SameNumber x y) (z : Float32) : SameNumber (z + x) (z + y) := by
  rcases h with rfl | ⟨hx, hy⟩
  · exact .inl rfl
  rcases kind_cases z with ⟨q, hz⟩ | hz
  · exact (denotes_add_zero hz hx).sameNumber (denotes_add_zero hz hy)
  · refine .inl (eq_of_zeros (UnpackedFloat.add Format.binary32 (view z)) hx hy fun s t => ?_)
    rcases hz with ⟨u, hz⟩ | hz <;> rw [hz] <;> rfl

theorem SameNumber.add (h : SameNumber x y) (h' : SameNumber z w) : SameNumber (x + z) (y + w) :=
  (h.add_right z).trans (h'.add_left y)

theorem SameNumber.sub_right (h : SameNumber x y) (z : Float32) : SameNumber (x - z) (y - z) := by
  rcases h with rfl | ⟨hx, hy⟩
  · exact .inl rfl
  rcases kind_cases z with ⟨q, hz⟩ | hz
  · have hvalue : IsValue (0 - q) := by
      rw [zero_sub]
      exact hz.neg.isValue
    exact (hx.sub_exact hz hvalue).sameNumber (hy.sub_exact hz hvalue)
  · refine .inl (eq_of_zeros (UnpackedFloat.sub Format.binary32 · (view z)) hx hy fun s t => ?_)
    rcases hz with ⟨u, hz⟩ | hz <;> rw [hz] <;> rfl

theorem SameNumber.mul_right (h : SameNumber x y) (z : Float32) : SameNumber (x * z) (y * z) := by
  rcases h with rfl | ⟨hx, hy⟩
  · exact .inl rfl
  rcases kind_cases z with ⟨q, hz⟩ | hz
  · exact .inr ⟨denotes_zero_mul hx hz, denotes_zero_mul hy hz⟩
  · refine .inl (eq_of_zeros (UnpackedFloat.mul Format.binary32 · (view z)) hx hy fun s t => ?_)
    rcases hz with ⟨u, hz⟩ | hz <;> rw [hz] <;> rfl

/-! ## Comparison -/

theorem SameNumber.le_iff (h : SameNumber x y) (z : Float32) : z ≤ x ↔ z ≤ y := by
  rcases h with rfl | ⟨hx, hy⟩
  · exact Iff.rfl
  · obtain ⟨s, hs⟩ := view_of_zero hx
    obtain ⟨t, ht⟩ := view_of_zero hy
    rcases kind_cases z with ⟨q, hz⟩ | hz
    · rw [hz.le_iff hx, hz.le_iff hy]
    · rw [le_eq, le_eq, hs, ht]
      rcases hz with ⟨u, hz⟩ | hz <;> rw [hz]
      · cases u <;> rfl
      · rfl

theorem SameNumber.beq_or_isNaN (h : SameNumber x y) :
    (x == y) = true ∨ x.isNaN = true ∧ y.isNaN = true := by
  rcases h with rfl | ⟨hx, hy⟩
  · rcases kind_cases x with ⟨q, hx⟩ | ⟨s, hs⟩ | hs
    · exact .inl (hx.beq hx)
    · refine .inl ((beq_eq x x).mpr ?_)
      rw [hs]
      cases s <;> rfl
    · exact .inr ⟨isNaN_iff.mpr hs, isNaN_iff.mpr hs⟩
  · exact .inl (hx.beq hy)

/-! ## The two zeros -/

theorem eq_of_denotes_zero (h : Denotes x 0) : x = 0.0 ∨ x = -0.0 := by
  obtain ⟨s, hs⟩ := view_of_zero h
  cases s with
  | negative => exact .inr (eq_of_view hs)
  | positive => exact .inl (eq_of_view hs)

/-- What a finite value leaves of itself is the positive zero. -/
theorem sub_self_eq_zero (h : x.isFinite = true) : x - x = 0.0 := by
  have hsub : UnpackedFloat.sub Format.binary32 (view x) (view x) = .zero .positive := by
    obtain ⟨s, hs⟩ | ⟨s, m, e, hm, hs⟩ := isFinite_cases (u := view x) h <;> rw [hs]
    · cases s <;> rfl
    · have hcancel (k : ℤ) :
          UnpackedFloat.normalize Format.binary32 (k - k) (min e e) .positive = .zero .positive := by
        rw [sub_self]
        rfl
      exact hcancel _
  change Float32.ofModel (.pack (UnpackedFloat.sub Format.binary32 (view x) (view x))) = 0.0
  rw [hsub]
  rfl

end TileCompositor.Binary32
