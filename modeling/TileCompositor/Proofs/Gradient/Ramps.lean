import Mathlib.Order.Basic
import TileCompositor.Gradient.Ramp
/-!
# Ramp stores as lists of rows

A store is seen as the list of its rows, each an array of colours of the
width of the store. Adding appends a row or changes nothing, so what a row
number leads to stays the same until the store is cleared, and the rows never
outnumber what the seven bits of a record address.

Results:
* `add_eq_ok_iff`, `edit_cases`: what one step does.
* `Valid.edit`, `Valid.edits`: width and bounds along a run.
* `prefix_edits_add`: rows that are there stay where they are.
-/
namespace TileCompositor.GradientRamps

/-- The rows in the order of their numbers. -/
def toList (r : GradientRamps) : List (Array Color) := r.rows.toList.map Vector.toArray

/-- The row of the given width that is baked from `stops`.
mirrors `add`, fragment/ramp:65-67 -/
def bakedRow (width : Nat) (stops : List ColorStop) : Array Color :=
  Array.ofFn fun i : Fin width => colorAt (Scalar.ofNat i / Scalar.ofNat (width - 1)) stops

/-- What holds of the stores that a producer can have: the width that it
asked for, and no more rows than an address reaches. -/
structure Valid (width : Nat) (r : GradientRamps) : Prop where
  width_eq : r.width = width
  maxRows_le : r.maxRows ≤ addressable
  size_le : r.rows.size ≤ r.maxRows

variable {r r' : GradientRamps} {stops : List ColorStop} {index : UInt32} {width maxRows : Nat}

@[simp] theorem length_toList (r : GradientRamps) : r.toList.length = r.rows.size := by
  simp [toList]

theorem toArray_bake (r : GradientRamps) (stops : List ColorStop) :
    (r.bake stops).toArray = bakedRow r.width stops := rfl

/-- A lookup finds the row of the view at its number. -/
theorem exists_row_iff {colors : Array Color} :
    (∃ row, r.row index = .ok row ∧ row.toArray = colors) ↔
      r.toList[index.toNat]? = some colors := by
  unfold row toList
  rw [List.getElem?_map, Array.getElem?_toList]
  cases r.rows[index.toNat]? <;> simp

/-! ## One step -/

/-- An addition succeeds if the stops are in order and there is room; it
answers the number of rows and puts the baked row behind them. -/
theorem add_eq_ok_iff :
    r.add stops = .ok (index, r') ↔
      checkStops stops = .ok () ∧ r.rows.size < r.maxRows ∧ index = r.rows.size.toUInt32 ∧
        r' = { r with rows := r.rows.push (r.bake stops) } := by
  unfold add
  cases hcheck : checkStops stops with
  | error e => exact iff_of_false nofun fun h => nomatch h.1
  | ok u =>
    by_cases hroom : r.rows.size < r.maxRows
    · simp only [hroom, if_true, bind, Except.bind, pure, Except.pure, Except.ok.injEq, Prod.mk.injEq,
        true_and]
      rw [eq_comm, eq_comm (b := r')]
    · simp only [hroom, if_false, bind, Except.bind, false_and, and_false, iff_false]
      nofun

theorem toList_add (h : r.add stops = .ok (index, r')) :
    r'.toList = r.toList ++ [bakedRow r.width stops] := by
  obtain ⟨-, -, -, rfl⟩ := add_eq_ok_iff.mp h
  simp [toList, toArray_bake]

/-- A step adds a row, is rejected and changes nothing, or clears the store. -/
theorem edit_cases (r : GradientRamps) (step : Edit) :
    (∃ stops index r', step = .add stops ∧ r.add stops = .ok (index, r') ∧
        r.edit step = (.index index, r')) ∨
      (∃ stops e, step = .add stops ∧ r.add stops = .error e ∧ r.edit step = (.rejected e, r)) ∨
      (step = .clear ∧ r.edit step = (.cleared, r.clear)) := by
  cases step with
  | clear => exact .inr (.inr ⟨rfl, rfl⟩)
  | add stops =>
    cases hadd : r.add stops with
    | error e => exact .inr (.inl ⟨stops, e, rfl, hadd, by simp [edit, hadd]⟩)
    | ok added =>
      obtain ⟨index, r'⟩ := added
      exact .inl ⟨stops, index, r', rfl, hadd, by simp [edit, hadd]⟩

theorem valid_new (h : new width maxRows = .ok r) : r.Valid width := by
  unfold new at h
  split at h
  · cases h
    exact ⟨rfl, Nat.min_le_right _ _, Nat.zero_le _⟩
  · cases h

theorem Valid.add (hr : r.Valid width) (h : r.add stops = .ok (index, r')) : r'.Valid width := by
  obtain ⟨-, hroom, -, rfl⟩ := add_eq_ok_iff.mp h
  exact ⟨hr.width_eq, hr.maxRows_le, by simpa using Nat.succ_le_of_lt hroom⟩

theorem Valid.edit (hr : r.Valid width) (step : Edit) : (r.edit step).2.Valid width := by
  obtain ⟨_, _, r', -, hadd, h⟩ | ⟨_, _, -, -, h⟩ | ⟨-, h⟩ := r.edit_cases step
  · rw [h]
    exact hr.add hadd
  · rw [h]
    exact hr
  · rw [h]
    exact ⟨hr.width_eq, hr.maxRows_le, Nat.zero_le _⟩

/-- The number of a row that was added fits seven bits. -/
theorem Valid.toNat_index (hr : r.Valid width) (h : r.add stops = .ok (index, r')) :
    index.toNat = r.rows.size ∧ index.toNat < addressable := by
  obtain ⟨-, hroom, rfl, -⟩ := add_eq_ok_iff.mp h
  have hlt : r.rows.size < addressable := Nat.lt_of_lt_of_le hroom hr.maxRows_le
  have htoNat : r.rows.size.toUInt32.toNat = r.rows.size :=
    UInt32.toNat_ofNat_of_lt' (Nat.lt_trans hlt (by decide))
  rw [htoNat]
  exact ⟨rfl, hlt⟩

/-! ## Runs -/

theorem Valid.edits (hr : r.Valid width) (steps : List Edit) : (r.edits steps).Valid width := by
  induction steps generalizing r with
  | nil => exact hr
  | cons step rest ih => exact ih (hr.edit step)

/-- Additions, successful or not, leave the rows that are there in place. -/
theorem prefix_edits_add (r : GradientRamps) (more : List (List ColorStop)) :
    r.toList <+: (r.edits (more.map .add)).toList := by
  induction more generalizing r with
  | nil => exact List.prefix_rfl
  | cons stops rest ih =>
    refine .trans ?_ (ih (r.edit (.add stops)).2)
    obtain ⟨_, _, r', hstep, hadd, h⟩ | ⟨_, _, -, -, h⟩ | ⟨hstep, -⟩ := r.edit_cases (.add stops)
    · cases hstep
      rw [h, toList_add hadd]
      exact List.prefix_append _ _
    · have hsame : (r.edit (.add stops)).2 = r := congrArg Prod.snd h
      exact ⟨[], by rw [List.append_nil, hsame]⟩
    · cases hstep

/-- A row that was added is found under its number after any more additions. -/
theorem Valid.exists_row_of_add (hr : r.Valid width) (h : r.add stops = .ok (index, r'))
    (more : List (List ColorStop)) :
    ∃ colors, (r'.edits (more.map .add)).row index = .ok colors ∧
      colors.toArray = bakedRow width stops := by
  rw [exists_row_iff]
  have hget : r'.toList[index.toNat]? = some (bakedRow width stops) := by
    rw [toList_add h, (hr.toNat_index h).1, ← length_toList, List.getElem?_concat_length, hr.width_eq]
  have hlt : index.toNat < r'.toList.length := (List.getElem?_eq_some_iff.mp hget).1
  obtain ⟨rest, hrest⟩ := prefix_edits_add r' more
  rw [← hrest, List.getElem?_append_left hlt]
  exact hget

end TileCompositor.GradientRamps
