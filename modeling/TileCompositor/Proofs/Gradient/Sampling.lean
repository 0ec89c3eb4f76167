import TileCompositor.Proofs.Gradient.Baking
import TileCompositor.Proofs.Gradient.Texels
/-!
# Looking up a colour in a row

An offset is brought between zero and one and then between the first and the
last column; the colour is interpolated from the column to its left to the next
one. Whatever the offset is, both columns are in the row. For finite offsets
the factor is between zero and one, so the colours that are found are no others
than those of the row allow, and beyond the ends it is zero, so the end colours
are held.

Results:
* `Extend.inUnit_apply`, `inUnit_factor`: offsets and factors.
* `sample_eq`: the two columns.
* `sample_of_ramp`: the colours that are found in a row.
* `clamp_holds_ends`: the colours beyond the ends.
-/
namespace TileCompositor
open Binary32

/-- The offset in the period is the fraction, rounded. -/
theorem Extend.denotesUnit_periodic {t : Float32} {q : ℚ} (ht : Denotes t q) :
    DenotesUnit (Extend.periodic.apply t) (nearest (Int.fract q)) :=
  Scalar.denotesUnit_sub_floor ht

/-- A finite offset is brought between zero and one. -/
theorem Extend.inUnit_apply (extend : Extend) {t : Float32} (ht : t.isFinite = true) :
    Scalar.InUnit (extend.apply t) := by
  obtain ⟨q, hq⟩ := isFinite_iff.mp ht
  cases extend with
  | clamp =>
    exact inUnit_iff.mpr ⟨_, Scalar.denotes_clamp hq denotes_zero denotes_one,
      le_min (le_max_right _ _) zero_le_one, min_le_right _ _⟩
  | periodic => exact inUnit_iff.mpr ⟨_, denotesUnit_periodic hq⟩

namespace GradientRamps
variable {r : GradientRamps} {index : UInt32} {x t : Float32} {extend : Extend} {u v : ℚ}

/-! ## Columns -/

/-- A position in the row has the column of its whole part to the left. -/
theorem leftColumn_eq (hlast : r.last ≤ 2 ^ 24) (hx : Denotes x v) (h0 : 0 ≤ v) (h1 : v ≤ r.last) :
    r.leftColumn x = ⌊v⌋₊ := by
  have hfloor : max (⌊v⌋ : ℚ) 0 = (⌊v⌋₊ : ℕ) := by
    rw [max_eq_left (by exact_mod_cast Int.floor_nonneg.mpr h0)]
    exact (natCast_floor_eq_intCast_floor h0).symm
  have hmax := Scalar.denotes_maxNum (Scalar.denotes_floor hx) denotes_zero
  rw [hfloor] at hmax
  have hle : ⌊v⌋₊ ≤ r.last := Nat.floor_le_of_le h1
  have hbig : ((⌊v⌋₊ : ℕ) : ℚ) < 2 ^ 64 := by exact_mod_cast (by omega : ⌊v⌋₊ < 2 ^ 64)
  rw [leftColumn, Scalar.toNatClamped_eq hmax hbig, Nat.floor_natCast]
  exact min_eq_left hle

/-- What is left of a position after its column. -/
theorem denotesUnit_rest (hv : ⌊v⌋₊ ≤ 2 ^ 24) (hx : Denotes x v) (h0 : 0 ≤ v) :
    DenotesUnit (x - Scalar.ofNat ⌊v⌋₊) (nearest (v - ⌊v⌋₊)) := by
  have hrest : 0 ≤ v - ⌊v⌋₊ := sub_nonneg.mpr (Nat.floor_le h0)
  have hone : nearest (v - ⌊v⌋₊) ≤ 1 :=
    nearest_le representable_one (by linarith [Nat.lt_floor_add_one v])
  exact ⟨hx.sub (Scalar.denotes_ofNat_of_le hv) (abs_nearest_lt_of_unit hrest hone),
    nearest_nonneg hrest, hone⟩

/-- An offset between zero and one as a position in the row. -/
theorem denotes_position (hlast : r.last ≤ 2 ^ 24) (hx : DenotesUnit x u) :
    Denotes (x * Scalar.ofNat r.last) (nearest (u * r.last)) ∧ 0 ≤ nearest (u * r.last) ∧
      nearest (u * r.last) ≤ r.last := by
  have hcount := Scalar.denotes_ofNat_of_le hlast
  have h0 : 0 ≤ nearest (u * r.last) := nearest_nonneg (mul_nonneg hx.nonneg (Nat.cast_nonneg _))
  have h1 : nearest (u * r.last) ≤ r.last :=
    nearest_le hcount.representable (mul_le_of_le_one_left (Nat.cast_nonneg _) hx.le_one)
  refine ⟨hx.denotes.mul hcount ?_, h0, h1⟩
  have hcast : (r.last : ℚ) ≤ 2 ^ 24 := by exact_mod_cast hlast
  rw [abs_of_nonneg h0]
  exact h1.trans_lt (hcast.trans_lt (by norm_num))

/-- An offset that is not above zero is held at the first column. -/
theorem denotes_position_start (hlast : r.last ≤ 2 ^ 24) (ht : Denotes t u) (hu : u ≤ 0) :
    Denotes (Extend.clamp.apply t * Scalar.ofNat r.last) (0 : ℕ) := by
  have hclamp := Scalar.denotes_clamp ht denotes_zero denotes_one
  rw [max_eq_right hu, min_eq_left zero_le_one] at hclamp
  rw [Nat.cast_zero]
  exact denotes_zero_mul hclamp (Scalar.denotes_ofNat_of_le hlast)

/-- One that is not below one is held at the last column. -/
theorem denotes_position_end (hlast : r.last ≤ 2 ^ 24) (ht : Denotes t u) (hu : 1 ≤ u) :
    Denotes (Extend.clamp.apply t * Scalar.ofNat r.last) r.last := by
  have hcount := Scalar.denotes_ofNat_of_le hlast
  have hclamp := Scalar.denotes_clamp ht denotes_zero denotes_one
  rw [max_eq_left (zero_le_one.trans hu), min_eq_right hu] at hclamp
  have hproduct := hclamp.mul_exact hcount (by rw [one_mul]; exact hcount.isValue)
  rwa [one_mul] at hproduct

/-- The factor between the two columns of an offset. -/
def factor (r : GradientRamps) (t : Float32) (extend : Extend) : Float32 :=
  extend.apply t * Scalar.ofNat r.last - Scalar.ofNat (r.leftColumn (extend.apply t * Scalar.ofNat r.last))

theorem inUnit_factor (hlast : r.last ≤ 2 ^ 24) (ht : t.isFinite = true) :
    Scalar.InUnit (r.factor t extend) := by
  obtain ⟨u, hu⟩ := inUnit_iff.mp (extend.inUnit_apply ht)
  obtain ⟨hx, h0, h1⟩ := denotes_position hlast hu
  have hcolumn := leftColumn_eq hlast hx h0 h1
  have hle : ⌊nearest (u * r.last)⌋₊ ≤ r.last := Nat.floor_le_of_le h1
  rw [factor, hcolumn]
  exact inUnit_iff.mpr ⟨_, denotesUnit_rest (hle.trans hlast) hx h0⟩

/-- At a column the factor is zero. -/
theorem columns_of_whole (hlast : r.last ≤ 2 ^ 24) {n : ℕ} (hn : n ≤ r.last)
    (hx : Denotes (extend.apply t * Scalar.ofNat r.last) n) :
    r.leftColumn (extend.apply t * Scalar.ofNat r.last) = n ∧ Denotes (r.factor t extend) 0 := by
  have hcolumn := leftColumn_eq hlast hx (Nat.cast_nonneg n) (by exact_mod_cast hn)
  rw [Nat.floor_natCast] at hcolumn
  refine ⟨hcolumn, ?_⟩
  rw [factor, hcolumn]
  exact denotes_sub_self hx (Scalar.denotes_ofNat_of_le (hn.trans hlast))

theorem leftColumn_le (r : GradientRamps) (x : Float32) : r.leftColumn x ≤ r.last := Nat.min_le_right _ _

/-! ## Rows -/

theorem getElem?_slice {k i : ℕ} (hi : i < r.width) : (r.slice k)[i]? = r.texels[k * r.width + i]? := by
  rw [slice, Array.getElem?_extract]
  split
  · rfl
  · next hout => exact (Array.getElem?_eq_none_iff.mpr (by omega)).symm

/-- A lookup interpolates between the texels of two columns of the row. -/
theorem sample_eq (h : index.toNat < r.rows.size) (t : Float32) (extend : Extend) :
    let left := r.leftColumn (extend.apply t * Scalar.ofNat r.last)
    ∃ a b, r.texels[index.toNat * r.width + left]? = some a ∧
      r.texels[index.toNat * r.width + min (left + 1) r.last]? = some b ∧
      r.sample index t extend = .ok (a.lerp b (r.factor t extend)) := by
  intro left
  obtain ⟨row, hrow⟩ := exists_row_ok_iff.mpr h
  have hlt := r.last_lt
  have hleft : left ≤ r.last := r.leftColumn_le _
  obtain ⟨-, hslice⟩ := rowColors_eq_ok_iff.mp (map_eq_ok_iff.mpr ⟨row, hrow, rfl⟩)
  have texel {i : ℕ} (hi : i < r.width) : r.texels[index.toNat * r.width + i]? = some row[i] := by
    rw [← getElem?_slice hi, ← hslice, Vector.getElem?_toArray, Vector.getElem?_eq_getElem hi]
  refine ⟨_, _, texel (by omega), texel (by omega), ?_⟩
  rw [sample, hrow]
  rfl

/-- A lookup reads an offset only as it is in the domain of the ramp. -/
theorem sample_congr (r : GradientRamps) (index : UInt32) {t' : Float32}
    (h : extend.apply t' = extend.apply t) : r.sample index t' extend = r.sample index t extend := by
  simp only [sample, sampleRow, h]

/-! ## Baked rows -/

/-- A row of the store was baked from stops that it accepts. -/
structure HasRamp (r : GradientRamps) (index : UInt32) (stops : List ColorStop) : Prop where
  accepted : checkStops stops = .ok ()
  baked : r.rowColors index = .ok (bakedRow r.width stops)

/-- So was every row that was added, until the store is cleared. -/
theorem hasRamp_of_add {width maxRows : ℕ} {fresh added : GradientRamps} {before : List Edit}
    {stops : List ColorStop} (hnew : new width maxRows = .ok fresh)
    (hadd : (fresh.edits before).add stops = .ok (index, added)) (after : List (List ColorStop)) :
    (added.edits (after.map .add)).width = width ∧ (added.edits (after.map .add)).HasRamp index stops := by
  have hvalid := (valid_new hnew).edits before
  have hwidth := ((hvalid.add hadd).edits (after.map .add)).width_eq
  obtain ⟨row, hrow, hcolors⟩ := hvalid.exists_row_of_add hadd after
  refine ⟨hwidth, (add_eq_ok_iff.mp hadd).1, map_eq_ok_iff.mpr ⟨row, hrow, ?_⟩⟩
  rw [hcolors, hwidth]

/-- The colour of column `i` of a row that is baked from `stops`. -/
def columnColor (r : GradientRamps) (stops : List ColorStop) (i : ℕ) : Color :=
  colorAt (Scalar.ofNat i / Scalar.ofNat r.last) stops

/-- The offset of a column. -/
theorem denotesUnit_column (hlast : r.last ≤ 2 ^ 24) {i : ℕ} (hi : i ≤ r.last) :
    DenotesUnit (Scalar.ofNat i / Scalar.ofNat r.last) (nearest (i / r.last)) := by
  have hpos : (0 : ℚ) < r.last := by
    have hwidth := r.two_le_width
    exact_mod_cast (by unfold last; omega : 0 < r.last)
  have h0 : (0 : ℚ) ≤ i / r.last := div_nonneg (Nat.cast_nonneg i) hpos.le
  have h1 : nearest ((i : ℚ) / r.last) ≤ 1 :=
    nearest_le representable_one ((div_le_one hpos).mpr (by exact_mod_cast hi))
  exact ⟨(Scalar.denotes_ofNat_of_le (hi.trans hlast)).div (Scalar.denotes_ofNat_of_le hlast) hpos.ne'
    (abs_nearest_lt_of_unit h0 h1), nearest_nonneg h0, h1⟩

namespace HasRamp
variable {stops : List ColorStop} {c : Color} (hramp : r.HasRamp index stops)
include hramp

theorem lt_size : index.toNat < r.rows.size := (rowColors_eq_ok_iff.mp hramp.baked).1

/-- A lookup interpolates between the colours of two columns. -/
theorem sample_eq (t : Float32) (extend : Extend) :
    let left := r.leftColumn (extend.apply t * Scalar.ofNat r.last)
    r.sample index t extend =
      .ok ((r.columnColor stops left).lerp (r.columnColor stops (min (left + 1) r.last))
        (r.factor t extend)) := by
  intro left
  have hlt := r.last_lt
  have hleft : left ≤ r.last := r.leftColumn_le _
  have texel {i : ℕ} (hi : i < r.width) :
      r.texels[index.toNat * r.width + i]? = some (r.columnColor stops i) := by
    rw [← getElem?_slice hi, ← (rowColors_eq_ok_iff.mp hramp.baked).2, bakedRow, Array.getElem?_ofFn,
      dif_pos hi]
    rfl
  obtain ⟨a, b, ha, hb, hsample⟩ := GradientRamps.sample_eq hramp.lt_size t extend
  obtain rfl := Option.some.inj (ha.symm.trans (texel (by omega)))
  obtain rfl := Option.some.inj (hb.symm.trans (texel (by omega)))
  exact hsample

variable (hlast : r.last ≤ 2 ^ 24)
include hlast

theorem inUnit_columnColor (hunit : ∀ stop ∈ stops, stop.color.InUnit) {i : ℕ} (hi : i ≤ r.last) :
    (r.columnColor stops i).InUnit := by
  obtain ⟨hascending, hne⟩ := ascending_of_checkStops hramp.accepted
  exact inUnit_colorAt (denotesUnit_column hlast hi) hascending hne hunit

theorem columnColor_same (hc : c.isFinite = true) (hsame : ∀ stop ∈ stops, (stop.color == c) = true)
    {i : ℕ} (hi : i ≤ r.last) : (r.columnColor stops i == c) = true := by
  obtain ⟨hascending, hne⟩ := ascending_of_checkStops hramp.accepted
  exact colorAt_same (denotesUnit_column hlast hi) hascending hne hc hsame

/-- The first column has the colour of the first stop. -/
theorem columnColor_zero : ∃ first, stops.head? = some first ∧ r.columnColor stops 0 = first.color := by
  obtain ⟨hascending, hne⟩ := ascending_of_checkStops hramp.accepted
  have hu := denotesUnit_column hlast (Nat.zero_le _)
  rw [Nat.cast_zero, zero_div, nearest_zero] at hu
  cases stops with
  | nil => exact absurd rfl hne
  | cons first rest => exact ⟨first, rfl, colorAt_start hu.denotes hascending⟩

/-- The last column has nearly the colour of the stop that is reached at one. -/
theorem close_columnColor_last (hunit : ∀ stop ∈ stops, stop.color.InUnit) :
    ∃ finish, reachedStop 1.0 stops = some finish ∧
      (r.columnColor stops r.last).Close finish.color (2 ^ (-23 : ℤ)) := by
  obtain ⟨hascending, hne⟩ := ascending_of_checkStops hramp.accepted
  have hpos : (r.last : ℚ) ≠ 0 := by
    have hwidth := r.two_le_width
    exact_mod_cast (by unfold last; omega : r.last ≠ 0)
  have hu := (denotesUnit_column hlast le_rfl).denotes
  rw [div_self hpos, nearest_of_representable representable_one] at hu
  rw [columnColor, hu.eq denotes_one one_ne_zero]
  exact close_colorAt_end hascending hne hunit

/-- Stops with colours between zero and one give no others. -/
theorem inUnit_sample (hunit : ∀ stop ∈ stops, stop.color.InUnit) (ht : t.isFinite = true)
    (hc : r.sample index t extend = .ok c) : c.InUnit := by
  obtain rfl := Except.ok.inj ((hramp.sample_eq t extend).symm.trans hc)
  exact (hramp.inUnit_columnColor hlast hunit (r.leftColumn_le _)).lerp
    (hramp.inUnit_columnColor hlast hunit (Nat.min_le_right _ _)) (inUnit_factor hlast ht)

/-- Stops of one colour give no other one. -/
theorem sample_same {d : Color} (hd : d.isFinite = true) (hsame : ∀ stop ∈ stops, (stop.color == d) = true)
    (ht : t.isFinite = true) (hc : r.sample index t extend = .ok c) : (c == d) = true := by
  have hfactor : Scalar.InUnit (r.factor t extend) := inUnit_factor hlast ht
  obtain ⟨q, hq⟩ := inUnit_iff.mp hfactor
  obtain rfl := Except.ok.inj ((hramp.sample_eq t extend).symm.trans hc)
  exact Color.lerp_same hd (hramp.columnColor_same hlast hd hsame (r.leftColumn_le _))
    (hramp.columnColor_same hlast hd hsame (Nat.min_le_right _ _)) hq.denotes.isFinite

/-- Where the offset leads to a column, its colour is found. -/
theorem sample_column (hunit : ∀ stop ∈ stops, stop.color.InUnit) {n : ℕ} (hn : n ≤ r.last)
    (hx : Denotes (extend.apply t * Scalar.ofNat r.last) n) (hc : r.sample index t extend = .ok c) :
    (c == r.columnColor stops n) = true := by
  obtain ⟨hleft, hfactor⟩ := columns_of_whole hlast hn hx
  have hsample := hramp.sample_eq t extend
  rw [hleft] at hsample
  obtain rfl := Except.ok.inj (hsample.symm.trans hc)
  exact Color.lerp_start (hramp.inUnit_columnColor hlast hunit hn)
    (hramp.inUnit_columnColor hlast hunit (Nat.min_le_right _ _)) hfactor

end HasRamp

/-- Of a row that was added, a lookup reads two columns and no others, whatever
the offset is. Finite offsets are brought between zero and one, and the factor
between the columns is so too, as long as the columns can be counted. Then the
colour that is found is between zero and one if those of the stops are, and it
is that of the stops if they have the same. -/
theorem sample_of_ramp {width maxRows : ℕ} {fresh added : GradientRamps} {before : List Edit}
    {stops : List ColorStop} (hnew : new width maxRows = .ok fresh)
    (hadd : (fresh.edits before).add stops = .ok (index, added)) (after : List (List ColorStop))
    (t : Float32) (extend : Extend) :
    let r := added.edits (after.map .add)
    let x := extend.apply t * Scalar.ofNat (width - 1)
    let left := r.leftColumn x
    let right := min (left + 1) (width - 1)
    let factor := x - Scalar.ofNat left
    ∃ a b, left ≤ width - 1 ∧ right ≤ width - 1 ∧
      r.texels[index.toNat * width + left]? = some a ∧
      r.texels[index.toNat * width + right]? = some b ∧
      r.sample index t extend = .ok (a.lerp b factor) ∧
      (width ≤ 2 ^ 24 → t.isFinite = true →
        Scalar.InUnit (extend.apply t) ∧ Scalar.InUnit factor ∧
        ((∀ stop ∈ stops, stop.color.InUnit) → (a.lerp b factor).InUnit) ∧
        ∀ c, c.isFinite = true → (∀ stop ∈ stops, (stop.color == c) = true) →
          (a.lerp b factor == c) = true) := by
  obtain ⟨rfl, hramp⟩ := hasRamp_of_add hnew hadd after
  intro r x left right factor
  obtain ⟨a, b, ha, hb, hsample⟩ := sample_eq hramp.lt_size t extend
  refine ⟨a, b, r.leftColumn_le x, Nat.min_le_right _ _, ha, hb, hsample, fun hwidth ht => ?_⟩
  have hlast : r.last ≤ 2 ^ 24 := (Nat.sub_le _ _).trans hwidth
  exact ⟨extend.inUnit_apply ht, inUnit_factor hlast ht,
    fun hunit => hramp.inUnit_sample hlast hunit ht hsample,
    fun c hc hsame => hramp.sample_same hlast hc hsame ht hsample⟩

/-- An empty store for one row of two columns. -/
def twoColumns : GradientRamps where
  width := 2
  two_le_width := Nat.le_refl 2
  maxRows := 1

theorem add_twoColumns (stops : List ColorStop) (h : checkStops stops = .ok ()) :
    new 2 1 = .ok twoColumns ∧
      (twoColumns.edits []).add stops = .ok (0, { twoColumns with rows := #[twoColumns.bake stops] }) :=
  ⟨rfl, add_eq_ok_iff.mpr ⟨h, Nat.one_pos, rfl, rfl⟩⟩

/-- Just below zero the periodic offset is rounded to one; the lookup stays in
the row and in the range. -/
theorem sample_below_zero :
    ∃ fresh added c, new 2 1 = .ok fresh ∧
      (fresh.edits []).add blackToWhite.stops = .ok (0, added) ∧
      (added.edits []).sample 0 (-1e-10) .periodic = .ok c ∧ c.InUnit := by
  obtain ⟨hnew, hadd⟩ := add_twoColumns blackToWhite.stops (by decide +kernel)
  obtain ⟨a, b, -, -, -, -, hsample, hfinite⟩ := sample_of_ramp hnew hadd [] (-1e-10) .periodic
  obtain ⟨-, -, hunit, -⟩ := hfinite (by decide) (by decide +kernel)
  exact ⟨_, _, _, hnew, hadd, hsample, hunit (by decide +kernel)⟩

/-! ## The ends -/

/-- Beyond the ends of the offsets the colours at the ends of a row are held:
before zero that of the first stop, and after one nearly that of the first stop
that is not below one, or of the last stop if there is none. That is the last
stop unless one before it has the offset one too. -/
theorem clamp_holds_ends {width maxRows : ℕ} {fresh added : GradientRamps} {before : List Edit}
    {stops : List ColorStop} (hnew : new width maxRows = .ok fresh)
    (hadd : (fresh.edits before).add stops = .ok (index, added)) (after : List (List ColorStop))
    (hwidth : width ≤ 2 ^ 16) (hunit : ∀ stop ∈ stops, stop.color.InUnit) (ht : t.isFinite = true) :
    ∃ first finish c, stops.head? = some first ∧ reachedStop 1.0 stops = some finish ∧
      (added.edits (after.map .add)).sample index t .clamp = .ok c ∧
      (t ≤ 0.0 → (c == first.color) = true) ∧
      (1.0 ≤ t → c.Close finish.color (2 ^ (-20 : ℤ))) ∧
      ((∀ stop ∈ stops.dropLast, ¬ 1.0 ≤ stop.offset) → stops.getLast? = some finish) := by
  obtain ⟨rfl, hramp⟩ := hasRamp_of_add hnew hadd after
  have hlast : (added.edits (after.map .add)).last ≤ 2 ^ 24 :=
    (Nat.sub_le _ _).trans (hwidth.trans (by norm_num))
  obtain ⟨q, hq⟩ := isFinite_iff.mp ht
  have hsample := hramp.sample_eq t .clamp
  obtain ⟨first, hfirst, hzero⟩ := hramp.columnColor_zero hlast
  obtain ⟨finish, hfinish, hclose⟩ := hramp.close_columnColor_last hlast hunit
  refine ⟨first, finish, _, hfirst, hfinish, hsample, fun hle => ?_, fun hle => ?_, fun hbelow => ?_⟩
  · have hx := denotes_position_start hlast hq ((hq.le_iff denotes_zero).mp hle)
    rw [← hzero]
    exact hramp.sample_column hlast hunit (Nat.zero_le _) hx hsample
  · have hx := denotes_position_end hlast hq ((denotes_one.le_iff hq).mp hle)
    have hlastColumn := hramp.sample_column hlast hunit le_rfl hx hsample
    exact (hclose.of_beq hlastColumn).mono (by norm_num)
  · rw [← reachedStop_eq_getLast hbelow]
    exact hfinish

/-- From black to white, with a hard edge to red at the end. -/
def hardEnd : List ColorStop := [⟨0.0, Color.black⟩, ⟨1.0, Color.white⟩, ⟨1.0, Color.red⟩]

/-- Beyond the end there is the white before the edge. -/
theorem hardEnd_held :
    ∃ fresh added c, new 2 1 = .ok fresh ∧ (fresh.edits []).add hardEnd = .ok (0, added) ∧
      (added.edits []).sample 0 2.0 .clamp = .ok c ∧ c.Close Color.white (2 ^ (-20 : ℤ)) := by
  obtain ⟨hnew, hadd⟩ := add_twoColumns hardEnd (by decide +kernel)
  obtain ⟨first, finish, c, -, hfinish, hsample, -, hend, -⟩ :=
    clamp_holds_ends hnew hadd [] (t := 2.0) (by decide) (by decide +kernel) (by decide +kernel)
  have hwhite : reachedStop 1.0 hardEnd = some ⟨1.0, Color.white⟩ := by decide +kernel
  obtain rfl := Option.some.inj (hwhite.symm.trans hfinish)
  exact ⟨_, _, c, hnew, hadd, hsample, hend (by decide +kernel)⟩

/-- It is not the red of the last stop. -/
theorem hardEnd_not_last :
    ∃ fresh added c, new 2 1 = .ok fresh ∧ (fresh.edits []).add hardEnd = .ok (0, added) ∧
      (∀ stop ∈ hardEnd, stop.color.InUnit) ∧ 1.0 ≤ (2.0 : Float32) ∧
      (added.edits []).sample 0 2.0 .clamp = .ok c ∧
      hardEnd.getLast? = some ⟨1.0, Color.red⟩ ∧ ¬ c.Close Color.red (2 ^ (-20 : ℤ)) := by
  obtain ⟨hnew, hadd⟩ := add_twoColumns hardEnd (by decide +kernel)
  have hsample : ({ twoColumns with rows := #[twoColumns.bake hardEnd] } : GradientRamps).sample 0 2.0
      .clamp = .ok Color.white := by decide +kernel
  refine ⟨_, _, Color.white, hnew, hadd, by decide +kernel, by decide +kernel, hsample, rfl, ?_⟩
  rintro ⟨-, ⟨q, hq, p, hp, hle⟩, -, -⟩
  have hp1 : p = 1 := hp.unique denotes_one
  have hq0 : q = 0 := hq.unique denotes_zero
  rw [hp1, hq0] at hle
  norm_num at hle

end GradientRamps

end TileCompositor
