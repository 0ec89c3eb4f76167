import TileCompositor.Proofs.Binary32.Order
import TileCompositor.Proofs.Gradient.Stops
/-!
# Baked rows as piecewise-linear curves

The columns of a baked row have offsets that ascend from zero to one, and each has the colour that the
piecewise-linear curve through the stops has there: that of the first stop up to it, that of the last
stop beyond all, and on the way from one stop to the next the mixture of both, unless there is no way
to speak of. The search for the segment looks at its end only. Since it passes every stop before the
first one that is not below the offset, it finds the segment whose start is below it, and what the
offset has made of the way is between zero and one.

Results:
* `PiecewiseLinear`, `piecewiseLinear_iff`: the curve, and that its colours are those of the stops.
* `OnSegment.share`: offsets are on the way from the start of their segment to its end.
* `columnOffset_mono`: the offsets of the columns.
* `baked_piecewise`: the row.
-/
namespace TileCompositor
open Binary32

variable {stops rest : List ColorStop} {a b : ColorStop} {u : Float32} {c : Color} {k : Nat} {v : ℚ}

/-! ## The curve -/

/-- Stop number `k + 1` is `b`, the first one that is not below `u`, and the one before it is `a`. -/
structure OnSegment (stops : List ColorStop) (u : Float32) (k : Nat) (a b : ColorStop) : Prop where
  start : stops[k]? = some a
  finish : stops[k + 1]? = some b
  reached : u ≤ b.offset
  passed : ∀ j ≤ k, ∀ stop, stops[j]? = some stop → ¬ u ≤ stop.offset

/-- The part that `u` has made of the way from one stop to another. -/
def ColorStop.share (a b : ColorStop) (u : Float32) : Float32 := (u - a.offset) / (b.offset - a.offset)

/-- What the colour at `u` is on the curve through the stops. -/
structure PiecewiseLinear (stops : List ColorStop) (u : Float32) (c : Color) : Prop where
  before (first : ColorStop) (get : stops[0]? = some first) (le : u ≤ first.offset) : c = first.color
  beyond (last : ColorStop) (get : stops.getLast? = some last) (gt : ∀ stop ∈ stops, stop.offset < u) :
    c = last.color
  /-- A segment of no length to speak of shows its end. -/
  between (k : Nat) (a b : ColorStop) (segment : OnSegment stops u k a b) :
    c = if b.offset - a.offset < 1e-9 then b.color else a.color.lerp b.color (a.share b u)

theorem not_le_of_offset_lt (h : a.offset < u) : ¬ u ≤ a.offset := fun hle => not_lt_of_le hle h

/-- Where the first stop is not passed, there is nothing but its colour. -/
theorem piecewiseLinear_start (h : u ≤ a.offset) :
    PiecewiseLinear (a :: rest) u c ↔ c = a.color := by
  constructor
  · intro hc
    exact hc.before a rfl h
  · rintro rfl
    refine ⟨fun first get _ => ?_, fun last _ gt => ?_, fun k a' b segment => ?_⟩
    · cases get
      rfl
    · exact absurd h (not_le_of_offset_lt (gt a List.mem_cons_self))
    · exact absurd h (segment.passed 0 k.zero_le a rfl)

/-- Beyond a stop that is alone its colour is held. -/
theorem piecewiseLinear_end (h : a.offset < u) : PiecewiseLinear [a] u c ↔ c = a.color := by
  constructor
  · intro hc
    refine hc.beyond a rfl fun stop hmem => ?_
    rwa [List.mem_singleton.mp hmem]
  · rintro rfl
    refine ⟨fun first get le => ?_, fun last get _ => ?_, fun k a' b segment => ?_⟩
    · cases get
      rfl
    · cases get
      rfl
    · cases segment.finish

/-- Between two stops at the head of the list they decide alone. -/
theorem piecewiseLinear_segment (ha : a.offset < u) (hb : u ≤ b.offset) :
    PiecewiseLinear (a :: b :: rest) u c ↔
      c = if b.offset - a.offset < 1e-9 then b.color else a.color.lerp b.color (a.share b u) := by
  have hpassed := not_le_of_offset_lt ha
  constructor
  · intro hc
    refine hc.between 0 a b ⟨rfl, rfl, hb, fun j hj stop get => ?_⟩
    obtain rfl := Nat.le_zero.mp hj
    cases get
    exact hpassed
  · intro hc
    refine ⟨fun first get le => ?_, fun last _ gt => ?_, fun k a' b' segment => ?_⟩
    · cases get
      exact absurd le hpassed
    · exact absurd hb (not_le_of_offset_lt (gt b (List.mem_cons_of_mem a List.mem_cons_self)))
    · cases k with
      | zero =>
        cases segment.start
        cases segment.finish
        exact hc
      | succ k => exact absurd hb (segment.passed 1 (Nat.le_add_left 1 k) b rfl)

/-- Once two stops are passed, the first of them makes no difference. -/
theorem piecewiseLinear_passed (ha : a.offset < u) (hb : b.offset < u) :
    PiecewiseLinear (a :: b :: rest) u c ↔ PiecewiseLinear (b :: rest) u c := by
  have hpassed := not_le_of_offset_lt hb
  constructor
  · intro hc
    refine ⟨fun first get le => ?_, fun last get gt => ?_, fun k a' b' segment => ?_⟩
    · cases get
      exact absurd le hpassed
    · refine hc.beyond last ?_ (List.forall_mem_cons.mpr ⟨ha, gt⟩)
      rwa [List.getLast?_cons_cons]
    · refine hc.between (k + 1) a' b' ⟨segment.start, segment.finish, segment.reached, fun j hj stop get => ?_⟩
      cases j with
      | zero =>
        cases get
        exact not_le_of_offset_lt ha
      | succ j => exact segment.passed j (Nat.le_of_succ_le_succ hj) stop get
  · intro hc
    refine ⟨fun first get le => ?_, fun last get gt => ?_, fun k a' b' segment => ?_⟩
    · cases get
      exact absurd le (not_le_of_offset_lt ha)
    · rw [List.getLast?_cons_cons] at get
      exact hc.beyond last get (List.forall_mem_cons.mp gt).2
    · cases k with
      | zero =>
        cases segment.finish
        exact absurd segment.reached hpassed
      | succ k =>
        refine hc.between k a' b' ⟨segment.start, segment.finish, segment.reached, fun j hj stop get => ?_⟩
        exact segment.passed (j + 1) (Nat.succ_le_succ hj) stop get

/-- The search along the stops follows the curve, whatever the offsets are as long as they are
numbers. -/
theorem piecewiseLinear_colorBetween (hu : Denotes u v)
    (hstops : ∀ stop ∈ a :: rest, stop.offset.isFinite = true) (ha : a.offset < u) :
    PiecewiseLinear (a :: rest) u c ↔ c = colorBetween a u rest := by
  -- along the stops, what stays is that the one in front is below `u`
  induction rest generalizing a with
  | nil => exact piecewiseLinear_end ha
  | cons b rest ih =>
    rw [colorBetween]
    by_cases hb : u ≤ b.offset
    · rw [if_pos hb]
      exact piecewiseLinear_segment ha hb
    · obtain ⟨q, hq⟩ := isFinite_iff.mp (hstops b (List.mem_cons_of_mem a List.mem_cons_self))
      have hlt : b.offset < u := by
        rw [hu.le_iff hq, not_le] at hb
        exact (hq.lt_iff hu).mpr hb
      rw [if_neg hb, piecewiseLinear_passed ha hlt]
      exact ih (List.forall_mem_cons.mp hstops).2 hlt

/-- There is one colour on the curve, and it is the one that is baked. -/
theorem piecewiseLinear_iff (hu : Denotes u v) (hstops : ∀ stop ∈ stops, stop.offset.isFinite = true)
    (hne : stops ≠ []) : PiecewiseLinear stops u c ↔ c = colorAt u stops := by
  cases stops with
  | nil => exact absurd rfl hne
  | cons first rest =>
    rw [colorAt]
    by_cases hfirst : u ≤ first.offset
    · rw [if_pos hfirst]
      exact piecewiseLinear_start hfirst
    · obtain ⟨q, hq⟩ := isFinite_iff.mp (hstops first List.mem_cons_self)
      rw [if_neg hfirst]
      rw [hu.le_iff hq, not_le] at hfirst
      exact piecewiseLinear_colorBetween hu hstops ((hq.lt_iff hu).mpr hfirst)

/-! ## Segments -/

/-- On a segment between accepted stops the divisor is positive and the part between zero and one. -/
theorem OnSegment.share (h : OnSegment stops u k a b) (hu : DenotesUnit u v) (hstops : Ascending 0 stops) :
    0.0 < b.offset - a.offset ∧ Scalar.InUnit (a.share b u) := by
  obtain ⟨hoffsets, -⟩ := ascending_iff.mp hstops
  obtain ⟨-, p, ha, -⟩ := hoffsets a (List.mem_of_getElem? h.start)
  obtain ⟨-, q, hb, -⟩ := hoffsets b (List.mem_of_getElem? h.finish)
  have hpv : p < v := by
    have hnot := h.passed k le_rfl a h.start
    rwa [hu.denotes.le_iff ha.denotes, not_le] at hnot
  have hvq : v ≤ q := (hu.denotes.le_iff hb.denotes).mp h.reached
  constructor
  · rw [denotes_zero.lt_iff (hb.sub ha (hpv.le.trans hvq)).denotes]
    exact (nearest_sub_pos ha.denotes.representable hb.denotes.representable).mpr (hpv.trans_le hvq)
  · exact inUnit_iff.mpr ⟨_, denotesUnit_share hu ha hb hpv hvq⟩

namespace GradientRamps
variable {width maxRows : Nat} {fresh added r : GradientRamps} {before : List Edit} {index : UInt32}

/-! ## Rows -/

/-- The offset of a column in a row of the given width. -/
def columnOffset (width i : Nat) : Float32 := Scalar.ofNat i / Scalar.ofNat (width - 1)

/-- The offsets of the columns ascend. -/
theorem columnOffset_mono (hlast : r.last ≤ 2 ^ 24) {i j : Nat} (hij : i ≤ j) (hj : j ≤ r.last) :
    columnOffset r.width i ≤ columnOffset r.width j := by
  have hi := denotesUnit_column hlast (hij.trans hj)
  have hj := denotesUnit_column hlast hj
  refine (hi.denotes.le_iff hj.denotes).mpr (nearest_mono ?_)
  exact div_le_div_of_nonneg_right (by exact_mod_cast hij) (Nat.cast_nonneg _)

/-- Of a row that was added, each column has the one colour that the piecewise-linear curve through
its stops has at the offset of the column, as long as the columns can be counted. These offsets ascend
from zero to one, and on every segment the part that they make of the way is between zero and one
too. -/
theorem baked_piecewise (hnew : new width maxRows = .ok fresh)
    (hadd : (fresh.edits before).add stops = .ok (index, added)) (after : List (List ColorStop))
    (hwidth : width ≤ 2 ^ 24) :
    ∃ colors, (added.edits (after.map .add)).rowColors index = .ok colors ∧ colors.size = width ∧
      ∀ i < width,
        let u := columnOffset width i
        Scalar.InUnit u ∧ (∀ j < width, i ≤ j → u ≤ columnOffset width j) ∧
        (∃ c, colors[i]? = some c ∧ ∀ d, PiecewiseLinear stops u d ↔ d = c) ∧
        ∀ k a b, OnSegment stops u k a b → 0.0 < b.offset - a.offset ∧ Scalar.InUnit (a.share b u) := by
  obtain ⟨rfl, hramp⟩ := hasRamp_of_add hnew hadd after
  generalize added.edits (after.map .add) = r at hramp hwidth ⊢
  have hlast : r.last ≤ 2 ^ 24 := (Nat.sub_le _ _).trans hwidth
  obtain ⟨hascending, hne⟩ := ascending_of_checkStops hramp.accepted
  have hfinite (stop : ColorStop) (hmem : stop ∈ stops) : stop.offset.isFinite = true := by
    obtain ⟨-, q, hq, -⟩ := (ascending_iff.mp hascending).1 stop hmem
    exact hq.denotes.isFinite
  refine ⟨_, hramp.baked, Array.size_ofFn, fun i hi => ?_⟩
  have hcolumn : DenotesUnit (columnOffset r.width i) _ := denotesUnit_column hlast (Nat.le_sub_one_of_lt hi)
  refine ⟨inUnit_iff.mpr ⟨_, hcolumn⟩, fun j hj hij => ?_, ⟨colorAt (columnOffset r.width i) stops, ?_, fun d => ?_⟩,
    fun k a b segment => ?_⟩
  · exact columnOffset_mono hlast hij (Nat.le_sub_one_of_lt hj)
  · rw [bakedRow, Array.getElem?_ofFn, dif_pos hi]
    rfl
  · exact piecewiseLinear_iff hcolumn.denotes hfinite hne
  · exact segment.share hcolumn hascending

/-- The second column is at the end of the first segment, which two stops share: it is the white of
the first of them. -/
theorem hardEnd_piecewise :
    ∃ fresh added colors, new 2 1 = .ok fresh ∧ (fresh.edits []).add hardEnd = .ok (0, added) ∧
      (added.edits []).rowColors 0 = .ok colors ∧
      colors[0]? = some Color.black ∧ colors[1]? = some Color.white := by
  obtain ⟨hnew, hadd⟩ := add_twoColumns hardEnd (by decide +kernel)
  obtain ⟨colors, hrow, -, hcolumns⟩ := baked_piecewise hnew hadd [] (by decide)
  obtain ⟨-, -, ⟨c, hc, hcurve⟩, -⟩ := hcolumns 0 (by decide)
  obtain ⟨-, -, ⟨d, hd, hcurve'⟩, -⟩ := hcolumns 1 (by decide)
  have hblack : c = Color.black := ((hcurve c).mpr rfl).before ⟨0.0, Color.black⟩ rfl (by decide +kernel)
  have hsegment : OnSegment hardEnd (columnOffset 2 1) 0 ⟨0.0, Color.black⟩ ⟨1.0, Color.white⟩ := by
    refine ⟨rfl, rfl, by decide +kernel, fun j hj stop get => ?_⟩
    obtain rfl := Nat.le_zero.mp hj
    cases get
    decide +kernel
  have hwhite : d = Color.white := (((hcurve' d).mpr rfl).between 0 _ _ hsegment).trans (by decide +kernel)
  exact ⟨_, _, colors, hnew, hadd, hrow, hblack ▸ hc, hwhite ▸ hd⟩

end GradientRamps

end TileCompositor
