import TileCompositor.Proofs.Coverage.PixelSemantics
import TileCompositor.Proofs.Geometry.Sides
/-!
# Local positions

A vertex carries its position relative to the origin of its rectangle. It is
found by going from the origin to the corner and back, so the corner is at the
size of the rectangle only if the size is found again on the way back, and
otherwise depends on where the rectangle is.

Results:
* `Side.localAt_beq_iff`: the sides along which the far corners are at the size.
* `Side.localAt_beq`, `Side.localAt_beq_neg`: sides of the same and of opposite size.
* `Side.adjacent_localAt`: along a side that is not short for its place.
* `ResolvedInstance.localPosition_beq_iff`: the local positions of a quad.
-/
namespace TileCompositor
open Binary32

namespace Side

/-- The way from the origin to the point at the unit coordinate `u`, after rounding. -/
def localAt (s : Side) (u : Float32) : Float32 := s.origin + s.size * u - s.origin

theorem localAt_one (s : Side) : s.localAt 1.0 = s.leftover := by
  rw [localAt, mul_one_eq]
  rfl

variable {s s' : Side} {u : Float32} {q : ℚ}

/-- The origin is at zero whatever the sizes are. -/
theorem denotes_localAt_zero (hs : s.Placed) : Denotes (s.localAt 0.0) 0 := by
  obtain ⟨p, hp⟩ := isFinite_iff.mp hs.origin
  obtain ⟨q, hq⟩ := isFinite_iff.mp hs.size
  exact denotes_sub_self (denotes_add_zero hp (denotes_mul_zero hq denotes_zero)) hp

/-- The far end is at the size if that is found again. -/
theorem denotes_localAt_one (hkept : s.Regained) (hq : Denotes s.size q) :
    Denotes (s.localAt 1.0) q := by
  rw [localAt_one]
  exact hq.of_beq hkept

theorem localAt_beq_iff (hs : s.Placed) (hu : u = 0.0 ∨ u = 1.0) :
    (s.localAt u == s.size * u) = true ↔ (u = 1.0 → s.Regained) := by
  rcases hu with rfl | rfl
  · obtain ⟨q, hq⟩ := isFinite_iff.mp hs.size
    exact iff_of_true ((denotes_localAt_zero hs).beq (denotes_mul_zero hq denotes_zero))
      fun h => absurd h (by decide)
  · rw [localAt_one, mul_one_eq]
    exact ⟨fun h _ => h, fun h => h rfl⟩

/-- Sides of one size have the same local positions, wherever they are. -/
theorem localAt_beq (hs : s.Placed) (hs' : s'.Placed) (hkept : s.Regained) (hkept' : s'.Regained)
    (hsize : (s'.size == s.size) = true) (hu : u = 0.0 ∨ u = 1.0) :
    (s'.localAt u == s.localAt u) = true := by
  rcases hu with rfl | rfl
  · exact (denotes_localAt_zero hs').beq (denotes_localAt_zero hs)
  · obtain ⟨q, hq⟩ := isFinite_iff.mp hs.size
    exact (denotes_localAt_one hkept' (hq.of_beq hsize)).beq (denotes_localAt_one hkept hq)

/-- Those of opposite sizes have opposite ones. -/
theorem localAt_beq_neg (hs : s.Placed) (hs' : s'.Placed) (hkept : s.Regained) (hkept' : s'.Regained)
    (hsize : (s'.size == -s.size) = true) (hu : u = 0.0 ∨ u = 1.0) :
    (s'.localAt u == -s.localAt u) = true := by
  rcases hu with rfl | rfl
  · have hzero := (denotes_localAt_zero hs).neg
    rw [neg_zero] at hzero
    exact (denotes_localAt_zero hs').beq hzero
  · obtain ⟨q, hq⟩ := isFinite_iff.mp hs.size
    exact (denotes_localAt_one hkept' (hq.neg.of_beq hsize)).beq (denotes_localAt_one hkept hq).neg

/-- Along a side that is at least as long as its origin is far from zero, the far end is at the size
or a neighbour of it, unless the way overflows. -/
theorem adjacent_localAt (hs : s.Placed) (hle : s.origin.abs ≤ s.size.abs) (hu : u = 0.0 ∨ u = 1.0)
    (hfinite : (s.localAt u).isFinite = true) : Adjacent (s.localAt u) (s.size * u) := by
  rcases hu with rfl | rfl
  · obtain ⟨q, hq⟩ := isFinite_iff.mp hs.size
    exact (denotes_localAt_zero hs).adjacent (denotes_mul_zero hq denotes_zero) (noneBetween_self 0)
  · rw [localAt_one] at hfinite ⊢
    rw [mul_one_eq]
    exact adjacent_leftover hs hle hfinite

end Side

/-! ## Corners -/

theorem Corner.unit_x (c : Corner) : c.unit.x = 0.0 ∨ c.unit.x = 1.0 := by
  cases c <;> simp [unit]

theorem Corner.unit_y (c : Corner) : c.unit.y = 0.0 ∨ c.unit.y = 1.0 := by
  cases c <;> simp [unit]

namespace ResolvedInstance
variable {i i' : ResolvedInstance} {record record' : InstanceRecord} {tables tables' : UniformTables}

theorem localPosition_vertex (hi : record.resolve tables = .ok i) (corner : Corner) (half : Half)
    (frame : FrameUniforms) :
    (i.vertex corner half frame).varyings.localPosition =
      ⟨record.rect.horizontal.localAt corner.unit.x, record.rect.vertical.localAt corner.unit.y⟩ := by
  rw [← InstanceRecord.record_of_resolve hi]
  rfl

/-- The corners of a quad are at the size of the rectangle exactly if the size is found again on both
axes. -/
theorem localPosition_beq_size_iff (hi : record.resolve tables = .ok i) (hrect : record.rect.Placed)
    (half : Half) (frame : FrameUniforms) :
    (∀ corner : Corner, ((i.vertex corner half frame).varyings.localPosition ==
      record.rect.size.mulElem corner.unit) = true) ↔
    record.rect.horizontal.Regained ∧ record.rect.vertical.Regained := by
  have haxes (corner : Corner) : ((i.vertex corner half frame).varyings.localPosition ==
      record.rect.size.mulElem corner.unit) = true ↔
      (corner.unit.x = 1.0 → record.rect.horizontal.Regained) ∧
        (corner.unit.y = 1.0 → record.rect.vertical.Regained) := by
    rw [localPosition_vertex hi, Vec2.beq_iff, ← Side.localAt_beq_iff hrect.horizontal corner.unit_x,
      ← Side.localAt_beq_iff hrect.vertical corner.unit_y]
    rfl
  simp only [haxes]
  constructor
  · intro h
    exact ⟨(h .bottomRight).1 rfl, (h .bottomRight).2 rfl⟩
  · rintro ⟨hx, hy⟩ corner
    exact ⟨fun _ => hx, fun _ => hy⟩

/-- The corners of a quad are at the signed size of its rectangle exactly if the
size is found again between the origin and the far corner. That is so if the far
corner is not rounded, and in no other case along a side that is not longer than
its origin is far from zero. Along a side that is not shorter the corners are next
to where they should be. Quads where the size is found again have the same local
positions wherever they are, and a side of opposite size mirrors them. -/
theorem localPosition_beq_iff (hi : record.resolve tables = .ok i) (hrect : record.rect.Placed) :
    (∀ half frame, (∀ corner : Corner, ((i.vertex corner half frame).varyings.localPosition ==
        record.rect.size.mulElem corner.unit) = true) ↔
      record.rect.horizontal.Regained ∧ record.rect.vertical.Regained) ∧
    (∀ s ∈ [record.rect.horizontal, record.rect.vertical],
      (s.ExactFar → s.Regained) ∧ (s.size.abs ≤ s.origin.abs → (s.Regained ↔ s.ExactFar))) ∧
    (∀ corner half frame,
      let p := (i.vertex corner half frame).varyings.localPosition
      (record.rect.origin.x.abs ≤ record.rect.size.x.abs → p.x.isFinite = true →
        Adjacent p.x (record.rect.size.x * corner.unit.x)) ∧
      (record.rect.origin.y.abs ≤ record.rect.size.y.abs → p.y.isFinite = true →
        Adjacent p.y (record.rect.size.y * corner.unit.y))) ∧
    ∀ {record' tables' i'}, InstanceRecord.resolve record' tables' = .ok i' → record'.rect.Placed →
      ∀ corner half half' frame frame',
        let p := (i.vertex corner half frame).varyings.localPosition
        let p' := (i'.vertex corner half' frame').varyings.localPosition
        (record.rect.horizontal.Regained → record'.rect.horizontal.Regained →
          ((record'.rect.size.x == record.rect.size.x) = true → (p'.x == p.x) = true) ∧
          ((record'.rect.size.x == -record.rect.size.x) = true → (p'.x == -p.x) = true)) ∧
        (record.rect.vertical.Regained → record'.rect.vertical.Regained →
          ((record'.rect.size.y == record.rect.size.y) = true → (p'.y == p.y) = true) ∧
          ((record'.rect.size.y == -record.rect.size.y) = true → (p'.y == -p.y) = true)) := by
  have haxis {s : Side} (hs : s.Placed) :
      (s.ExactFar → s.Regained) ∧ (s.size.abs ≤ s.origin.abs → (s.Regained ↔ s.ExactFar)) :=
    ⟨Side.regained_of_exactFar, Side.regained_iff_of_abs_le hs⟩
  refine ⟨fun half frame => localPosition_beq_size_iff hi hrect half frame,
    by simpa using ⟨haxis hrect.horizontal, haxis hrect.vertical⟩, ?_, ?_⟩
  · intro corner half frame
    rw [localPosition_vertex hi]
    exact ⟨fun hle => Side.adjacent_localAt hrect.horizontal hle corner.unit_x,
      fun hle => Side.adjacent_localAt hrect.vertical hle corner.unit_y⟩
  · intro record' tables' i' hi' hrect' corner half half' frame frame'
    rw [localPosition_vertex hi, localPosition_vertex hi']
    constructor
    · intro hkept hkept'
      exact ⟨fun hsize => Side.localAt_beq hrect.horizontal hrect'.horizontal hkept hkept' hsize corner.unit_x,
        fun hsize => Side.localAt_beq_neg hrect.horizontal hrect'.horizontal hkept hkept' hsize corner.unit_x⟩
    · intro hkept hkept'
      exact ⟨fun hsize => Side.localAt_beq hrect.vertical hrect'.vertical hkept hkept' hsize corner.unit_y,
        fun hsize => Side.localAt_beq_neg hrect.vertical hrect'.vertical hkept hkept' hsize corner.unit_y⟩

/-- A card between quarters, and one of opposite width elsewhere. -/
def cardRect : Rect := Rect.ofXYWH 3.5 (-2.25) 10.0 4.0

def mirroredCardRect : Rect := Rect.ofXYWH (-100.25) 7.0 (-10.0) 4.0

theorem exists_resolve_ofRect (rect : Rect) :
    ∃ i, (InstanceRecord.ofRect rect).resolve DrawSettings.onePixel.tables = .ok i := by
  refine InstanceRecord.exists_resolve ?_
  rw [InstanceRecord.MissesTable,
    show (InstanceRecord.ofRect rect).indices = (InstanceRecord.ofRect {}).indices from rfl]
  decide

/-- The corners of the card are at its size, and those of the other one mirror them. -/
theorem localPosition_mirroredCard :
    ∃ i i', (InstanceRecord.ofRect cardRect).resolve DrawSettings.onePixel.tables = .ok i ∧
      (InstanceRecord.ofRect mirroredCardRect).resolve DrawSettings.onePixel.tables = .ok i' ∧
      ∀ corner half frame,
        let p := (ResolvedInstance.vertex i corner half frame).varyings.localPosition
        let p' := (ResolvedInstance.vertex i' corner half frame).varyings.localPosition
        (p == cardRect.size.mulElem corner.unit) = true ∧ (p'.x == -p.x) = true ∧
          (p'.y == p.y) = true := by
  obtain ⟨i, hi⟩ := exists_resolve_ofRect cardRect
  obtain ⟨i', hi'⟩ := exists_resolve_ofRect mirroredCardRect
  have hcard : cardRect.Placed := ⟨by decide +kernel, by decide +kernel, by decide +kernel⟩
  have hmirrored : mirroredCardRect.Placed := ⟨by decide +kernel, by decide +kernel, by decide +kernel⟩
  obtain ⟨hsize, -, -, hother⟩ := localPosition_beq_iff hi hcard
  refine ⟨i, i', hi, hi', fun corner half frame => ?_⟩
  obtain ⟨hx, hy⟩ := hother hi' hmirrored corner half half frame frame
  exact ⟨(hsize half frame).mpr ⟨by decide +kernel, by decide +kernel⟩ corner,
    (hx (by decide +kernel) (by decide +kernel)).2 (by decide +kernel),
    (hy (by decide +kernel) (by decide +kernel)).1 (by decide +kernel)⟩

/-- A square of side 1 at 2^24, where the values are two apart. -/
def farSquare : Rect := Rect.ofXYWH 16777216.0 0.0 1.0 1.0

/-- A strip from 0.1 that is found to be longer than it is, and the one to the left of it that is not. -/
def strip : Rect := Rect.ofXYWH 0.1 0.0 0.2 1.0

def mirroredStrip : Rect := Rect.ofXYWH 0.1 0.0 (-0.2) 1.0

/-- The right corners of the square are at its left ones, and those of the strips do not mirror each
other. -/
theorem localPosition_ne_size :
    (farSquare.Placed ∧ strip.Placed ∧ mirroredStrip.Placed) ∧
    (∃ i, (InstanceRecord.ofRect farSquare).resolve DrawSettings.onePixel.tables = .ok i ∧
      ∀ half frame,
        (ResolvedInstance.vertex i .topRight half frame).varyings.localPosition = ⟨0.0, 0.0⟩) ∧
    ∃ i i', (InstanceRecord.ofRect strip).resolve DrawSettings.onePixel.tables = .ok i ∧
      (InstanceRecord.ofRect mirroredStrip).resolve DrawSettings.onePixel.tables = .ok i' ∧
      ∀ half frame,
        ((ResolvedInstance.vertex i' .topRight half frame).varyings.localPosition.x ==
          -(ResolvedInstance.vertex i .topRight half frame).varyings.localPosition.x) = false := by
  obtain ⟨far, hfar⟩ := exists_resolve_ofRect farSquare
  obtain ⟨i, hi⟩ := exists_resolve_ofRect strip
  obtain ⟨i', hi'⟩ := exists_resolve_ofRect mirroredStrip
  refine ⟨⟨?_, ?_, ?_⟩, ⟨far, hfar, fun half frame => ?_⟩, i, i', hi, hi', fun half frame => ?_⟩
  · exact ⟨by decide +kernel, by decide +kernel, by decide +kernel⟩
  · exact ⟨by decide +kernel, by decide +kernel, by decide +kernel⟩
  · exact ⟨by decide +kernel, by decide +kernel, by decide +kernel⟩
  · rw [localPosition_vertex hfar]
    decide +kernel
  · rw [localPosition_vertex hi, localPosition_vertex hi']
    decide +kernel

end ResolvedInstance

end TileCompositor
