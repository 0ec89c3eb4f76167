import TileCompositor.Geometry.Rect
import TileCompositor.Proofs.Binary32.Neighbours
import TileCompositor.Proofs.Scalar.Whole
/-!
# The sides of a rectangle

Along one axis a rectangle is an origin and a signed size. Its far end is the
rounded sum of the two, so the size that is found between the ends need not be
the one that was given, and the extent that is measured between the edges need
not lead from the lower edge to the upper one.

Results:
* `regained_of_exactFar`, `regained_iff_of_abs_le`: where the size is found again.
* `adjacent_leftover`: a size that is not the smaller part is found again or a neighbour of it.
* `edgeKept_of_nonneg`, `edgeKept_of_exactExtent`, `edgeKept_iff_of_neg`: where the extent leads to
  the upper edge.
* `exactExtent_of_abs_le`: a size that is not the larger part leaves the extent exact.
-/
namespace TileCompositor
open Binary32

/-- A rectangle along one axis. -/
structure Side where
  origin : Float32
  size : Float32

namespace Side

/-- The end opposite to the origin. -/
def far (s : Side) : Float32 := s.origin + s.size

def low (s : Side) : Float32 := Scalar.minNum s.origin s.far

def high (s : Side) : Float32 := Scalar.maxNum s.origin s.far

/-- The size as it is found between the origin and the far end. -/
def leftover (s : Side) : Float32 := s.far - s.origin

/-- The upper edge as it is found from the lower one and the extent. -/
def regrown (s : Side) : Float32 := s.low + (s.high - s.low)

/-- Both ends are finite. -/
structure Placed (s : Side) : Prop where
  origin : s.origin.isFinite = true
  size : s.size.isFinite = true
  far : s.far.isFinite = true

/-- The far end is the sum without rounding. -/
def ExactFar (s : Side) : Prop :=
  ∃ p q, Denotes s.origin p ∧ Denotes s.size q ∧ Denotes s.far (p + q)

/-- The extent between the edges is their difference without rounding. -/
def ExactExtent (s : Side) : Prop :=
  ∃ l h, Denotes s.low l ∧ Denotes s.high h ∧ Denotes (s.high - s.low) (h - l)

def Regained (s : Side) : Prop := (s.leftover == s.size) = true

def EdgeKept (s : Side) : Prop := (s.regrown == s.high) = true

instance (s : Side) : Decidable s.Regained := inferInstanceAs (Decidable (_ = _))

instance (s : Side) : Decidable s.EdgeKept := inferInstanceAs (Decidable (_ = _))

variable {s : Side} {p q : ℚ}

theorem Placed.denotes_far (hs : s.Placed) (hp : Denotes s.origin p) (hq : Denotes s.size q) :
    Denotes s.far (nearest (p + q)) :=
  hp.add hq ((isFinite_add hp hq).mp hs.far)

/-! ## The size between the ends -/

theorem denotes_leftover (hs : s.Placed) (hp : Denotes s.origin p) (hq : Denotes s.size q)
    (hfinite : s.leftover.isFinite = true) :
    Denotes s.leftover (nearest (nearest (p + q) - p)) := by
  have hfar := hs.denotes_far hp hq
  exact hfar.sub hp ((isFinite_sub hfar hp).mp hfinite)

/-- A far end that is not rounded leaves the size as it was. -/
theorem regained_of_exactFar (h : s.ExactFar) : s.Regained := by
  obtain ⟨p, q, hp, hq, hfar⟩ := h
  have hleft := hfar.sub_exact hp (by rw [add_sub_cancel_left]; exact hq.isValue)
  rw [add_sub_cancel_left] at hleft
  exact hleft.beq hq

/-- So does no other one if the size is not the larger part of the sum. -/
theorem regained_iff_of_abs_le (hs : s.Placed) (hle : s.size.abs ≤ s.origin.abs) :
    s.Regained ↔ s.ExactFar := by
  refine ⟨fun h => ?_, regained_of_exactFar⟩
  obtain ⟨p, hp⟩ := isFinite_iff.mp hs.origin
  obtain ⟨q, hq⟩ := isFinite_iff.mp hs.size
  have hfar := hs.denotes_far hp hq
  have hsize : Denotes s.leftover q := hq.of_beq h
  have hleft := denotes_leftover hs hp hq hsize.isFinite
  have hexact := representable_nearest_add_sub hp.representable hq.representable
    ((hq.abs.le_iff hp.abs).mp hle)
  rw [nearest_of_representable hexact] at hleft
  have hsum : nearest (p + q) = p + q := by linarith [hleft.unique hsize]
  rw [hsum] at hfar
  exact ⟨p, q, hp, hq, hfar⟩

/-- A size that is not the smaller part is left as it was or as a neighbour of it, unless that
overflows. -/
theorem adjacent_leftover (hs : s.Placed) (hle : s.origin.abs ≤ s.size.abs)
    (hfinite : s.leftover.isFinite = true) : Adjacent s.leftover s.size := by
  obtain ⟨p, hp⟩ := isFinite_iff.mp hs.origin
  obtain ⟨q, hq⟩ := isFinite_iff.mp hs.size
  have hpq : |p| ≤ |q| := (hp.abs.le_iff hq.abs).mp hle
  exact (denotes_leftover hs hp hq hfinite).adjacent hq (noneBetween_add_sub hq.representable hpq).nearest

/-! ## The extent between the edges -/

theorem Placed.denotes_edges (hs : s.Placed) (hp : Denotes s.origin p) (hq : Denotes s.size q) :
    Denotes s.low (min p (nearest (p + q))) ∧ Denotes s.high (max p (nearest (p + q))) :=
  ⟨Scalar.denotes_minNum hp (hs.denotes_far hp hq), Scalar.denotes_maxNum hp (hs.denotes_far hp hq)⟩

/-- With a size that is not negative the origin is the lower edge. -/
theorem Placed.denotes_edges_of_nonneg (hs : s.Placed) (hp : Denotes s.origin p)
    (hq : Denotes s.size q) (h0 : 0 ≤ q) :
    Denotes s.low p ∧ Denotes s.high (nearest (p + q)) ∧ p ≤ nearest (p + q) := by
  have hle : p ≤ nearest (p + q) := le_nearest hp.representable (by linarith)
  obtain ⟨hlow, hhigh⟩ := hs.denotes_edges hp hq
  rw [min_eq_left hle] at hlow
  rw [max_eq_right hle] at hhigh
  exact ⟨hlow, hhigh, hle⟩

/-- With one that is not positive it is the upper edge. -/
theorem Placed.denotes_edges_of_nonpos (hs : s.Placed) (hp : Denotes s.origin p)
    (hq : Denotes s.size q) (h0 : q ≤ 0) :
    Denotes s.low (nearest (p + q)) ∧ Denotes s.high p ∧ nearest (p + q) ≤ p := by
  have hle : nearest (p + q) ≤ p := nearest_le hp.representable (by linarith)
  obtain ⟨hlow, hhigh⟩ := hs.denotes_edges hp hq
  rw [min_eq_right hle] at hlow
  rw [max_eq_left hle] at hhigh
  exact ⟨hlow, hhigh, hle⟩

theorem edgeKept_of_exactExtent (h : s.ExactExtent) : s.EdgeKept := by
  obtain ⟨l, u, hl, hu, hextent⟩ := h
  have hregrown := hl.add_exact hextent (by rw [add_sub_cancel]; exact hu.isValue)
  rw [add_sub_cancel] at hregrown
  exact hregrown.beq hu

/-- A side that starts at zero or above it and extends upwards keeps its upper edge, whatever is
rounded. -/
theorem edgeKept_of_nonneg (hs : s.Placed) (horigin : 0.0 ≤ s.origin) (hsize : 0.0 ≤ s.size) :
    s.EdgeKept := by
  obtain ⟨p, hp⟩ := isFinite_iff.mp hs.origin
  obtain ⟨q, hq⟩ := isFinite_iff.mp hs.size
  have hp0 : 0 ≤ p := (denotes_zero.le_iff hp).mp horigin
  have hq0 : 0 ≤ q := (denotes_zero.le_iff hq).mp hsize
  obtain ⟨hlow, hhigh, hle⟩ := hs.denotes_edges_of_nonneg hp hq hq0
  have hextent : |nearest (nearest (p + q) - p)| < 2 ^ 128 := by
    rw [abs_of_nonneg (nearest_nonneg (by linarith))]
    calc nearest (nearest (p + q) - p) ≤ nearest (p + q) := nearest_le hhigh.representable (by linarith)
      _ ≤ |nearest (p + q)| := le_abs_self _
      _ < 2 ^ 128 := hhigh.abs_lt
  have hcancel := nearest_add_nearest_sub_cancel hp.representable hq.representable hp0 hq0
  have hregrown := hlow.add (hhigh.sub hlow hextent) (by rw [hcancel]; exact hhigh.abs_lt)
  rw [hcancel] at hregrown
  exact hregrown.beq hhigh

/-- A side that extends downwards keeps its upper edge only if its extent is exact. -/
theorem edgeKept_iff_of_neg (hs : s.Placed) (hsize : s.size < 0.0) : s.EdgeKept ↔ s.ExactExtent := by
  refine ⟨fun h => ?_, edgeKept_of_exactExtent⟩
  obtain ⟨p, hp⟩ := isFinite_iff.mp hs.origin
  obtain ⟨q, hq⟩ := isFinite_iff.mp hs.size
  have hq0 : q < 0 := (hq.lt_iff denotes_zero).mp hsize
  obtain ⟨hlow, hhigh, -⟩ := hs.denotes_edges_of_nonpos hp hq hq0.le
  have hregrown : Denotes s.regrown p := hhigh.of_beq h
  obtain ⟨l, e, hl, he, hsum⟩ := operands_of_add hregrown.isFinite
  have hextent := hhigh.sub hlow ((isFinite_sub hhigh hlow).mp he.isFinite)
  rw [hl.unique hlow, he.unique hextent] at hsum
  have hexact := representable_sub_of_cancel hp.representable hq.representable hq0
    (hsum.unique hregrown)
  rw [nearest_of_representable hexact] at hextent
  exact ⟨_, _, hlow, hhigh, hextent⟩

/-- With a size that is not the larger part the far end is on the side of zero on which the origin is,
so the difference of the two does not overflow. -/
theorem Placed.abs_far_sub_lt (hs : s.Placed) (hp : Denotes s.origin p) (hq : Denotes s.size q)
    (hpq : |q| ≤ |p|) : |nearest (p + q) - p| < 2 ^ 128 := by
  obtain ⟨hlo, hhi⟩ := abs_lt.mp hp.abs_lt
  obtain ⟨hlo', hhi'⟩ := abs_lt.mp (hs.denotes_far hp hq).abs_lt
  obtain ⟨hlo'', hhi''⟩ := abs_le.mp hpq
  rw [abs_lt]
  rcases le_total 0 p with h0 | h0
  · rw [abs_of_nonneg h0] at hlo''
    have := nearest_nonneg (q := p + q) (by linarith)
    constructor <;> linarith
  · rw [abs_of_nonpos h0] at hhi''
    have := nearest_nonpos (q := p + q) (by linarith)
    constructor <;> linarith

/-- With such a size the extent is exact. -/
theorem exactExtent_of_abs_le (hs : s.Placed) (hle : s.size.abs ≤ s.origin.abs) : s.ExactExtent := by
  obtain ⟨p, hp⟩ := isFinite_iff.mp hs.origin
  obtain ⟨q, hq⟩ := isFinite_iff.mp hs.size
  have hpq : |q| ≤ |p| := (hq.abs.le_iff hp.abs).mp hle
  have hexact : IsValue (nearest (p + q) - p) :=
    ⟨representable_nearest_add_sub hp.representable hq.representable hpq, hs.abs_far_sub_lt hp hq hpq⟩
  rcases le_total 0 q with h0 | h0
  · obtain ⟨hlow, hhigh, -⟩ := hs.denotes_edges_of_nonneg hp hq h0
    exact ⟨_, _, hlow, hhigh, hhigh.sub_exact hlow hexact⟩
  · obtain ⟨hlow, hhigh, -⟩ := hs.denotes_edges_of_nonpos hp hq h0
    have hflipped : IsValue (p - nearest (p + q)) := by
      rw [← neg_sub]
      exact ⟨hexact.representable.neg, by rw [abs_neg]; exact hexact.abs_lt⟩
    exact ⟨_, _, hlow, hhigh, hhigh.sub_exact hlow hflipped⟩

end Side

/-! ## Both axes -/

namespace Rect

def horizontal (r : Rect) : Side := ⟨r.origin.x, r.size.x⟩

def vertical (r : Rect) : Side := ⟨r.origin.y, r.size.y⟩

/-- The rectangle and its far corner are finite. -/
structure Placed (r : Rect) : Prop where
  origin : r.origin.isFinite = true
  size : r.size.isFinite = true
  far : r.far.isFinite = true

theorem far_eq (r : Rect) : r.far = ⟨r.horizontal.far, r.vertical.far⟩ := by
  change Vec2.mk (r.origin.x + r.size.x * 1.0) (r.origin.y + r.size.y * 1.0) = _
  rw [mul_one_eq, mul_one_eq]
  rfl

theorem min_eq (r : Rect) : r.min = ⟨r.horizontal.low, r.vertical.low⟩ := by
  rw [min, far_eq]
  rfl

theorem max_eq (r : Rect) : r.max = ⟨r.horizontal.high, r.vertical.high⟩ := by
  rw [max, far_eq]
  rfl

theorem Placed.horizontal {r : Rect} (hr : r.Placed) : r.horizontal.Placed := by
  have hfar := hr.far
  rw [far_eq, Vec2.isFinite, Bool.and_eq_true] at hfar
  exact ⟨(Bool.and_eq_true _ _ ▸ hr.origin).1, (Bool.and_eq_true _ _ ▸ hr.size).1, hfar.1⟩

theorem Placed.vertical {r : Rect} (hr : r.Placed) : r.vertical.Placed := by
  have hfar := hr.far
  rw [far_eq, Vec2.isFinite, Bool.and_eq_true] at hfar
  exact ⟨(Bool.and_eq_true _ _ ▸ hr.origin).2, (Bool.and_eq_true _ _ ▸ hr.size).2, hfar.2⟩

end Rect

end TileCompositor
