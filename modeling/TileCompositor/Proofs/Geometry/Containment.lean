import TileCompositor.Geometry.Clip
import TileCompositor.Proofs.Geometry.Sides
/-!
# Square clip regions

A clip region tests its points against the rectangle with its size made
positive. That rectangle has the same lower edges, but its upper edges are found
again from the extents between the edges. The region keeps the points of the
rectangle where the upper edges come out as they were.

Results:
* `Side.regrown_cases`: where the upper edge is found again.
* `Side.edgeKept_iff`: the edge is where it was if no point changes sides.
* `ClipRect.square_contains_iff`: the points that a square region keeps.
* `ClipRect.square_contains_eq_iff`: the rectangles whose points it keeps, and no others.
-/
namespace TileCompositor
open Binary32

namespace Side

/-- Half-open containment along one axis. -/
def Contains (s : Side) (t : Float32) : Prop := s.low ≤ t ∧ t < s.high

/-- The side from the lower edge, by the extent between the edges. -/
def normalized (s : Side) : Side := ⟨s.low, s.high - s.low⟩

variable {s : Side} {t : Float32}

/-- The edges of a placed side in order. -/
theorem Placed.exists_edges (hs : s.Placed) : ∃ l h, Denotes s.low l ∧ Denotes s.high h ∧ l ≤ h := by
  obtain ⟨p, hp⟩ := isFinite_iff.mp hs.origin
  obtain ⟨q, hq⟩ := isFinite_iff.mp hs.size
  obtain ⟨hlow, hhigh⟩ := hs.denotes_edges hp hq
  exact ⟨_, _, hlow, hhigh, min_le_max⟩

/-- The upper edge is found at the lower edge or above it, perhaps above all values. -/
theorem regrown_cases {l h : ℚ} (hlow : Denotes s.low l) (hhigh : Denotes s.high h) (hle : l ≤ h) :
    (∃ k, Denotes s.regrown k ∧ l ≤ k) ∨ view s.regrown = .infinity .positive := by
  rcases (hhigh.rounded_sub hlow).denotes_or_infinity (sub_nonneg.mpr hle) with hextent | hextent
  · have hnonneg : 0 ≤ nearest (h - l) := nearest_nonneg (sub_nonneg.mpr hle)
    have hlower : l ≤ nearest (l + nearest (h - l)) := le_nearest hlow.representable (by linarith)
    rcases le_total 0 (l + nearest (h - l)) with h0 | h0
    · exact ((hlow.rounded_add hextent).denotes_or_infinity h0).imp_left fun hk => ⟨_, hk, hlower⟩
    · refine .inl ⟨_, hlow.add hextent ?_, hlower⟩
      have := (abs_lt.mp hlow.abs_lt).1
      have := nearest_nonpos h0
      rw [abs_lt]
      constructor <;> linarith
  · exact .inr (add_infinity hlow hextent)

/-- Making the size positive keeps the lower edge. -/
theorem normalized_contains_iff (hs : s.Placed) (ht : t.isFinite = true) :
    s.normalized.Contains t ↔ s.low ≤ t ∧ t < s.regrown := by
  obtain ⟨l, h, hlow, hhigh, hle⟩ := hs.exists_edges
  obtain ⟨v, hv⟩ := isFinite_iff.mp ht
  rcases regrown_cases hlow hhigh hle with ⟨k, hk, hlk⟩ | hinf
  · have hlow' : Denotes s.normalized.low (min l k) := Scalar.denotes_minNum hlow hk
    have hhigh' : Denotes s.normalized.high (max l k) := Scalar.denotes_maxNum hlow hk
    rw [min_eq_left hlk] at hlow'
    rw [max_eq_right hlk] at hhigh'
    rw [Contains, hlow'.le_iff hv, hlow.le_iff hv, hv.lt_iff hhigh', hv.lt_iff hk]
  · have hlow' : s.normalized.low = s.low := by
      change Scalar.minNum s.low s.regrown = s.low
      rw [Scalar.minNum, isNaN_of_infinity hinf, if_neg Bool.false_ne_true, if_pos (lt_infinity hlow hinf)]
    have hhigh' : s.normalized.high = s.regrown := by
      change Scalar.maxNum s.low s.regrown = s.regrown
      rw [Scalar.maxNum, isNaN_of_infinity hinf, if_neg Bool.false_ne_true,
        if_neg (not_infinity_lt hlow hinf)]
    rw [Contains, hlow', hhigh']

/-- The upper edge is found where it was exactly if that moves no point to the other side of it. -/
theorem edgeKept_iff (hs : s.Placed) :
    s.EdgeKept ↔ ∀ t : Float32, t.isFinite = true → (s.normalized.Contains t ↔ s.Contains t) := by
  obtain ⟨l, h, hlow, hhigh, hle⟩ := hs.exists_edges
  constructor
  · intro hkept t ht
    obtain ⟨v, hv⟩ := isFinite_iff.mp ht
    have hregrown : Denotes s.regrown h := hhigh.of_beq hkept
    rw [normalized_contains_iff hs ht, Contains, hv.lt_iff hregrown, hv.lt_iff hhigh]
  · intro hsame
    have hregrown {t : Float32} (ht : t.isFinite = true) :
        s.low ≤ t ∧ t < s.regrown ↔ s.low ≤ t ∧ t < s.high :=
      (normalized_contains_iff hs ht).symm.trans (hsame t ht)
    -- the old edge shows it if the new one is beyond, and the new one if that is short of the old one
    have hold := hregrown hhigh.isFinite
    rcases regrown_cases hlow hhigh hle with ⟨k, hk, hlk⟩ | hinf
    · have hnew := hregrown hk.isFinite
      rw [hlow.le_iff hhigh, hhigh.lt_iff hk, hhigh.lt_iff hhigh] at hold
      rw [hlow.le_iff hk, hk.lt_iff hk, hk.lt_iff hhigh] at hnew
      have hkh : ¬ k < h := fun hlt => lt_irrefl k (hnew.mpr ⟨hlk, hlt⟩).2
      have hhk : ¬ h < k := fun hlt => lt_irrefl h (hold.mp ⟨hle, hlt⟩).2
      exact (hk.beq_iff hhigh).mpr (le_antisymm (not_lt.mp hhk) (not_lt.mp hkh))
    · have hin := (hold.mp ⟨(hlow.le_iff hhigh).mpr hle, lt_infinity hhigh hinf⟩).2
      exact absurd ((hhigh.lt_iff hhigh).mp hin) (lt_irrefl h)

/-- A side without extent stays one. -/
theorem edgeKept_of_flat (hs : s.Placed) (hflat : ¬ s.low < s.high) : s.EdgeKept := by
  obtain ⟨l, h, hlow, hhigh, hle⟩ := hs.exists_edges
  have heq : l = h := le_antisymm hle (not_lt.mp fun hlt => hflat ((hlow.lt_iff hhigh).mpr hlt))
  have hextent := hhigh.sub_exact hlow (by rw [heq, sub_self]; exact denotes_zero.isValue)
  exact edgeKept_of_exactExtent ⟨l, h, hlow, hhigh, hextent⟩

theorem contains_low (hs : s.Placed) (harea : s.low < s.high) : s.Contains s.low := by
  obtain ⟨l, h, hlow, -, -⟩ := hs.exists_edges
  exact ⟨(hlow.le_iff hlow).mpr le_rfl, harea⟩

theorem lt_of_contains (hs : s.Placed) (ht : t.isFinite = true) (h : s.Contains t) : s.low < s.high := by
  obtain ⟨l, u, hlow, hhigh, -⟩ := hs.exists_edges
  obtain ⟨v, hv⟩ := isFinite_iff.mp ht
  exact (hlow.lt_iff hhigh).mpr (((hlow.le_iff hv).mp h.1).trans_lt ((hv.lt_iff hhigh).mp h.2))

theorem not_contains_of_flat (hs : s.Placed) (hflat : ¬ s.low < s.high) (ht : t.isFinite = true) :
    ¬ s.normalized.Contains t ∧ ¬ s.Contains t := by
  have hnot : ¬ s.Contains t := mt (lt_of_contains hs ht) hflat
  exact ⟨mt ((edgeKept_iff hs).mp (edgeKept_of_flat hs hflat) t ht).mp hnot, hnot⟩

end Side

/-! ## Rectangles -/

namespace Rect
variable {r : Rect} {p : Vec2}

theorem contains_iff (r : Rect) (p : Vec2) :
    r.contains p = true ↔ r.horizontal.Contains p.x ∧ r.vertical.Contains p.y := by
  simp only [contains, min_eq, max_eq, Side.Contains, Bool.and_eq_true, decide_eq_true_eq]
  constructor
  · rintro ⟨⟨⟨hlx, hly⟩, hhx⟩, hhy⟩
    exact ⟨⟨hlx, hhx⟩, hly, hhy⟩
  · rintro ⟨⟨hlx, hhx⟩, hly, hhy⟩
    exact ⟨⟨⟨hlx, hly⟩, hhx⟩, hhy⟩

theorem normalized_horizontal (r : Rect) : r.normalized.horizontal = r.horizontal.normalized := by
  rw [normalized, min_eq, max_eq]
  rfl

theorem normalized_vertical (r : Rect) : r.normalized.vertical = r.vertical.normalized := by
  rw [normalized, min_eq, max_eq]
  rfl

end Rect

namespace ClipRect
variable {r : Rect} {p : Vec2}

theorem square_contains (r : Rect) (p : Vec2) : (square r).contains p = r.normalized.contains p := by
  have hzero : CornerRadii.zero.isZero = true := by decide
  simp only [contains, square, hzero, Bool.true_or, Bool.and_true]

theorem square_contains_iff_sides (r : Rect) (p : Vec2) :
    (square r).contains p = true ↔
      r.horizontal.normalized.Contains p.x ∧ r.vertical.normalized.Contains p.y := by
  rw [square_contains, Rect.contains_iff, Rect.normalized_horizontal, Rect.normalized_vertical]

/-- A square region keeps the points from the lower edges up to the upper edges as they are found
from the extents. -/
theorem square_contains_iff (hr : r.Placed) (hp : p.isFinite = true) :
    (square r).contains p = true ↔
      (r.min.x ≤ p.x ∧ p.x < r.min.x + (r.max.x - r.min.x)) ∧
      (r.min.y ≤ p.y ∧ p.y < r.min.y + (r.max.y - r.min.y)) := by
  rw [Vec2.isFinite, Bool.and_eq_true] at hp
  rw [square_contains_iff_sides, Side.normalized_contains_iff hr.horizontal hp.1,
    Side.normalized_contains_iff hr.vertical hp.2, Rect.min_eq, Rect.max_eq]
  rfl

/-- Where both edges are kept, so are the points. -/
theorem square_contains_of_edgeKept (hr : r.Placed) (hx : r.horizontal.EdgeKept)
    (hy : r.vertical.EdgeKept) (hp : p.isFinite = true) : (square r).contains p = r.contains p := by
  rw [Vec2.isFinite, Bool.and_eq_true] at hp
  rw [Bool.eq_iff_iff, square_contains_iff_sides, Rect.contains_iff,
    (Side.edgeKept_iff hr.horizontal).mp hx p.x hp.1, (Side.edgeKept_iff hr.vertical).mp hy p.y hp.2]

/-- A rectangle without area contains no point before and after. -/
theorem square_contains_of_flat (hr : r.Placed)
    (hflat : ¬ (r.horizontal.low < r.horizontal.high ∧ r.vertical.low < r.vertical.high))
    (hp : p.isFinite = true) : (square r).contains p = r.contains p := by
  rw [Vec2.isFinite, Bool.and_eq_true] at hp
  rw [Bool.eq_iff_iff, square_contains_iff_sides, Rect.contains_iff]
  rcases not_and_or.mp hflat with hx | hy
  · obtain ⟨hnormalized, hnot⟩ := Side.not_contains_of_flat hr.horizontal hx hp.1
    exact iff_of_false (mt And.left hnormalized) (mt And.left hnot)
  · obtain ⟨hnormalized, hnot⟩ := Side.not_contains_of_flat hr.vertical hy hp.2
    exact iff_of_false (mt And.right hnormalized) (mt And.right hnot)

/-- If no point changes sides, no edge has moved: the points level with the lower corner show it. -/
theorem edgeKept_of_square_contains (hr : r.Placed) (hareaX : r.horizontal.low < r.horizontal.high)
    (hareaY : r.vertical.low < r.vertical.high)
    (hsame : ∀ p : Vec2, p.isFinite = true → (square r).contains p = r.contains p) :
    r.horizontal.EdgeKept ∧ r.vertical.EdgeKept := by
  obtain ⟨lx, -, hlx, -⟩ := hr.horizontal.exists_edges
  obtain ⟨ly, -, hly, -⟩ := hr.vertical.exists_edges
  have hpoint {x y : Float32} (hx : x.isFinite = true) (hy : y.isFinite = true) :
      r.horizontal.normalized.Contains x ∧ r.vertical.normalized.Contains y ↔
        r.horizontal.Contains x ∧ r.vertical.Contains y := by
    rw [← square_contains_iff_sides r ⟨x, y⟩, ← Rect.contains_iff r ⟨x, y⟩,
      hsame ⟨x, y⟩ (by rw [Vec2.isFinite, hx, hy]; rfl)]
  have hlowX := Side.contains_low hr.horizontal hareaX
  have hlowY := Side.contains_low hr.vertical hareaY
  obtain ⟨hkeptX, hkeptY⟩ := (hpoint hlx.isFinite hly.isFinite).mpr ⟨hlowX, hlowY⟩
  rw [Side.edgeKept_iff hr.horizontal, Side.edgeKept_iff hr.vertical]
  constructor
  · intro t ht
    have := hpoint ht hly.isFinite
    simpa only [hkeptY, hlowY, and_true] using this
  · intro t ht
    have := hpoint hlx.isFinite ht
    simpa only [hkeptX, hlowX, true_and] using this

/-- A square clip region keeps the points of its rectangle, and no others,
exactly if the rectangle has no area or both of its upper edges come out as they
were. A side does so whatever is rounded if it starts at zero or above it and
extends upwards, and if it is not longer than its origin is far from zero. One
that extends downwards does so only if the extent between its edges is exact. -/
theorem square_contains_eq_iff (hr : r.Placed) :
    ((∀ p : Vec2, p.isFinite = true → (square r).contains p = r.contains p) ↔
      (r.min.x < r.max.x → r.min.y < r.max.y → r.horizontal.EdgeKept ∧ r.vertical.EdgeKept)) ∧
    ∀ s ∈ [r.horizontal, r.vertical],
      (0.0 ≤ s.origin → 0.0 ≤ s.size → s.EdgeKept) ∧
      (s.size.abs ≤ s.origin.abs → s.EdgeKept) ∧
      (s.size < 0.0 → (s.EdgeKept ↔ s.ExactExtent)) := by
  have haxis {s : Side} (hs : s.Placed) :
      (0.0 ≤ s.origin → 0.0 ≤ s.size → s.EdgeKept) ∧ (s.size.abs ≤ s.origin.abs → s.EdgeKept) ∧
        (s.size < 0.0 → (s.EdgeKept ↔ s.ExactExtent)) :=
    ⟨Side.edgeKept_of_nonneg hs, fun hle => Side.edgeKept_of_exactExtent (Side.exactExtent_of_abs_le hs hle),
      Side.edgeKept_iff_of_neg hs⟩
  refine ⟨?_, by simpa using ⟨haxis hr.horizontal, haxis hr.vertical⟩⟩
  rw [Rect.min_eq, Rect.max_eq]
  refine ⟨fun hsame hareaX hareaY => edgeKept_of_square_contains hr hareaX hareaY hsame, ?_⟩
  intro hkept p hp
  by_cases harea : r.horizontal.low < r.horizontal.high ∧ r.vertical.low < r.vertical.high
  · obtain ⟨hx, hy⟩ := hkept harea.1 harea.2
    exact square_contains_of_edgeKept hr hx hy hp
  · exact square_contains_of_flat hr harea hp

/-- A flipped rectangle between quarters. -/
def flippedRect : Rect := Rect.ofXYWH 2.5 0.75 (-7.25) (-0.5)

/-- A square region over it keeps its points. -/
theorem square_contains_flippedRect :
    flippedRect.Placed ∧
      ∀ p : Vec2, p.isFinite = true → (square flippedRect).contains p = flippedRect.contains p := by
  have hplaced : flippedRect.Placed := ⟨by decide +kernel, by decide +kernel, by decide +kernel⟩
  exact ⟨hplaced, (square_contains_eq_iff hplaced).1.mpr fun _ _ => by decide +kernel⟩

/-- A rectangle that extends from 2^-30 to the left: its lower edge is -1 after rounding, and from there
the extent of 1 leads to 0. -/
def overhangingRect : Rect := Rect.ofXYWH 9.313225746154785e-10 0.0 (-1.0) 1.0

/-- A rectangle that extends from 0.1 to the left and is found to be longer than it is. -/
def stretchedRect : Rect := Rect.ofXYWH 0.1 0.0 (-10.0) 10.0

/-- Not every square region keeps the points of its rectangle and no others. -/
theorem square_contains_ne :
    (overhangingRect.Placed ∧ overhangingRect.contains ⟨0.0, 0.5⟩ = true ∧
      (square overhangingRect).contains ⟨0.0, 0.5⟩ = false) ∧
    stretchedRect.Placed ∧ stretchedRect.contains ⟨0.1, 5.0⟩ = false ∧
      (square stretchedRect).contains ⟨0.1, 5.0⟩ = true := by
  have hover : overhangingRect.Placed := ⟨by decide +kernel, by decide +kernel, by decide +kernel⟩
  have hstretched : stretchedRect.Placed := ⟨by decide +kernel, by decide +kernel, by decide +kernel⟩
  exact ⟨⟨hover, by decide +kernel, by decide +kernel⟩, hstretched, by decide +kernel, by decide +kernel⟩

end ClipRect

end TileCompositor
