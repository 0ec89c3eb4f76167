import TileCompositor.Proofs.Coverage.Placement
/-!
# Snapping keeps order

A coordinate is moved onto the device pixel grid by a product, a rounding and a quotient. Each of them
keeps the order of its operands, also where the product is too large or too small for a value: what
overflows becomes the infinity on its side, which the rounding and the quotient leave where it is. So
no two edges change places, a quad keeps its orientation, and quads that share no point before share
none afterwards.

Results:
* `snapped_mono`: coordinates.
* `exists_between_of_snapped`: intervals that meet afterwards have met before.
* `snapToDevicePixels_mono`: points and quads.
-/
namespace TileCompositor
open Binary32

/-! ## Coordinates -/

/-- Where the grid with the given ratio moves a coordinate. -/
def snapped (ratio x : Float32) : Float32 := if 0.0 < ratio then Scalar.round (x * ratio) / ratio else x

theorem Vec2.snapToDevicePixels_eq (p : Vec2) (ratio : Float32) :
    p.snapToDevicePixels ratio = ⟨snapped ratio p.x, snapped ratio p.y⟩ := by
  unfold Vec2.snapToDevicePixels snapped
  split_ifs <;> rfl

section Coordinates
variable {ratio x y v : Float32} {f g : Corner → Float32}

theorem snapped_mono (hratio : ratio.isFinite = true) (hx : x.isFinite = true) (hy : y.isFinite = true)
    (h : x ≤ y) : snapped ratio x ≤ snapped ratio y := by
  unfold snapped
  split_ifs with hpos
  · obtain ⟨c, hc⟩ := isFinite_iff.mp hratio
    obtain ⟨p, hp⟩ := isFinite_iff.mp hx
    obtain ⟨q, hq⟩ := isFinite_iff.mp hy
    have hcpos : 0 < c := (denotes_zero.lt_iff hc).mp hpos
    exact div_le_div_of_pos hc hcpos (Scalar.round_mono (mul_le_mul_of_pos hc hcpos hp hq h))
  · exact h

/-- What is apart after snapping was apart before. -/
theorem lt_of_snapped_lt (hratio : ratio.isFinite = true) (hx : x.isFinite = true) (hy : y.isFinite = true)
    (h : snapped ratio x < snapped ratio y) : x < y := by
  obtain ⟨p, hp⟩ := isFinite_iff.mp hx
  obtain ⟨q, hq⟩ := isFinite_iff.mp hy
  by_contra hlt
  rw [hp.lt_iff hq, not_lt, ← hq.le_iff hp] at hlt
  exact not_lt_of_le (snapped_mono hratio hy hx hlt) h

/-! ## Extents -/

/-- From the least of the coordinates of the corners to the greatest, without that one. -/
def Between (f : Corner → Float32) (v : Float32) : Prop := (∃ a, f a ≤ v) ∧ ∃ b, v < f b

/-- If extents have a point in common after snapping, one of their ends was in both before. -/
theorem exists_between_of_snapped (hratio : ratio.isFinite = true) (hf : ∀ a, (f a).isFinite = true)
    (hg : ∀ a, (g a).isFinite = true) (hv : Between (fun a => snapped ratio (f a)) v)
    (hv' : Between (fun a => snapped ratio (g a)) v) : ∃ u, Between f u ∧ Between g u := by
  obtain ⟨⟨a, ha⟩, b, hb⟩ := hv
  obtain ⟨⟨a', ha'⟩, b', hb'⟩ := hv'
  have hff := lt_of_snapped_lt hratio (hf a) (hf b) (lt_of_le_of_lt ha hb)
  have hfg := lt_of_snapped_lt hratio (hf a) (hg b') (lt_of_le_of_lt ha hb')
  have hgf := lt_of_snapped_lt hratio (hg a') (hf b) (lt_of_le_of_lt ha' hb)
  have hgg := lt_of_snapped_lt hratio (hg a') (hg b') (lt_of_le_of_lt ha' hb')
  -- all starts are below all ends, so the later one of the two starts is in both
  obtain ⟨p, hp⟩ := isFinite_iff.mp (hf a)
  obtain ⟨q, hq⟩ := isFinite_iff.mp (hg a')
  rcases le_total p q with hpq | hqp
  · exact ⟨g a', ⟨⟨a, (hp.le_iff hq).mpr hpq⟩, b, hgf⟩, ⟨a', (hq.le_iff hq).mpr le_rfl⟩, b', hgg⟩
  · exact ⟨f a, ⟨⟨a, (hp.le_iff hp).mpr le_rfl⟩, b, hff⟩, ⟨a', (hq.le_iff hp).mpr hqp⟩, b', hfg⟩

/-- Coordinates that moved without changing places: those in order stay in order and equal ones stay
equal. -/
structure KeepsOrder (before after : Corner → Float32) : Prop where
  le : ∀ a b, before a ≤ before b → after a ≤ after b
  beq : ∀ a b, (before a == before b) = true → (after a == after b) = true

theorem keepsOrder_snapped (hratio : ratio.isFinite = true) (hf : ∀ a, (f a).isFinite = true) :
    KeepsOrder f fun a => snapped ratio (f a) := by
  have hmono (a b : Corner) := snapped_mono hratio (hf a) (hf b)
  refine ⟨hmono, fun a b hab => ?_⟩
  obtain ⟨p, hp⟩ := isFinite_iff.mp (hf b)
  have hp' : Denotes (f a) p := hp.of_beq hab
  exact beq_of_le_of_le (hmono a b ((hp'.le_iff hp).mpr le_rfl)) (hmono b a ((hp.le_iff hp').mpr le_rfl))

end Coordinates

/-! ## Quads -/

namespace PerCorner
variable (c d : PerCorner Vec2)

def xs (a : Corner) : Float32 := (c.get a).x

def ys (a : Corner) : Float32 := (c.get a).y

/-- No corner is infinite or NaN. -/
def IsFinite : Prop := ∀ a, (c.get a).isFinite = true

/-- The box of the corners contains a point. It is the quad itself if the sides are parallel to the
axes. -/
structure BoxContains (p : Vec2) : Prop where
  x : Between c.xs p.x
  y : Between c.ys p.y

/-- There is a point in the boxes of both. Boxes that share an edge only do not overlap. -/
def Overlaps : Prop := ∃ p, c.BoxContains p ∧ d.BoxContains p

variable {c d}

theorem IsFinite.xs (h : c.IsFinite) (a : Corner) : (c.xs a).isFinite = true :=
  (Bool.and_eq_true_iff.mp (h a)).1

theorem IsFinite.ys (h : c.IsFinite) (a : Corner) : (c.ys a).isFinite = true :=
  (Bool.and_eq_true_iff.mp (h a)).2

end PerCorner

namespace ResolvedInstance
variable {i i' : ResolvedInstance} {frame : FrameUniforms}

/-- The corners of the quad before they are moved onto the device pixel grid. -/
def unsnapped (i : ResolvedInstance) : PerCorner Vec2 :=
  .ofFn fun corner => (i.transform.transformPoint (i.record.rect.pointAt corner.unit)).project

theorem get_world (i : ResolvedInstance) (frame : FrameUniforms) (corner : Corner) :
    (i.world frame).get corner = (i.unsnapped.get corner).snapToDevicePixels frame.devicePixelRatio := by
  rw [← i.worldPosition_vertex corner .topLeft, unsnapped, PerCorner.get_ofFn]
  rfl

theorem xs_world (i : ResolvedInstance) (frame : FrameUniforms) :
    (i.world frame).xs = fun a => snapped frame.devicePixelRatio (i.unsnapped.xs a) := by
  funext a
  rw [PerCorner.xs, get_world, Vec2.snapToDevicePixels_eq, PerCorner.xs]

theorem ys_world (i : ResolvedInstance) (frame : FrameUniforms) :
    (i.world frame).ys = fun a => snapped frame.devicePixelRatio (i.unsnapped.ys a) := by
  funext a
  rw [PerCorner.ys, get_world, Vec2.snapToDevicePixels_eq, PerCorner.ys]

theorem overlaps_of_world (hratio : frame.devicePixelRatio.isFinite = true) (hi : i.unsnapped.IsFinite)
    (hi' : i'.unsnapped.IsFinite) (h : (i.world frame).Overlaps (i'.world frame)) :
    i.unsnapped.Overlaps i'.unsnapped := by
  obtain ⟨p, hp, hp'⟩ := h
  obtain ⟨u, hu, hu'⟩ := exists_between_of_snapped hratio hi.xs hi'.xs (i.xs_world frame ▸ hp.x)
    (i'.xs_world frame ▸ hp'.x)
  obtain ⟨v, hv, hv'⟩ := exists_between_of_snapped hratio hi.ys hi'.ys (i.ys_world frame ▸ hp.y)
    (i'.ys_world frame ▸ hp'.y)
  exact ⟨⟨u, v⟩, ⟨hu, hv⟩, hu', hv'⟩

end ResolvedInstance

/-- Points with finite coordinates keep their order on both axes, at every finite ratio. So do the
corners of a quad: its sides stay parallel to the axes if they were, and none passes the one opposite
to it. Quads whose boxes have no point in common have none in common afterwards. -/
theorem snapToDevicePixels_mono {ratio : Float32} (hratio : ratio.isFinite = true) :
    (∀ p q : Vec2, p.isFinite = true → q.isFinite = true →
      (p.x ≤ q.x → (p.snapToDevicePixels ratio).x ≤ (q.snapToDevicePixels ratio).x) ∧
      (p.y ≤ q.y → (p.snapToDevicePixels ratio).y ≤ (q.snapToDevicePixels ratio).y)) ∧
    (∀ (i : ResolvedInstance) (global : Mat4), i.unsnapped.IsFinite →
      KeepsOrder i.unsnapped.xs (i.world ⟨global, ratio⟩).xs ∧
      KeepsOrder i.unsnapped.ys (i.world ⟨global, ratio⟩).ys) ∧
    ∀ (i i' : ResolvedInstance) (global : Mat4), i.unsnapped.IsFinite → i'.unsnapped.IsFinite →
      ¬ i.unsnapped.Overlaps i'.unsnapped →
      ¬ (i.world ⟨global, ratio⟩).Overlaps (i'.world ⟨global, ratio⟩) := by
  refine ⟨fun p q hp hq => ?_, fun i global hi => ?_, fun i i' global hi hi' => ?_⟩
  · rw [Vec2.snapToDevicePixels_eq, Vec2.snapToDevicePixels_eq]
    obtain ⟨hpx, hpy⟩ := Bool.and_eq_true_iff.mp hp
    obtain ⟨hqx, hqy⟩ := Bool.and_eq_true_iff.mp hq
    exact ⟨snapped_mono hratio hpx hqx, snapped_mono hratio hpy hqy⟩
  · rw [i.xs_world, i.ys_world]
    exact ⟨keepsOrder_snapped hratio hi.xs, keepsOrder_snapped hratio hi.ys⟩
  · exact mt (ResolvedInstance.overlaps_of_world hratio hi hi')

/-- Two quads that meet at 13.5, which is between the grid lines of three device pixels to two layout
pixels, still only meet. -/
theorem adjoiningQuads_snapped :
    ¬ ((plainQuad (Rect.ofXYWH 3.5 (-2.25) 10.0 4.0)).world ⟨Mat4.identity, 1.5⟩).Overlaps
      ((plainQuad (Rect.ofXYWH 13.5 0.0 2.5 4.0)).world ⟨Mat4.identity, 1.5⟩) := by
  have hfinite (rect : Rect) (h : ∀ a ∈ Corner.all, ((plainQuad rect).unsnapped.get a).isFinite = true) :
      (plainQuad rect).unsnapped.IsFinite := fun a => h a (by cases a <;> decide)
  refine (snapToDevicePixels_mono (by decide +kernel)).2.2 _ _ Mat4.identity
    (hfinite _ (by decide +kernel)) (hfinite _ (by decide +kernel)) ?_
  rintro ⟨p, ⟨⟨-, b, hb⟩, -⟩, ⟨⟨⟨a, ha⟩, -⟩, -⟩⟩
  have hlt := lt_of_le_of_lt ha hb
  revert hlt
  cases a <;> cases b <;> decide +kernel

end TileCompositor
