import TileCompositor.Proofs.Binary32.Error
import TileCompositor.Proofs.Coverage.Aligned
import TileCompositor.Proofs.Coverage.Weights
/-!
# Interpolated positions on the pixel grid

The world position of a fragment is not the centre of its pixel but what the
rounded weights make of the world positions of the vertices. On quads with
whole corners the edge values and the area behind the weights are exact, so
each weight is off by one rounding only; with sides of at most 1024 the
interpolated position then is within 2^-10 of the centre, and so within the
pixel.

Results:
* `cornerEdge_sum`, `weighted_x`, `weighted_y`: the exact weights give the exact centre.
* `GridWeights.near_mix`: what rounded weights make of whole coordinates.
* `wound_of_fragmentAt`: the triangle of a fragment, clockwise.
* `near_worldPosition`: the interpolated position of a fragment.
-/
namespace TileCompositor
open Binary32

/-! ## Exact weights -/

/-- Twice the value of the edge from one corner to another at the centre of a pixel. -/
def cornerEdge (l t r b : ℤ) (c c' : Corner) (x y : ℕ) : ℤ :=
  gridEdge (c.pickX l r) (c.pickY t b) (c'.pickX l r) (c'.pickY t b) x y

/-- Twice the signed area of the triangle of three corners. -/
def cornerArea (l t r b : ℤ) (c₁ c₂ c₃ : Corner) : ℤ :=
  (c₂.pickX l r - c₁.pickX l r) * (c₃.pickY t b - c₁.pickY t b) -
    (c₂.pickY t b - c₁.pickY t b) * (c₃.pickX l r - c₁.pickX l r)

section Exact
variable (l t r b : ℤ) (c₁ c₂ c₃ : Corner) (x y : ℕ)

/-- The three edge values of a triangle add up to its area. -/
theorem cornerEdge_sum :
    cornerEdge l t r b c₁ c₂ x y + cornerEdge l t r b c₂ c₃ x y + cornerEdge l t r b c₃ c₁ x y =
      2 * cornerArea l t r b c₁ c₂ c₃ := by
  unfold cornerEdge cornerArea gridEdge
  ring

theorem cornerArea_turn : cornerArea l t r b c₁ c₃ c₂ = -cornerArea l t r b c₁ c₂ c₃ := by
  unfold cornerArea
  ring

/-- The edge values weigh the sides so that they lead to the centre. -/
theorem weighted_x :
    (c₂.pickX l r - c₁.pickX l r) * cornerEdge l t r b c₃ c₁ x y +
        (c₃.pickX l r - c₁.pickX l r) * cornerEdge l t r b c₁ c₂ x y =
      cornerArea l t r b c₁ c₂ c₃ * (2 * x + 1 - 2 * c₁.pickX l r) := by
  unfold cornerEdge cornerArea gridEdge
  ring

theorem weighted_y :
    (c₂.pickY t b - c₁.pickY t b) * cornerEdge l t r b c₃ c₁ x y +
        (c₃.pickY t b - c₁.pickY t b) * cornerEdge l t r b c₁ c₂ x y =
      cornerArea l t r b c₁ c₂ c₃ * (2 * y + 1 - 2 * c₁.pickY t b) := by
  unfold cornerEdge cornerArea gridEdge
  ring

end Exact

/-- A centre reached over two sides, the weights being edge values over the area. -/
theorem centre_of_weighted {m n₂ n₃ e₂ e₃ area : ℤ} {z : ℕ}
    (h : n₂ * e₂ + n₃ * e₃ = area * (2 * z + 1 - 2 * m)) (h0 : area ≠ 0) :
    (m : ℚ) + n₂ * (e₂ / 2 / area) + n₃ * (e₃ / 2 / area) = z + 1 / 2 := by
  have h0' : (area : ℚ) ≠ 0 := by exact_mod_cast h0
  have hq : (n₂ : ℚ) * e₂ + n₃ * e₃ = area * (2 * z + 1 - 2 * m) := by exact_mod_cast h
  field_simp
  linear_combination hq

/-! ## Rounded weights -/

/-- The share of an edge value in the area is rounded once. -/
theorem near_share {v area : Float32} {e n : ℤ} (hv : Denotes v (e / 2)) (harea : Denotes area n)
    (hpos : 0 < n) (h0 : 0 ≤ e) (hle : e ≤ 2 * n) :
    Near (v / area) (e / 2 / n) (2 ^ (-24 : ℤ)) := by
  have hpos' : (0 : ℚ) < n := by exact_mod_cast hpos
  have h0' : (0 : ℚ) ≤ e := by exact_mod_cast h0
  have hle' : (e : ℚ) ≤ 2 * n := by exact_mod_cast hle
  have hshare : (e : ℚ) / 2 / n ≤ 1 := by
    rw [div_le_iff₀ hpos']
    linarith
  refine hv.near_div harea hpos'.ne' (k := 1) (by norm_num) (by norm_num) ?_
  rw [abs_of_nonneg (by positivity)]
  exact hshare.trans_lt (by norm_num)

/-- A whole distance of at most 1024 times a weight. -/
theorem near_weighted {v weight : Float32} {n : ℤ} {u : ℚ} (hv : Denotes v n) (hn : |n| ≤ 1024)
    (hw : Near weight u (2 ^ (-24 : ℤ))) (h0 : 0 ≤ u) (h1 : u ≤ 1) :
    Near (v * weight) (n * u) (2 ^ (-13 : ℤ)) ∧ |n * u| ≤ 1024 := by
  have hn' : |(n : ℚ)| ≤ 1024 := by exact_mod_cast hn
  have hu : |u| ≤ 1 := by rwa [abs_of_nonneg h0]
  have hprod : |n * u| ≤ 1024 := by
    rw [abs_mul]
    exact (mul_le_of_le_one_right (abs_nonneg _) hu).trans hn'
  have herr : |(n : ℚ)| * 2 ^ (-24 : ℤ) ≤ 2 ^ (-14 : ℤ) :=
    (mul_le_mul_of_nonneg_right hn' (two_zpow_pos _).le).trans (by norm_num)
  refine ⟨(hv.near_mul hw (k := 11) (by norm_num) (by norm_num) ?_).mono ?_, hprod⟩
  · exact (add_le_add hprod herr).trans_lt (by norm_num)
  · exact (add_le_add herr le_rfl).trans (by norm_num)

/-- The weights of the second and the third vertex are the shares that their
edge values have in the area. -/
structure GridWeights (w : Weights) (e₂ e₃ area : ℤ) : Prop where
  b : Near w.b (e₂ / 2 / area) (2 ^ (-24 : ℤ))
  c : Near w.c (e₃ / 2 / area) (2 ^ (-24 : ℤ))
  b_nonneg : 0 ≤ e₂
  c_nonneg : 0 ≤ e₃
  sum_le : e₂ + e₃ ≤ 2 * area
  area_pos : 0 < area

/-- Between whole coordinates that are not far apart rounded weights lead next
to where the exact ones do. -/
theorem GridWeights.near_mix {w : Weights} {e₂ e₃ area : ℤ} (hw : GridWeights w e₂ e₃ area)
    {v₁ v₂ v₃ : Float32} {m₁ m₂ m₃ : ℤ} (h₁ : Denotes v₁ m₁) (h₂ : Denotes v₂ m₂) (h₃ : Denotes v₃ m₃)
    (hm₁ : |m₁| ≤ 2048) (hm₂ : |m₂ - m₁| ≤ 1024) (hm₃ : |m₃ - m₁| ≤ 1024) :
    Near (w.mix v₁ v₂ v₃)
      (m₁ + (m₂ - m₁ : ℤ) * (e₂ / 2 / area) + (m₃ - m₁ : ℤ) * (e₃ / 2 / area)) (2 ^ (-10 : ℤ)) := by
  obtain ⟨hb, hc, hb0, hc0, hsum, hpos⟩ := hw
  have hpos' : (0 : ℚ) < area := by exact_mod_cast hpos
  have hm : |(m₁ : ℚ)| ≤ 2048 := by exact_mod_cast hm₁
  have hb0' : (0 : ℚ) ≤ e₂ / 2 / area := by positivity
  have hc0' : (0 : ℚ) ≤ e₃ / 2 / area := by positivity
  have hsum' : (e₂ : ℚ) / 2 / area + e₃ / 2 / area ≤ 1 := by
    have : (e₂ : ℚ) + e₃ ≤ 2 * area := by exact_mod_cast hsum
    rw [← add_div, ← add_div, div_div, div_le_one (by positivity)]
    exact this
  obtain ⟨hnear₂, hle₂⟩ := near_weighted (h₂.sub_intCast h₁ (hm₂.trans (by norm_num))) hm₂ hb hb0'
    (by linarith)
  obtain ⟨hnear₃, hle₃⟩ := near_weighted (h₃.sub_intCast h₁ (hm₃.trans (by norm_num))) hm₃ hc hc0'
    (by linarith)
  -- the first sum stays below 2^12 and the second below 2^13, so they are rounded by 2^-13 and 2^-12
  have habs₂ := (abs_add_le _ _).trans (add_le_add hm hle₂)
  have habs₃ := (abs_add_le _ _).trans (add_le_add habs₂ hle₃)
  have hfirst := (h₁.near.add hnear₂ (k := 12) (by norm_num) (by norm_num)
    ((add_le_add habs₂ le_rfl).trans_lt (by norm_num))).mono (by norm_num : _ ≤ (2 : ℚ) ^ (-12 : ℤ))
  exact (hfirst.add hnear₃ (k := 13) (by norm_num) (by norm_num)
    ((add_le_add habs₃ le_rfl).trans_lt (by norm_num))).mono (by norm_num)

/-! ## Fragments of quads -/

section Quad
variable {l t r b : ℤ} {i : ResolvedInstance} {frame : FrameUniforms} {width height : UInt32}
  {x y : ℕ} {half : Half} {f : Fragment}

/-- A corner of a quad as a vertex of a triangle on the target. -/
def ResolvedInstance.placedVertex (i : ResolvedInstance) (half : Half) (frame : FrameUniforms)
    (width height : UInt32) (c : Corner) : PlacedVertex :=
  (i.vertex c half frame).place width.toFloat32 height.toFloat32

theorem ResolvedInstance.position_placedVertex (c : Corner) :
    (i.placedVertex half frame width height c).position = (i.placed frame width height).get c :=
  i.position_vertex c half frame width height

/-- A fragment belongs to a triangle of three corners in clockwise order. -/
theorem wound_of_fragmentAt (hs : Spans (i.placed frame width height) l t r b)
    (hg : GridRect l t r b) (hf : i.fragmentAt half frame width height x y = some f) :
    ∃ c₁ c₂ c₃ area, 0 < cornerArea l t r b c₁ c₂ c₃ ∧
      Denotes area (cornerArea l t r b c₁ c₂ c₃ : ℤ) ∧
      (Triangle.mk (i.placedVertex half frame width height c₁) (i.placedVertex half frame width height c₂)
        (i.placedVertex half frame width height c₃) area).fragmentAt x y = some f := by
  obtain ⟨triangle, hwind, -, hat⟩ := triangle_of_fragmentAt hf
  obtain ⟨area, harea', hturn⟩ := Triangle.wind?_eq_some hwind
  have harea : Denotes (edge (i.placedVertex half frame width height half.corners.1).position
      (i.placedVertex half frame width height half.corners.2.1).position
      (i.placedVertex half frame width height half.corners.2.2).position)
      (cornerArea l t r b half.corners.1 half.corners.2.1 half.corners.2.2 : ℤ) := by
    simp only [ResolvedInstance.position_placedVertex]
    exact denotes_edge_corners hs hg _ _ _
  obtain rfl := harea'.unique harea
  rcases hturn with ⟨hpos, rfl⟩ | ⟨hneg, rfl⟩
  · exact ⟨_, _, _, _, by exact_mod_cast hpos, harea, hat⟩
  · have hneg' : cornerArea l t r b half.corners.1 half.corners.2.1 half.corners.2.2 < 0 := by
      exact_mod_cast hneg
    have hturned := cornerArea_turn l t r b half.corners.1 half.corners.2.1 half.corners.2.2
    refine ⟨half.corners.1, half.corners.2.2, half.corners.2.1, _, by omega, ?_, hat⟩
    rw [hturned, Int.cast_neg]
    exact harea.neg

theorem gridWeights_of_fragmentAt {c₁ c₂ c₃ : Corner} {area : Float32}
    (hs : Spans (i.placed frame width height) l t r b) (hg : GridRect l t r b) (hx : x < 1024)
    (hy : y < 1024) (hpos : 0 < cornerArea l t r b c₁ c₂ c₃)
    (harea : Denotes area (cornerArea l t r b c₁ c₂ c₃ : ℤ))
    (hf : (Triangle.mk (i.placedVertex half frame width height c₁)
      (i.placedVertex half frame width height c₂) (i.placedVertex half frame width height c₃)
      area).fragmentAt x y = some f) :
    ∃ w, f.varyings = Varyings.interpolate (i.vertex c₁ half frame).varyings
        (i.vertex c₂ half frame).varyings (i.vertex c₃ half frame).varyings w ∧
      GridWeights w (cornerEdge l t r b c₃ c₁ x y) (cornerEdge l t r b c₁ c₂ x y)
        (cornerArea l t r b c₁ c₂ c₃) := by
  obtain ⟨w, hw, hvaryings⟩ := Triangle.weights_of_fragmentAt hf
  have hinside := (Triangle.isSome_fragmentAt _ x y).mp (Option.isSome_iff_exists.mpr ⟨f, hf⟩)
  simp only [ResolvedInstance.position_placedVertex] at hinside
  rw [insideEdges_corners hs hg hx hy] at hinside
  obtain ⟨h₂₃, h₃₁, h₁₂⟩ := hinside
  have hsum := cornerEdge_sum l t r b c₁ c₂ c₃ x y
  have value (c c' : Corner) : Denotes (edge (i.placedVertex half frame width height c).position
      (i.placedVertex half frame width height c').position (pixelCentre x y))
      (cornerEdge l t r b c c' x y / 2) := by
    simp only [ResolvedInstance.position_placedVertex]
    exact denotes_edge_grid (denotes_corner hs c) (denotes_corner hs c') (abs_pickX_le hg c)
      (abs_pickY_le hg c) (abs_pickX_sub_le hg c' c) (abs_pickY_sub_le hg c' c) hx hy
  -- inside, the three edge values add up to the area, so none exceeds it
  have h₂₃' : 0 ≤ cornerEdge l t r b c₂ c₃ x y := h₂₃.nonneg
  have h₃₁' : 0 ≤ cornerEdge l t r b c₃ c₁ x y := h₃₁.nonneg
  have h₁₂' : 0 ≤ cornerEdge l t r b c₁ c₂ x y := h₁₂.nonneg
  obtain ⟨hb, hc⟩ := Triangle.weightsAt?_eq_some hw
  refine ⟨w, hvaryings, ?_, ?_, h₃₁', h₁₂', by omega, hpos⟩
  · rw [hb]
    exact near_share (value c₃ c₁) harea hpos h₃₁' (by omega)
  · rw [hc]
    exact near_share (value c₁ c₂) harea hpos h₁₂' (by omega)

/-- On a quad with whole corners a fragment has a world position within 2^-10
of the centre of its pixel. -/
theorem near_worldPosition (hs : Spans (i.placed frame width height) l t r b)
    (hworld : Spans (i.world frame) l t r b) (hg : GridRect l t r b) (hx : x < 1024) (hy : y < 1024)
    (hf : i.fragmentAt half frame width height x y = some f) :
    Near f.varyings.worldPosition.x (x + 1 / 2) (2 ^ (-10 : ℤ)) ∧
      Near f.varyings.worldPosition.y (y + 1 / 2) (2 ^ (-10 : ℤ)) := by
  obtain ⟨c₁, c₂, c₃, area, hpos, harea, hat⟩ := wound_of_fragmentAt hs hg hf
  obtain ⟨w, hvaryings, hw⟩ := gridWeights_of_fragmentAt hs hg hx hy hpos harea hat
  have corner (c : Corner) :
      (i.vertex c half frame).varyings.worldPosition.Denotes (c.pickX l r : ℤ) (c.pickY t b : ℤ) := by
    rw [i.worldPosition_vertex]
    exact denotes_corner hworld c
  rw [hvaryings]
  constructor
  · have h := hw.near_mix (corner c₁).x (corner c₂).x (corner c₃).x (abs_pickX_le hg c₁)
      (abs_pickX_sub_le hg c₂ c₁) (abs_pickX_sub_le hg c₃ c₁)
    rwa [centre_of_weighted (weighted_x l t r b c₁ c₂ c₃ x y) hpos.ne'] at h
  · have h := hw.near_mix (corner c₁).y (corner c₂).y (corner c₃).y (abs_pickY_le hg c₁)
      (abs_pickY_sub_le hg c₂ c₁) (abs_pickY_sub_le hg c₃ c₁)
    rwa [centre_of_weighted (weighted_y l t r b c₁ c₂ c₃ x y) hpos.ne'] at h

end Quad

end TileCompositor
