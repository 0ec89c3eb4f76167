import TileCompositor.Proofs.Coverage.Placement
import TileCompositor.Proofs.Coverage.PixelSemantics
/-!
# Quads on the pixel grid

A quad with whole corners covers exactly the pixels between them, each once.
Its edge values are whole numbers of halves, small enough to be exact, so the
fill rule decides by their true signs: of the two triangles one has the
centres on the one side of the diagonal, the other those on the other side,
and a centre on the diagonal goes to the triangle whose edge it is a left one of.

Results:
* `denotes_edge_grid`, `isInside_edge_grid`: the value of an edge between whole points at a centre,
  and the side on which the centre lies.
* `isSome_fragmentAt_topLeft_iff`, `isSome_fragmentAt_bottomRight_iff`: the pixels of each triangle.
* `count_coverage_aligned`: one fragment inside the rectangle, none outside.
* `aligned_quad_coverage`: the pixels of a record, of its mirror image and of its neighbours.
-/
namespace TileCompositor
open Binary32

/-! ## Edges between whole points -/

/-- Twice the value of the edge from `(ax, ay)` to `(bx, b_y)` at the centre of
a pixel. -/
def gridEdge (ax ay bx b_y : ℤ) (x y : ℕ) : ℤ :=
  (bx - ax) * (2 * y + 1 - 2 * ay) - (b_y - ay) * (2 * x + 1 - 2 * ax)

theorem abs_mul_le {m n a b : ℤ} (hm : |m| ≤ a) (hn : |n| ≤ b) : |m * n| ≤ a * b := by
  rw [abs_mul]
  exact mul_le_mul hm hn (abs_nonneg n) ((abs_nonneg m).trans hm)

/-- Products of a short side and a distance to a centre are not rounded. -/
theorem roundedProduct_grid {m n : ℤ} (hm : |m| ≤ 1024) (hn : |n| ≤ 6144) :
    roundedProduct m (n / 2) = (m * n : ℤ) / 2 := by
  have h1 : IsValue (m : ℚ) := isValue_intCast (hm.trans (by norm_num))
  have h2 : IsValue ((n : ℚ) / 2) :=
    isValue_of_eq n 1 (by norm_num) (hn.trans (by norm_num)) (by norm_num)
  have h3 : IsValue ((m : ℚ) * (n / 2)) :=
    isValue_of_eq (m * n) 1 (by push_cast; ring) ((abs_mul_le hm hn).trans (by norm_num))
      (by norm_num)
  rw [roundedProduct, nearest_of_representable h1.representable,
    nearest_of_representable h2.representable, nearest_of_representable h3.representable]
  push_cast
  ring

theorem boundedArea_grid : BoundedArea 4096 4096 := by
  have h : Representable (4096 : ℚ) := by simpa using representable_intCast (m := 4096) (by norm_num)
  have h2 : Representable ((4096 : ℚ) * 4096) := by
    have := representable_intCast (m := 4096 * 4096) (by norm_num)
    exact_mod_cast this
  refine ⟨?_, ?_, ?_⟩
  · rw [nearest_of_representable h]
    norm_num
  · rw [nearest_of_representable h]
    norm_num
  · rw [roundedProduct, nearest_of_representable h, nearest_of_representable h2]
    norm_num

/-- A centre is a whole number of halves away from a whole coordinate. -/
theorem half_sub_intCast (n : ℕ) (c : ℤ) :
    (n : ℚ) + 1 / 2 - c = (2 * (n : ℤ) + 1 - 2 * c : ℤ) / 2 := by
  push_cast
  ring

theorem abs_half_sub_le {n : ℕ} {c : ℤ} (hn : n < 1024) (hc : |c| ≤ 2048) :
    |2 * (n : ℤ) + 1 - 2 * c| ≤ 6144 := by
  rw [abs_le] at hc ⊢
  omega

/-- The difference of two products on the grid is not rounded. -/
theorem isValue_sub_grid {m n : ℤ} (hm : |m| ≤ 1024 * 6144) (hn : |n| ≤ 1024 * 6144) :
    IsValue ((m : ℚ) / 2 - n / 2) := by
  have e : (m : ℚ) / 2 - n / 2 = ((m - n : ℤ) : ℚ) / 2 ^ 1 := by
    push_cast
    ring
  rw [e]
  refine isValue_div_two_pow _ ?_ (by norm_num)
  rw [abs_le] at hm hn ⊢
  omega

section Edge
variable {a b : Vec2} {ax ay bx b_y : ℤ} {x y : ℕ}

/-- The value of an edge between whole points at a centre is not rounded. -/
theorem denotes_edge_grid (ha : a.Denotes ax ay) (hb : b.Denotes bx b_y) (hax : |ax| ≤ 2048)
    (hay : |ay| ≤ 2048) (hdx : |bx - ax| ≤ 1024) (hdy : |b_y - ay| ≤ 1024) (hx : x < 1024)
    (hy : y < 1024) : Denotes (edge a b (pixelCentre x y)) (gridEdge ax ay bx b_y x y / 2) := by
  have hp := denotes_pixelCentre (x := x) (y := y) (by omega) (by omega)
  rw [centre_eq (by omega), centre_eq (by omega)] at hp
  have hnx := abs_half_sub_le hx hax
  have hny := abs_half_sub_le hy hay
  have hu : roundedProduct (bx - ax) ((y : ℚ) + 1 / 2 - ay) =
      ((bx - ax) * (2 * y + 1 - 2 * ay) : ℤ) / 2 := by
    rw [half_sub_intCast, ← Int.cast_sub, roundedProduct_grid hdx hny]
  have hv : roundedProduct (b_y - ay) ((x : ℚ) + 1 / 2 - ax) =
      ((b_y - ay) * (2 * x + 1 - 2 * ax) : ℤ) / 2 := by
    rw [half_sub_intCast, ← Int.cast_sub, roundedProduct_grid hdy hnx]
  have hvalue := isValue_sub_grid (abs_mul_le hdx hny) (abs_mul_le hdy hnx)
  have hfin : (edge a b (pixelCentre x y)).isFinite = true := by
    refine isFinite_edge ha hb hp boundedArea_grid ?_ ?_ ?_ ?_ ?_
    · exact_mod_cast hdx.trans (by norm_num)
    · rw [half_sub_intCast, abs_div, abs_two, div_le_iff₀ (by norm_num)]
      exact_mod_cast hny.trans (by norm_num)
    · exact_mod_cast hdy.trans (by norm_num)
    · rw [half_sub_intCast, abs_div, abs_two, div_le_iff₀ (by norm_num)]
      exact_mod_cast hnx.trans (by norm_num)
    · rw [hu, hv]
      exact hvalue.abs_nearest_lt
  have hedge := denotes_edge ha hb hp hfin
  rw [hu, hv, nearest_of_representable hvalue.representable] at hedge
  convert hedge using 1
  rw [gridEdge, Int.cast_sub, sub_div]

theorem isInside_iff {v : Float32} {q : ℚ} (hv : Denotes v q) (flag : Bool) :
    isInside v flag = true ↔ 0 < q ∨ q = 0 ∧ flag = true := by
  rw [isInside, Bool.or_eq_true, Bool.and_eq_true, decide_eq_true_eq, denotes_zero.lt_iff hv,
    hv.beq_iff denotes_zero]

/-- Between whole points the fill rule goes by the true side of the edge. -/
theorem isInside_edge_grid (ha : a.Denotes ax ay) (hb : b.Denotes bx b_y) (hax : |ax| ≤ 2048)
    (hay : |ay| ≤ 2048) (hdx : |bx - ax| ≤ 1024) (hdy : |b_y - ay| ≤ 1024) (hx : x < 1024)
    (hy : y < 1024) (flag : Bool) :
    isInside (edge a b (pixelCentre x y)) flag = true ↔
      0 < gridEdge ax ay bx b_y x y ∨ gridEdge ax ay bx b_y x y = 0 ∧ flag = true := by
  have hpos : 0 < (gridEdge ax ay bx b_y x y : ℚ) / 2 ↔ 0 < gridEdge ax ay bx b_y x y := by
    rw [div_pos_iff_of_pos_right (by norm_num), Int.cast_pos]
  have hzero : (gridEdge ax ay bx b_y x y : ℚ) / 2 = 0 ↔ gridEdge ax ay bx b_y x y = 0 := by
    simp
  rw [isInside_iff (denotes_edge_grid ha hb hax hay hdx hdy hx hy), hpos, hzero]

/-- A centre is on the inner side of an edge between whole points, by the fill rule. -/
def OnInnerSide (ax ay bx b_y : ℤ) (x y : ℕ) : Prop :=
  0 < gridEdge ax ay bx b_y x y ∨
    gridEdge ax ay bx b_y x y = 0 ∧ (ay = b_y ∧ ax < bx ∨ b_y < ay)

theorem OnInnerSide.nonneg (h : OnInnerSide ax ay bx b_y x y) : 0 ≤ gridEdge ax ay bx b_y x y := by
  rcases h with h | ⟨h, -⟩
  · exact h.le
  · exact h.ge

theorem isInside_iff_onInnerSide (ha : a.Denotes ax ay) (hb : b.Denotes bx b_y) (hax : |ax| ≤ 2048)
    (hay : |ay| ≤ 2048) (hdx : |bx - ax| ≤ 1024) (hdy : |b_y - ay| ≤ 1024) (hx : x < 1024)
    (hy : y < 1024) :
    isInside (edge a b (pixelCentre x y)) (isTopLeftEdge a b) = true ↔
      OnInnerSide ax ay bx b_y x y := by
  rw [isInside_edge_grid ha hb hax hay hdx hdy hx hy, isTopLeftEdge_iff ha hb, OnInnerSide,
    Int.cast_inj, Int.cast_lt, Int.cast_lt]

end Edge

/-! ## The two triangles of a whole rectangle -/

/-- The corners `(l, t)` and `(r, b)` are different on both axes and within the
bounds. -/
structure GridRect (l t r b : ℤ) : Prop where
  l_le : |l| ≤ 2048
  t_le : |t| ≤ 2048
  r_le : |r| ≤ 2048
  b_le : |b| ≤ 2048
  width_le : |r - l| ≤ 1024
  height_le : |b - t| ≤ 1024
  width_ne : l ≠ r
  height_ne : t ≠ b

/-- A pixel between the corners, whatever their order. -/
structure InGridRect (l t r b : ℤ) (x y : ℕ) : Prop where
  left : min l r ≤ x
  right : x < max l r
  top : min t b ≤ y
  bottom : y < max t b

/-- The centre of a pixel is on that side of the diagonal where the corner
`(l, t)` lies; a centre on the diagonal counts if this makes its edge a left one. -/
def OnNearSide (l t r b : ℤ) (x y : ℕ) : Prop :=
  if 0 < (r - l) * (b - t) then OnInnerSide r t l b x y else OnInnerSide l b r t x y

/-- The diagonal taken the other way has the opposite value. -/
theorem gridEdge_reverse (l t r b : ℤ) (x y : ℕ) : gridEdge l b r t x y = -gridEdge r t l b x y := by
  unfold gridEdge
  ring

/-- Of the two sides of the diagonal a centre is on one. -/
theorem onInnerSide_reverse {l t r b : ℤ} (h : t ≠ b) (x y : ℕ) :
    OnInnerSide l b r t x y ↔ ¬ OnInnerSide r t l b x y := by
  unfold OnInnerSide
  rw [gridEdge_reverse]
  omega

theorem gridEdge_horizontal (ax bx ay : ℤ) (x y : ℕ) :
    gridEdge ax ay bx ay x y = (bx - ax) * (2 * y + 1 - 2 * ay) := by
  unfold gridEdge
  ring

theorem gridEdge_vertical (ax ay b_y : ℤ) (x y : ℕ) :
    gridEdge ax ay ax b_y x y = (ay - b_y) * (2 * x + 1 - 2 * ax) := by
  unfold gridEdge
  ring

/-! ## Triangles on three corners -/

theorem Corner.cast_pickX (l r : ℤ) (c : Corner) : ((c.pickX l r : ℤ) : ℚ) = c.pickX (l : ℚ) r := by
  cases c <;> rfl

theorem Corner.cast_pickY (t b : ℤ) (c : Corner) : ((c.pickY t b : ℤ) : ℚ) = c.pickY (t : ℚ) b := by
  cases c <;> rfl

section Corners
variable {q : PerCorner Vec2} {l t r b : ℤ} (hs : Spans q l t r b) (hg : GridRect l t r b)

include hs in
theorem denotes_corner (c : Corner) : (q.get c).Denotes (c.pickX l r : ℤ) (c.pickY t b : ℤ) := by
  rw [Corner.cast_pickX, Corner.cast_pickY]
  exact hs.denotes_get c

include hg

theorem abs_pickX_le (c : Corner) : |c.pickX l r| ≤ 2048 := by
  cases c <;> first | exact hg.l_le | exact hg.r_le

theorem abs_pickY_le (c : Corner) : |c.pickY t b| ≤ 2048 := by
  cases c <;> first | exact hg.t_le | exact hg.b_le

theorem abs_pickX_sub_le (c c' : Corner) : |c.pickX l r - c'.pickX l r| ≤ 1024 := by
  have h := hg.width_le
  rw [abs_le] at h ⊢
  cases c <;> cases c' <;> simp only [Corner.pickX] <;> omega

theorem abs_pickY_sub_le (c c' : Corner) : |c.pickY t b - c'.pickY t b| ≤ 1024 := by
  have h := hg.height_le
  rw [abs_le] at h ⊢
  cases c <;> cases c' <;> simp only [Corner.pickY] <;> omega

include hs

/-- Twice the area of the triangle of three corners. -/
theorem denotes_edge_corners (c₁ c₂ c₃ : Corner) :
    Denotes (edge (q.get c₁) (q.get c₂) (q.get c₃))
      ((c₂.pickX l r - c₁.pickX l r) * (c₃.pickY t b - c₁.pickY t b) -
        (c₂.pickY t b - c₁.pickY t b) * (c₃.pickX l r - c₁.pickX l r) : ℤ) := by
  have d₁ := denotes_corner hs c₁
  have d₂ := denotes_corner hs c₂
  have d₃ := denotes_corner hs c₃
  have x₂ := abs_pickX_sub_le hg c₂ c₁
  have x₃ := abs_pickX_sub_le hg c₃ c₁
  have y₂ := abs_pickY_sub_le hg c₂ c₁
  have y₃ := abs_pickY_sub_le hg c₃ c₁
  have side {m n : ℤ} (h : |m - n| ≤ 1024) : |m - n| ≤ 2 ^ 24 := h.trans (by norm_num)
  have product {m n : ℤ} (h : |m * n| ≤ 1024 * 1024) : |m * n| ≤ 2 ^ 24 := h.trans (by norm_num)
  have m₁ := abs_mul_le x₂ y₃
  have m₂ := abs_mul_le y₂ x₃
  have hu := (d₂.x.sub_intCast d₁.x (side x₂)).mul_intCast (d₃.y.sub_intCast d₁.y (side y₃))
    (product m₁)
  have hv := (d₂.y.sub_intCast d₁.y (side y₂)).mul_intCast (d₃.x.sub_intCast d₁.x (side x₃))
    (product m₂)
  refine hu.sub_intCast hv ?_
  rw [abs_le] at m₁ m₂ ⊢
  constructor <;> linarith

variable {x y : ℕ} (hx : x < 1024) (hy : y < 1024)
include hx hy

theorem insideEdges_corners (c₁ c₂ c₃ : Corner) :
    InsideEdges (q.get c₁) (q.get c₂) (q.get c₃) (pixelCentre x y) ↔
      OnInnerSide (c₂.pickX l r) (c₂.pickY t b) (c₃.pickX l r) (c₃.pickY t b) x y ∧
        OnInnerSide (c₃.pickX l r) (c₃.pickY t b) (c₁.pickX l r) (c₁.pickY t b) x y ∧
          OnInnerSide (c₁.pickX l r) (c₁.pickY t b) (c₂.pickX l r) (c₂.pickY t b) x y := by
  have side (c c' : Corner) := isInside_iff_onInnerSide (denotes_corner hs c) (denotes_corner hs c')
    (abs_pickX_le hg c) (abs_pickY_le hg c) (abs_pickX_sub_le hg c' c)
    (abs_pickY_sub_le hg c' c) hx hy
  rw [InsideEdges, side, side, side]

end Corners

/-! ## The pixels of each triangle -/

section Halves
variable {l t r b : ℤ}

theorem GridRect.area_ne (hg : GridRect l t r b) : (r - l) * (b - t) ≠ 0 :=
  mul_ne_zero (sub_ne_zero.mpr hg.width_ne.symm) (sub_ne_zero.mpr hg.height_ne.symm)

/-- A rectangle described counterclockwise is described clockwise from the bottom. -/
theorem GridRect.area_flip (hg : GridRect l t r b) (h : ¬ 0 < (r - l) * (b - t)) :
    0 < (r - l) * (t - b) := by
  have hneg : (r - l) * (b - t) < 0 := lt_of_le_of_ne (not_lt.mp h) hg.area_ne
  linarith

/-- Both triangles have the area of the rectangle, with its sign. -/
theorem denotes_area_grid {q : PerCorner Vec2} (hs : Spans q l t r b) (hg : GridRect l t r b)
    (half : Half) :
    Denotes (q.area half) ((r - l) * (b - t) : ℤ) := by
  have h := denotes_edge_corners hs hg half.corners.1 half.corners.2.1 half.corners.2.2
  unfold PerCorner.area
  cases half <;> convert h using 2 <;> simp only [Half.corners, Corner.pickX, Corner.pickY] <;> ring

theorem inGridRect_iff {x y : ℕ} :
    InGridRect l t r b x y ↔ (min l r ≤ x ∧ x < max l r) ∧ min t b ≤ y ∧ y < max t b :=
  ⟨fun h => ⟨⟨h.left, h.right⟩, h.top, h.bottom⟩, fun h => ⟨h.1.1, h.1.2, h.2.1, h.2.2⟩⟩

/-- A triangle covers the pixels between the corners that are inside of its
edges, taken clockwise. -/
theorem isSome_fragmentAt_grid {i : ResolvedInstance} {frame : FrameUniforms}
    {width height : UInt32} {x y : ℕ} (hs : Spans (i.placed frame width height) l t r b)
    (hg : GridRect l t r b) (hw : width.toNat ≤ 1024) (hh : height.toNat ≤ 1024)
    (hx : x < width.toNat) (hy : y < height.toNat) (half : Half) :
    (i.fragmentAt half frame width height x y).isSome = true ↔ InGridRect l t r b x y ∧
      if 0 < (r - l) * (b - t) then (i.placed frame width height).Inside half (pixelCentre x y)
      else (i.placed frame width height).InsideTurned half (pixelCentre x y) := by
  have h0 : (((r - l) * (b - t) : ℤ) : ℚ) ≠ 0 := by exact_mod_cast hg.area_ne
  rw [i.isSome_fragmentAt_iff hs (denotes_area_grid hs hg half) h0, inGridRect_iff,
    reach_eq (by omega), reach_eq (by omega)]
  simp only [← Int.cast_min, ← Int.cast_max, Int.floor_intCast, Int.ceil_intCast, Int.cast_pos, hx,
    hy, and_true]

end Halves

/-- A centre between the corners is on the inner side of the four sides, taken clockwise. -/
theorem onInnerSide_sides {l t r b : ℤ} {x y : ℕ} (hpos : 0 < (r - l) * (b - t))
    (hin : InGridRect l t r b x y) :
    OnInnerSide l t r t x y ∧ OnInnerSide r t r b x y ∧ OnInnerSide r b l b x y ∧
      OnInnerSide l b l t x y := by
  obtain ⟨h1, h2, h3, h4⟩ := hin
  unfold OnInnerSide
  rw [gridEdge_horizontal, gridEdge_vertical, gridEdge_horizontal, gridEdge_vertical]
  rcases mul_pos_iff.mp hpos with ⟨hx, hy⟩ | ⟨hx, hy⟩ <;>
    exact ⟨.inl (mul_pos_iff.mpr (by omega)), .inl (mul_pos_iff.mpr (by omega)),
      .inl (mul_pos_iff.mpr (by omega)), .inl (mul_pos_iff.mpr (by omega))⟩

/-- The corners may be described from the bottom. -/
theorem InGridRect.flip {l t r b : ℤ} {x y : ℕ} (h : InGridRect l t r b x y) :
    InGridRect l b r t x y :=
  ⟨h.left, h.right, min_comm t b ▸ h.top, max_comm t b ▸ h.bottom⟩

/-- The corners may be described from the right. -/
theorem InGridRect.mirror {l t r b : ℤ} {x y : ℕ} (h : InGridRect l t r b x y) :
    InGridRect r t l b x y :=
  ⟨min_comm l r ▸ h.left, max_comm l r ▸ h.right, h.top, h.bottom⟩

section Halves
variable {l t r b : ℤ} {i : ResolvedInstance} {frame : FrameUniforms} {width height : UInt32}
  {x y : ℕ} (hs : Spans (i.placed frame width height) l t r b) (hg : GridRect l t r b)
  (hw : width.toNat ≤ 1024) (hh : height.toNat ≤ 1024) (hx : x < width.toNat)
  (hy : y < height.toNat)
include hs hg hw hh hx hy

/-- The triangle at the top left has the pixels on the near side of the diagonal. -/
theorem isSome_fragmentAt_topLeft_iff :
    (i.fragmentAt .topLeft frame width height x y).isSome = true ↔
      InGridRect l t r b x y ∧ OnNearSide l t r b x y := by
  rw [isSome_fragmentAt_grid hs hg hw hh hx hy]
  refine and_congr_right fun hin => ?_
  simp only [PerCorner.Inside, PerCorner.InsideTurned,
    insideEdges_corners hs hg (hx.trans_le hw) (hy.trans_le hh), Half.corners, Corner.pickX,
    Corner.pickY, OnNearSide]
  split
  · next hpos =>
    obtain ⟨htop, -, -, hleft⟩ := onInnerSide_sides hpos hin
    exact ⟨fun h => h.1, fun h => ⟨h, hleft, htop⟩⟩
  · next hneg =>
    obtain ⟨-, -, htop, hleft⟩ := onInnerSide_sides (hg.area_flip hneg) hin.flip
    exact ⟨fun h => h.1, fun h => ⟨h, htop, hleft⟩⟩

/-- The triangle at the bottom right has the others. -/
theorem isSome_fragmentAt_bottomRight_iff :
    (i.fragmentAt .bottomRight frame width height x y).isSome = true ↔
      InGridRect l t r b x y ∧ ¬ OnNearSide l t r b x y := by
  rw [isSome_fragmentAt_grid hs hg hw hh hx hy]
  refine and_congr_right fun hin => ?_
  simp only [PerCorner.Inside, PerCorner.InsideTurned,
    insideEdges_corners hs hg (hx.trans_le hw) (hy.trans_le hh), Half.corners, Corner.pickX,
    Corner.pickY, OnNearSide]
  split
  · next hpos =>
    obtain ⟨-, hright, hbottom, -⟩ := onInnerSide_sides hpos hin
    rw [← onInnerSide_reverse hg.height_ne]
    exact ⟨fun h => h.2.1, fun h => ⟨hbottom, h, hright⟩⟩
  · next hneg =>
    obtain ⟨hbottom, hright, -, -⟩ := onInnerSide_sides (hg.area_flip hneg) hin.flip
    rw [← onInnerSide_reverse hg.height_ne.symm]
    exact ⟨fun h => h.2.2, fun h => ⟨hbottom, hright, h⟩⟩

end Halves

/-! ## The pixels of a quad -/

/-- The places of the fragments of a quad, in the order in which they are generated. -/
def ResolvedInstance.coverage (i : ResolvedInstance) (frame : FrameUniforms) (width height : UInt32) :
    List (ℕ × ℕ) :=
  (i.fragments frame width height).map fun f => (f.x, f.y)

theorem ResolvedInstance.count_coverage (i : ResolvedInstance) (frame : FrameUniforms)
    (width height : UInt32) (x y : ℕ) :
    (i.coverage frame width height).count (x, y) =
      (i.fragmentAt .topLeft frame width height x y).isSome.toNat +
        (i.fragmentAt .bottomRight frame width height x y).isSome.toNat := by
  rw [← i.count_fragments, coverage, List.count, List.countP_map]
  exact List.countP_congr fun f _ => by simp

/-- Outside of the target there are no fragments. -/
theorem ResolvedInstance.isSome_fragmentAt_target {i : ResolvedInstance} {half : Half}
    {frame : FrameUniforms} {width height : UInt32} (hw : width.toNat ≤ 2 ^ 24)
    (hh : height.toNat ≤ 2 ^ 24) {x y : ℕ}
    (h : (i.fragmentAt half frame width height x y).isSome = true) :
    x < width.toNat ∧ y < height.toNat := by
  obtain ⟨f, hf⟩ := Option.isSome_iff_exists.mp h
  obtain ⟨⟨-, hx⟩, -, hy⟩ := fragmentAt_contains hf
  rw [targetBox, reach_eq hw, reach_eq hh] at *
  exact ⟨hx, hy⟩

section Quad
variable {l t r b : ℤ} {i : ResolvedInstance} {frame : FrameUniforms} {width height : UInt32}
  (hs : Spans (i.placed frame width height) l t r b) (hg : GridRect l t r b)
  (hw : width.toNat ≤ 1024) (hh : height.toNat ≤ 1024)
include hs hg hw hh

/-- A pixel of the target has one fragment if it is between the corners, and none if not. -/
theorem count_coverage_aligned (x y : ℕ) :
    (x < width.toNat ∧ y < height.toNat ∧ InGridRect l t r b x y →
        (i.coverage frame width height).count (x, y) = 1) ∧
      (¬ (x < width.toNat ∧ y < height.toNat ∧ InGridRect l t r b x y) →
        (i.coverage frame width height).count (x, y) = 0) := by
  rw [i.count_coverage]
  constructor
  · rintro ⟨hx, hy, hin⟩
    have h1 := isSome_fragmentAt_topLeft_iff hs hg hw hh hx hy
    have h2 := isSome_fragmentAt_bottomRight_iff hs hg hw hh hx hy
    rw [and_iff_right hin] at h1 h2
    by_cases hnear : OnNearSide l t r b x y
    · rw [h1.mpr hnear, Bool.eq_false_iff.mpr fun h => h2.mp h hnear]
      rfl
    · rw [h2.mpr hnear, Bool.eq_false_iff.mpr fun h => hnear (h1.mp h)]
      rfl
  · intro hout
    have none (half : Half) : (i.fragmentAt half frame width height x y).isSome = false := by
      rw [Bool.eq_false_iff]
      intro h
      obtain ⟨hx, hy⟩ := i.isSome_fragmentAt_target (by omega) (by omega) h
      exact hout ⟨hx, hy, ((isSome_fragmentAt_grid hs hg hw hh hx hy half).mp h).1⟩
    rw [none, none]
    rfl

theorem nodup_coverage : (i.coverage frame width height).Nodup := by
  rw [List.nodup_iff_count]
  rintro ⟨x, y⟩
  obtain ⟨hin, hout⟩ := count_coverage_aligned hs hg hw hh x y
  by_cases h : x < width.toNat ∧ y < height.toNat ∧ InGridRect l t r b x y
  · exact (hin h).le
  · rw [hout h]
    exact Nat.zero_le 1

theorem mem_coverage_iff {x y : ℕ} :
    (x, y) ∈ i.coverage frame width height ↔
      x < width.toNat ∧ y < height.toNat ∧ InGridRect l t r b x y := by
  obtain ⟨hin, hout⟩ := count_coverage_aligned hs hg hw hh x y
  rw [← List.count_pos_iff]
  by_cases h : x < width.toNat ∧ y < height.toNat ∧ InGridRect l t r b x y
  · rw [hin h]
    exact iff_of_true Nat.one_pos h
  · rw [hout h]
    exact iff_of_false (Nat.lt_irrefl 0) h

end Quad

/-! ## Records -/

/-- A draw takes a record as the instance `i`, which is not transformed, and
the rectangle of the record has whole numbers. -/
structure TakenAs (s : DrawSettings) (record : InstanceRecord) (i : ResolvedInstance)
    (x y w h : ℤ) : Prop where
  accepted : s.accept record = .ok i
  untransformed : i.transform = Mat4.identity
  rect : IntegerRect record.rect x y w h

/-- The numbers that the rectangle of a record may have. -/
structure InRange (x y w h : ℤ) : Prop where
  x_le : |x| ≤ 1024
  y_le : |y| ≤ 1024
  w_le : |w| ≤ 1024
  h_le : |h| ≤ 1024
  w_ne : w ≠ 0
  h_ne : h ≠ 0

/-- A rectangle within which nothing is rounded has corners on the grid. -/
theorem SmallRect.gridRect {x y w h : ℤ} (hsmall : SmallRect x y w h) (hw : w ≠ 0) (hh : h ≠ 0) :
    GridRect x y (x + w) (y + h) where
  l_le := hsmall.x_le
  t_le := hsmall.y_le
  r_le := hsmall.far_x_le
  b_le := hsmall.far_y_le
  width_le := by simpa using hsmall.w_le
  height_le := by simpa using hsmall.h_le
  width_ne := by omega
  height_ne := by omega

theorem smallRect_of_abs_le {x y w h : ℤ} (hx : |x| ≤ 1024) (hy : |y| ≤ 1024) (hw : |w| ≤ 1024)
    (hh : |h| ≤ 1024) : SmallRect x y w h := by
  rw [abs_le] at hx hy hw hh
  constructor <;> rw [abs_le] <;> omega

theorem InRange.smallRect {x y w h : ℤ} (hr : InRange x y w h) : SmallRect x y w h :=
  smallRect_of_abs_le hr.x_le hr.y_le hr.w_le hr.h_le

theorem InRange.smallRect_mirrored {x y w h : ℤ} (hr : InRange x y w h) :
    SmallRect (x + w) y (-w) h := by
  obtain ⟨hx, hy, hw, hh, -, -⟩ := hr
  rw [abs_le] at hx hy hw hh
  constructor <;> rw [abs_le] <;> omega

section Contains
variable {rect : Rect} {x y w h : ℤ} (hrect : IntegerRect rect x y w h) (hsmall : SmallRect x y w h)
include hrect hsmall

theorem IntegerRect.denotes_far : rect.far.Denotes (x + w : ℤ) (y + h : ℤ) :=
  ⟨TileCompositor.denotes_far hrect.x hrect.w denotes_one hsmall.far_x_le,
    TileCompositor.denotes_far hrect.y hrect.h denotes_one hsmall.far_y_le⟩

theorem IntegerRect.denotes_min : rect.min.Denotes (min x (x + w) : ℤ) (min y (y + h) : ℤ) := by
  have hfar := hrect.denotes_far hsmall
  rw [Int.cast_min, Int.cast_min]
  exact ⟨Scalar.denotes_minNum hrect.x hfar.x, Scalar.denotes_minNum hrect.y hfar.y⟩

theorem IntegerRect.denotes_max : rect.max.Denotes (max x (x + w) : ℤ) (max y (y + h) : ℤ) := by
  have hfar := hrect.denotes_far hsmall
  rw [Int.cast_max, Int.cast_max]
  exact ⟨Scalar.denotes_maxNum hrect.x hfar.x, Scalar.denotes_maxNum hrect.y hfar.y⟩

/-- A rectangle with whole numbers contains a point if it has the pixel in which the point lies. -/
theorem IntegerRect.contains_iff {p : Vec2} {u v : ℚ} (hp : p.Denotes u v) {px py : ℕ}
    (hu : ⌊u⌋ = px) (hv : ⌊v⌋ = py) :
    rect.contains p = true ↔ InGridRect x y (x + w) (y + h) px py := by
  have hmin := hrect.denotes_min hsmall
  have hmax := hrect.denotes_max hsmall
  simp only [Rect.contains, Bool.and_eq_true, decide_eq_true_eq]
  rw [hmin.x.le_iff hp.x, hmin.y.le_iff hp.y, hp.x.lt_iff hmax.x, hp.y.lt_iff hmax.y, ← Int.le_floor,
    ← Int.le_floor, ← Int.floor_lt, ← Int.floor_lt, hu, hv]
  exact ⟨fun h => ⟨h.1.1.1, h.1.2, h.1.1.2, h.2⟩, fun h => ⟨⟨⟨h.left, h.top⟩, h.right⟩, h.bottom⟩⟩

/-- The pixels of a rectangle with whole numbers are those between its corners. -/
theorem contains_ofNat_iff {px py : ℕ} (hpx : px < 1024) (hpy : py < 1024) :
    rect.contains ⟨Scalar.ofNat px, Scalar.ofNat py⟩ = true ↔
      InGridRect x y (x + w) (y + h) px py := by
  have place {n : ℕ} (hn : n < 1024) : Denotes (Scalar.ofNat n) n :=
    Scalar.denotes_ofNat_of_le (by omega)
  exact hrect.contains_iff hsmall ⟨place hpx, place hpy⟩ (Int.floor_natCast px) (Int.floor_natCast py)

end Contains

section Target
variable {s : DrawSettings} {t : Target} {j k : ℕ} (hj : j ≤ 10) (hk : k ≤ 10)
  (hw : t.width.toNat = 2 ^ j) (hh : t.height.toNat = 2 ^ k)
  (hframe : s.frame = ⟨t.viewport.projection, 1.0⟩)
  {record : InstanceRecord} {i : ResolvedInstance} {x y w h : ℤ} (hi : TakenAs s record i x y w h)

include hj hk hw hh hframe hi in
/-- The corners of a record that is taken. -/
theorem TakenAs.spans (hsmall : SmallRect x y w h) :
    Spans (i.placed s.frame t.width t.height) x y (x + w : ℤ) (y + h : ℤ) := by
  have hrecord := InstanceRecord.record_of_resolve (DrawSettings.accept_eq_ok_iff.mp hi.accepted).1
  exact spans_placed hj hk hw hh hi.untransformed hframe (hrecord ▸ hi.rect) hsmall

theorem le_of_two_pow {n j : ℕ} (hj : j ≤ 10) (hn : n = 2 ^ j) : n ≤ 1024 := by
  rw [hn]
  exact Nat.pow_le_pow_right (by norm_num) hj

/-- On a target whose sides are powers of two up to 1024, shown at its own
size, a record that is not transformed and has a rectangle with whole numbers
has one fragment at every pixel of the target that the rectangle contains, and
no others. The rectangle described from its other side has the same pixels,
and beyond an edge that it may share with another one it has none. -/
theorem aligned_quad_coverage {s : DrawSettings} {t : Target} {j k : ℕ} (hj : j ≤ 10) (hk : k ≤ 10)
    (hw : t.width.toNat = 2 ^ j) (hh : t.height.toNat = 2 ^ k)
    (hframe : s.frame = ⟨t.viewport.projection, 1.0⟩) {record : InstanceRecord} {i : ResolvedInstance}
    {x y w h : ℤ} (hi : TakenAs s record i x y w h) (hr : InRange x y w h) :
    ((i.coverage s.frame t.width t.height).Nodup ∧
      (∀ px py, (px, py) ∈ i.coverage s.frame t.width t.height ↔
        px < t.width.toNat ∧ py < t.height.toNat ∧
          record.rect.contains ⟨Scalar.ofNat px, Scalar.ofNat py⟩ = true) ∧
      (s.draw t [record]).stats.shaded + (s.draw t [record]).stats.discarded =
        (i.coverage s.frame t.width t.height).length) ∧
    (∀ record' i', TakenAs s record' i' (x + w) y (-w) h →
      (i'.coverage s.frame t.width t.height).Perm (i.coverage s.frame t.width t.height)) ∧
    ∀ record' i' x' y' w' h', TakenAs s record' i' x' y' w' h' → InRange x' y' w' h' →
      max x (x + w) ≤ min x' (x' + w') ∨ max y (y + h) ≤ min y' (y' + h') →
      (i.coverage s.frame t.width t.height).Disjoint (i'.coverage s.frame t.width t.height) := by
  have hw' := le_of_two_pow hj hw
  have hh' := le_of_two_pow hk hh
  have hsmall := hr.smallRect
  have hspans := hi.spans hj hk hw hh hframe hsmall
  have hgrid := hsmall.gridRect hr.w_ne hr.h_ne
  refine ⟨⟨nodup_coverage hspans hgrid hw' hh', ?_, ?_⟩, ?_, ?_⟩
  · intro px py
    rw [mem_coverage_iff hspans hgrid hw' hh']
    refine and_congr_right fun hpx => and_congr_right fun hpy => ?_
    rw [contains_ofNat_iff hi.rect hsmall (hpx.trans_le hw') (hpy.trans_le hh')]
  · rw [s.shaded_add_discarded, DrawSettings.instances, List.filterMap_cons, hi.accepted]
    simp [Except.toOption, ResolvedInstance.coverage]
  · intro record' i' hi'
    have hsmall' := hr.smallRect_mirrored
    have hspans' := hi'.spans hj hk hw hh hframe hsmall'
    have hgrid' := hsmall'.gridRect (neg_ne_zero.mpr hr.w_ne) hr.h_ne
    rw [List.perm_ext_iff_of_nodup (nodup_coverage hspans' hgrid' hw' hh')
      (nodup_coverage hspans hgrid hw' hh')]
    rintro ⟨px, py⟩
    rw [mem_coverage_iff hspans' hgrid' hw' hh', mem_coverage_iff hspans hgrid hw' hh',
      add_neg_cancel_right]
    exact and_congr_right fun _ => and_congr_right fun _ => ⟨InGridRect.mirror, InGridRect.mirror⟩
  · rintro record' i' x' y' w' h' hi' hr' happart ⟨px, py⟩ hp hp'
    have hsmall' := hr'.smallRect
    have hspans' := hi'.spans hj hk hw hh hframe hsmall'
    obtain ⟨-, -, h1⟩ := (mem_coverage_iff hspans hgrid hw' hh').mp hp
    obtain ⟨-, -, h2⟩ :=
      (mem_coverage_iff hspans' (hsmall'.gridRect hr'.w_ne hr'.h_ne) hw' hh').mp hp'
    rcases happart with h | h
    · exact absurd (h1.right.trans_le (h.trans h2.left)) (lt_irrefl _)
    · exact absurd (h1.bottom.trans_le (h.trans h2.top)) (lt_irrefl _)

end Target

/-- The colour pass over two by two pixels. -/
def twoByTwo : DrawSettings :=
  { DrawSettings.onePixel with frame := ⟨(Target.new 2 2).viewport.projection, 1.0⟩ }

/-- A quad described from the top right of the target covers the pixel there. -/
theorem topRight_covered :
    TakenAs twoByTwo (.ofRect (Rect.ofXYWH 2.0 0.0 (-1.0) 1.0))
        (plainQuad (Rect.ofXYWH 2.0 0.0 (-1.0) 1.0)) 2 0 (-1) 1 ∧
      InRange 2 0 (-1) 1 ∧
      (1, 0) ∈ (plainQuad (Rect.ofXYWH 2.0 0.0 (-1.0) 1.0)).coverage twoByTwo.frame 2 2 := by
  have hi : TakenAs twoByTwo (.ofRect (Rect.ofXYWH 2.0 0.0 (-1.0) 1.0))
      (plainQuad (Rect.ofXYWH 2.0 0.0 (-1.0) 1.0)) 2 0 (-1) 1 :=
    ⟨rfl, rfl, ⟨by exact_mod_cast denotes_two, by exact_mod_cast denotes_zero,
      by exact_mod_cast denotes_one.neg, by exact_mod_cast denotes_one⟩⟩
  have hr : InRange 2 0 (-1) 1 := by constructor <;> decide
  have h := aligned_quad_coverage (t := Target.new 2 2) (j := 1) (k := 1) (by decide)
    (by decide) rfl rfl rfl hi hr
  refine ⟨hi, hr, (h.1.2.1 1 0).mpr ⟨by decide, by decide, by decide +kernel⟩⟩

end TileCompositor
