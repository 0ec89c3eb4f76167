import TileCompositor.Proofs.Coverage.Covering
/-!
# The shared diagonal of a quad

A pixel whose centre lies inside an axis-aligned quad is meant to be covered
by exactly one of its two triangles. On which side of the diagonal the centre
is, each triangle decides for itself: the first from the corner at the top
right, the second from the one at the bottom left, and each of them rounds
its own differences and products.

Results:
* `isSome_topLeft_iff`, `isSome_bottomRight_iff`: when each triangle covers
  a pixel with its centre inside the quad.
* `count_fragments_eq_one_iff`: the pixel has exactly one fragment if and
  only if the two rounded tests are opposite.
-/
namespace TileCompositor
open Binary32

/-! ## The distance between a centre and a side -/

/-- Values that are not small do not differ by little. -/
theorem gap_of_quarter_le {p q : ℚ} (hp : Representable p) (hq : Representable q) (h4 : 1 / 4 ≤ p)
    (h : p < q) : 2 ^ (-26 : ℤ) ≤ q - p := by
  have hmul {r : ℚ} (hr : Representable r) (h4 : 1 / 4 ≤ r) : IsMultiple (-26) r := by
    refine hr.isMultiple_of_le ?_
    rw [abs_of_nonneg (by linarith)]
    norm_num
    linarith
  exact (hmul hp h4).le_sub (hmul hq (h4.trans h.le)) h

/-- A centre is never so close to a value beside it that products underflow. -/
theorem gap_left {q : ℚ} (hq : Representable q) {n : ℕ} (h : q < centre n) :
    2 ^ (-26 : ℤ) ≤ centre n - q := by
  rcases le_or_gt (1 / 4) q with h4 | h4
  · exact gap_of_quarter_le hq (nearest_representable _) h4 h
  · have := half_le_centre n
    norm_num at h4 ⊢
    linarith

theorem gap_right {q : ℚ} (hq : Representable q) {n : ℕ} (h : centre n < q) :
    2 ^ (-26 : ℤ) ≤ q - centre n :=
  gap_of_quarter_le (nearest_representable _) hq
    ((by norm_num : (1 : ℚ) / 4 ≤ 1 / 2).trans (half_le_centre n)) h

theorem roundedProduct_pos {p q : ℚ} (hp : 2 ^ (-26 : ℤ) ≤ p) (hq : 2 ^ (-26 : ℤ) ≤ q) :
    0 < roundedProduct p q := by
  have hr : Representable (2 ^ (-26 : ℤ)) := representable_zpow (by norm_num)
  have h1 := mul_le_mul (le_nearest hr hp) (le_nearest hr hq) (two_zpow_pos _).le
    ((two_zpow_pos _).le.trans (le_nearest hr hp))
  rw [← zpow_add₀ (by norm_num)] at h1
  exact (two_zpow_pos _).trans_le (le_nearest (representable_zpow (by norm_num)) h1)

/-! ## The area -/

theorem boundedArea_iff {width height : ℚ} (hw : 0 ≤ width) (hh : 0 ≤ height) :
    BoundedArea width height ↔
      |nearest width| < 2 ^ 128 ∧ |nearest height| < 2 ^ 128 ∧
        |roundedProduct width height| < 2 ^ 128 := by
  rw [abs_of_nonneg (nearest_nonneg hw), abs_of_nonneg (nearest_nonneg hh),
    abs_of_nonneg (roundedProduct_nonneg hw hh)]
  exact ⟨fun h => ⟨h.width_lt, h.height_lt, h.area_lt⟩, fun h => ⟨h.1, h.2.1, h.2.2⟩⟩

/-- Two products of one sign within a bounded area do not differ by too much. -/
theorem abs_nearest_sub_lt {u v g : ℚ} (hg : Representable g) (hlt : g < 2 ^ 128) (hu : |u| ≤ g)
    (hv : |v| ≤ g) (hsame : 0 ≤ u ∧ 0 ≤ v ∨ u ≤ 0 ∧ v ≤ 0) : |nearest (u - v)| < 2 ^ 128 := by
  refine (abs_nearest_le hg ?_).trans_lt hlt
  rw [abs_le] at hu hv ⊢
  rcases hsame with ⟨h1, h2⟩ | ⟨h1, h2⟩ <;> constructor <;> linarith

/-! ## Edges of a rectangle -/

/-- A point of a rectangle. -/
structure InRect (l t r b x y : ℚ) : Prop where
  left : l ≤ x
  right : x ≤ r
  top : t ≤ y
  bottom : y ≤ b

/-- The side of an edge within a rectangle of bounded area on which a point of
it is. -/
theorem isInside_edge_within {a₁ a₂ p : Vec2} {ax ay bx b_y px py l t r b : ℚ} (h₁ : a₁.Denotes ax ay)
    (h₂ : a₂.Denotes bx b_y) (hp : p.Denotes px py) (i₁ : InRect l t r b ax ay)
    (i₂ : InRect l t r b bx b_y) (ip : InRect l t r b px py) (hbound : BoundedArea (r - l) (b - t))
    (hsame : 0 ≤ roundedProduct (bx - ax) (py - ay) ∧ 0 ≤ roundedProduct (b_y - ay) (px - ax) ∨
      roundedProduct (bx - ax) (py - ay) ≤ 0 ∧ roundedProduct (b_y - ay) (px - ax) ≤ 0)
    (flag : Bool) :
    isInside (edge a₁ a₂ p) flag = true ↔
      roundedProduct (b_y - ay) (px - ax) < roundedProduct (bx - ax) (py - ay) ∨
        roundedProduct (bx - ax) (py - ay) = roundedProduct (b_y - ay) (px - ax) ∧ flag = true := by
  obtain ⟨l₁, r₁, t₁, b₁⟩ := i₁
  obtain ⟨l₂, r₂, t₂, b₂⟩ := i₂
  obtain ⟨lp, rp, tp, bp⟩ := ip
  have d1 : |bx - ax| ≤ r - l := abs_le.mpr ⟨by linarith, by linarith⟩
  have d2 : |py - ay| ≤ b - t := abs_le.mpr ⟨by linarith, by linarith⟩
  have d3 : |b_y - ay| ≤ b - t := abs_le.mpr ⟨by linarith, by linarith⟩
  have d4 : |px - ax| ≤ r - l := abs_le.mpr ⟨by linarith, by linarith⟩
  have hu : |roundedProduct (bx - ax) (py - ay)| ≤ roundedProduct (r - l) (b - t) := by
    rw [abs_roundedProduct]
    exact roundedProduct_mono (abs_nonneg _) (abs_nonneg _) d1 d2
  have hv : |roundedProduct (b_y - ay) (px - ax)| ≤ roundedProduct (r - l) (b - t) := by
    rw [abs_roundedProduct, roundedProduct_comm]
    exact roundedProduct_mono (abs_nonneg _) (abs_nonneg _) d4 d3
  exact isInside_edge_iff h₁ h₂ hp (isFinite_edge h₁ h₂ hp hbound d1 d2 d3 d4
    (abs_nearest_sub_lt roundedProduct_representable hbound.area_lt hu hv hsame)) flag

/-- The centre of a pixel lies inside a rectangle. -/
structure CentreInside (l t r b : ℚ) (x y : ℕ) : Prop where
  left : l < centre x
  right : centre x < r
  top : t < centre y
  bottom : centre y < b

theorem CentreInside.inRect {l t r b : ℚ} {x y : ℕ} (hin : CentreInside l t r b x y) :
    InRect l t r b (centre x) (centre y) :=
  ⟨hin.left.le, hin.right.le, hin.top.le, hin.bottom.le⟩

/-- A centre keeps its distance from all four sides. -/
theorem CentreInside.gaps {q : PerCorner Vec2} {l t r b : ℚ} {x y : ℕ}
    (hin : CentreInside l t r b x y) (hs : Spans q l t r b) :
    (2 ^ (-26 : ℤ) ≤ centre x - l ∧ 2 ^ (-26 : ℤ) ≤ r - centre x) ∧
      2 ^ (-26 : ℤ) ≤ centre y - t ∧ 2 ^ (-26 : ℤ) ≤ b - centre y :=
  ⟨⟨gap_left hs.topLeft.x.representable hin.left, gap_right hs.topRight.x.representable hin.right⟩,
    gap_left hs.topLeft.y.representable hin.top, gap_right hs.bottomLeft.y.representable hin.bottom⟩

section Sides
variable {a₁ a₂ p : Vec2} {ax ay bx b_y px py l t r b : ℚ}

theorem isInside_horizontal (h₁ : a₁.Denotes ax ay) (h₂ : a₂.Denotes bx ay) (hp : p.Denotes px py)
    (i₁ : InRect l t r b ax ay) (i₂ : InRect l t r b bx ay) (ip : InRect l t r b px py)
    (hbound : BoundedArea (r - l) (b - t)) (hpos : 0 < roundedProduct (bx - ax) (py - ay))
    (flag : Bool) :
    isInside (edge a₁ a₂ p) flag = true := by
  rw [isInside_edge_within h₁ h₂ hp i₁ i₂ ip hbound (.inl ⟨hpos.le, by simp⟩), sub_self,
    roundedProduct_zero_left]
  exact .inl hpos

theorem isInside_vertical (h₁ : a₁.Denotes ax ay) (h₂ : a₂.Denotes ax b_y) (hp : p.Denotes px py)
    (i₁ : InRect l t r b ax ay) (i₂ : InRect l t r b ax b_y) (ip : InRect l t r b px py)
    (hbound : BoundedArea (r - l) (b - t)) (hneg : roundedProduct (b_y - ay) (px - ax) < 0)
    (flag : Bool) :
    isInside (edge a₁ a₂ p) flag = true := by
  rw [isInside_edge_within h₁ h₂ hp i₁ i₂ ip hbound (.inr ⟨by simp, hneg.le⟩), sub_self,
    roundedProduct_zero_left]
  exact .inl hneg

end Sides

/-! ## The two triangles -/

section Corners
variable {q : PerCorner Vec2} {l t r b : ℚ}

/-- The two triangles have the area of the rectangle, if it is not too large. -/
theorem isFinite_area (hs : Spans q l t r b) (hlr : l ≤ r) (htb : t ≤ b) (half : Half) :
    (q.area half).isFinite = true ↔ BoundedArea (r - l) (b - t) := by
  have hflip : roundedProduct (b - t) (l - r) = -roundedProduct (r - l) (b - t) := by
    rw [← neg_sub r l, roundedProduct_neg_right, roundedProduct_comm]
  have hbounded := boundedArea_iff (sub_nonneg.mpr hlr) (sub_nonneg.mpr htb)
  have hw : |r - l| ≤ r - l := (abs_of_nonneg (sub_nonneg.mpr hlr)).le
  have hh : |b - t| ≤ b - t := (abs_of_nonneg (sub_nonneg.mpr htb)).le
  cases half with
  | topLeft =>
    refine ⟨fun h => ?_, fun h => ?_⟩
    · obtain ⟨u, -, hu, -, -⟩ := operands_of_sub h
      have hproduct := isFinite_product_iff hs.topRight.x hs.topLeft.x hs.bottomLeft.y hs.topLeft.y
      exact hbounded.mpr (hproduct.mp hu.isFinite)
    · refine isFinite_edge hs.topLeft hs.topRight hs.bottomLeft h hw hh (by simpa using htb)
        (by simpa using hlr) ?_
      rw [sub_self, sub_self, roundedProduct_zero_left, sub_zero,
        nearest_of_representable roundedProduct_representable]
      exact (hbounded.mp h).2.2
  | bottomRight =>
    refine ⟨fun h => ?_, fun h => ?_⟩
    · obtain ⟨-, v, -, hv, -⟩ := operands_of_sub h
      have hproduct :=
        isFinite_product_iff hs.bottomRight.y hs.topRight.y hs.bottomLeft.x hs.topRight.x
      obtain ⟨h1, h2, h3⟩ := hproduct.mp hv.isFinite
      rw [← neg_sub r l, nearest_neg, abs_neg] at h2
      rw [hflip, abs_neg] at h3
      exact hbounded.mpr ⟨h2, h1, h3⟩
    · refine isFinite_edge hs.topRight hs.bottomRight hs.bottomLeft h (by simpa using hlr) hh hh
        (by rwa [abs_sub_comm]) ?_
      rw [sub_self, roundedProduct_zero_left, hflip, sub_neg_eq_add, zero_add,
        nearest_of_representable roundedProduct_representable]
      exact (hbounded.mp h).2.2

theorem denotes_area (hs : Spans q l t r b) (half : Half) (hfin : (q.area half).isFinite = true) :
    Denotes (q.area half) (roundedProduct (r - l) (b - t)) := by
  cases half with
  | topLeft =>
    have harea := denotes_edge hs.topLeft hs.topRight hs.bottomLeft hfin
    rwa [sub_self, sub_self, roundedProduct_zero_left, sub_zero,
      nearest_of_representable roundedProduct_representable] at harea
  | bottomRight =>
    have harea := denotes_edge hs.topRight hs.bottomRight hs.bottomLeft hfin
    rwa [sub_self, roundedProduct_zero_left, ← neg_sub r l, roundedProduct_neg_right,
      sub_neg_eq_add, zero_add, roundedProduct_comm,
      nearest_of_representable roundedProduct_representable] at harea

variable {x y : ℕ}

/-- From the top right corner, a centre is in the triangle at the top left if
it is strictly left of the diagonal. -/
theorem inside_topLeft (hs : Spans q l t r b) (hin : CentreInside l t r b x y) (hx : x < 2 ^ 32)
    (hy : y < 2 ^ 32) (hbound : BoundedArea (r - l) (b - t)) :
    q.Inside .topLeft (pixelCentre x y) ↔
      roundedProduct (r - l) (centre y - t) < roundedProduct (b - t) (r - centre x) := by
  have hp := denotes_pixelCentre hx hy
  have ip := hin.inRect
  have hlr : l ≤ r := ip.left.trans ip.right
  have htb : t ≤ b := ip.top.trans ip.bottom
  obtain ⟨⟨gl, gr⟩, gt, gb⟩ := hin.gaps hs
  have hgap := two_zpow_pos (-26)
  have iTL : InRect l t r b l t := ⟨le_rfl, hlr, le_rfl, htb⟩
  have iTR : InRect l t r b r t := ⟨hlr, le_rfl, le_rfl, htb⟩
  have iBL : InRect l t r b l b := ⟨le_rfl, hlr, htb, le_rfl⟩
  have p1 : 0 < roundedProduct (b - t) (r - centre x) := roundedProduct_pos (by linarith) gr
  have p2 : 0 < roundedProduct (r - l) (centre y - t) := roundedProduct_pos (by linarith) gt
  have p3 : 0 < roundedProduct (b - t) (centre x - l) := roundedProduct_pos (by linarith) gl
  have hleft : isInside (edge q.bottomLeft q.topLeft (pixelCentre x y))
      (isTopLeftEdge q.bottomLeft q.topLeft) = true :=
    isInside_vertical hs.bottomLeft hs.topLeft hp iBL iTL ip hbound
      (by rw [← neg_sub b t, roundedProduct_neg_left]; linarith) _
  have htop : isInside (edge q.topLeft q.topRight (pixelCentre x y))
      (isTopLeftEdge q.topLeft q.topRight) = true :=
    isInside_horizontal hs.topLeft hs.topRight hp iTL iTR ip hbound p2 _
  have e1 : roundedProduct (b - t) (centre x - r) = -roundedProduct (b - t) (r - centre x) := by
    rw [← roundedProduct_neg_right, neg_sub]
  have e2 : roundedProduct (l - r) (centre y - t) = -roundedProduct (r - l) (centre y - t) := by
    rw [← roundedProduct_neg_left, neg_sub]
  have hflag : isTopLeftEdge q.topRight q.bottomLeft = false := by
    rw [Bool.eq_false_iff, ne_eq, isTopLeftEdge_iff hs.topRight hs.bottomLeft]
    rintro (⟨-, h⟩ | h) <;> linarith
  -- the diagonal is not a left edge here, so that a centre on it is not inside
  have hdiagonal : isInside (edge q.topRight q.bottomLeft (pixelCentre x y)) false = true ↔
      roundedProduct (r - l) (centre y - t) < roundedProduct (b - t) (r - centre x) := by
    rw [isInside_edge_within hs.topRight hs.bottomLeft hp iTR iBL ip hbound
      (.inr ⟨by rw [e2]; linarith, by rw [e1]; linarith⟩), e1, e2, neg_lt_neg_iff]
    simp
  refine ⟨fun h => hdiagonal.mp (hflag ▸ h.1), fun h => ⟨?_, hleft, htop⟩⟩
  exact hflag ▸ hdiagonal.mpr h

/-- From the bottom left corner, a centre is in the triangle at the bottom
right if it is not left of the diagonal. -/
theorem inside_bottomRight (hs : Spans q l t r b) (hin : CentreInside l t r b x y) (hx : x < 2 ^ 32)
    (hy : y < 2 ^ 32) (hbound : BoundedArea (r - l) (b - t)) :
    q.Inside .bottomRight (pixelCentre x y) ↔
      roundedProduct (r - l) (b - centre y) ≤ roundedProduct (b - t) (centre x - l) := by
  have hp := denotes_pixelCentre hx hy
  have ip := hin.inRect
  have hlr : l ≤ r := ip.left.trans ip.right
  have htb : t ≤ b := ip.top.trans ip.bottom
  obtain ⟨⟨gl, gr⟩, gt, gb⟩ := hin.gaps hs
  have hgap := two_zpow_pos (-26)
  have iTR : InRect l t r b r t := ⟨hlr, le_rfl, le_rfl, htb⟩
  have iBR : InRect l t r b r b := ⟨hlr, le_rfl, htb, le_rfl⟩
  have iBL : InRect l t r b l b := ⟨le_rfl, hlr, htb, le_rfl⟩
  have p1 : 0 < roundedProduct (r - l) (b - centre y) := roundedProduct_pos (by linarith) gb
  have p2 : 0 < roundedProduct (b - t) (centre x - l) := roundedProduct_pos (by linarith) gl
  have p3 : 0 < roundedProduct (b - t) (r - centre x) := roundedProduct_pos (by linarith) gr
  have hright : isInside (edge q.topRight q.bottomRight (pixelCentre x y))
      (isTopLeftEdge q.topRight q.bottomRight) = true :=
    isInside_vertical hs.topRight hs.bottomRight hp iTR iBR ip hbound
      (by rw [← neg_sub r, roundedProduct_neg_right]; linarith) _
  have hbottom : isInside (edge q.bottomRight q.bottomLeft (pixelCentre x y))
      (isTopLeftEdge q.bottomRight q.bottomLeft) = true :=
    isInside_horizontal hs.bottomRight hs.bottomLeft hp iBR iBL ip hbound
      (by rwa [← neg_sub r l, ← neg_sub b, roundedProduct_neg_left, roundedProduct_neg_right,
        neg_neg]) _
  have e1 : roundedProduct (r - l) (centre y - b) = -roundedProduct (r - l) (b - centre y) := by
    rw [← roundedProduct_neg_right, neg_sub]
  have e2 : roundedProduct (t - b) (centre x - l) = -roundedProduct (b - t) (centre x - l) := by
    rw [← roundedProduct_neg_left, neg_sub]
  have hflag : isTopLeftEdge q.bottomLeft q.topRight = true :=
    (isTopLeftEdge_iff hs.bottomLeft hs.topRight).mpr (.inr (by linarith))
  -- the diagonal is a left edge here, so that a centre on it is inside
  have hdiagonal : isInside (edge q.bottomLeft q.topRight (pixelCentre x y)) true = true ↔
      roundedProduct (r - l) (b - centre y) ≤ roundedProduct (b - t) (centre x - l) := by
    rw [isInside_edge_within hs.bottomLeft hs.topRight hp iBL iTR ip hbound
      (.inr ⟨by rw [e1]; linarith, by rw [e2]; linarith⟩), e1, e2, neg_lt_neg_iff, neg_inj,
      le_iff_lt_or_eq]
    simp
  refine ⟨fun h => hdiagonal.mp (hflag ▸ h.2.1), fun h => ⟨hbottom, ?_, hright⟩⟩
  exact hflag ▸ hdiagonal.mpr h

end Corners

/-! ## The quad -/

section Quad
variable {i : ResolvedInstance} {frame : FrameUniforms} {width height : UInt32} {l t r b : ℚ}
  {x y : ℕ} (hs : Spans (i.placed frame width height) l t r b) (hin : CentreInside l t r b x y)
include hs hin

/-- At a centre inside the quad a triangle is tested by its edges alone. -/
theorem isSome_fragmentAt_within {half : Half} {test : Prop}
    (htest : BoundedArea (r - l) (b - t) →
      ((i.placed frame width height).Inside half (pixelCentre x y) ↔ test)) :
    (i.fragmentAt half frame width height x y).isSome = true ↔
      (x < reach width ∧ y < reach height) ∧ BoundedArea (r - l) (b - t) ∧ test := by
  have hlr : l ≤ r := hin.inRect.left.trans hin.inRect.right
  have htb : t ≤ b := hin.inRect.top.trans hin.inRect.bottom
  obtain ⟨⟨gl, -⟩, gt, -⟩ := hin.gaps hs
  have hfin := isFinite_area hs hlr htb half
  by_cases hbound : BoundedArea (r - l) (b - t)
  · have hpos : 0 < roundedProduct (r - l) (b - t) :=
      roundedProduct_pos (by linarith [hin.right]) (by linarith [hin.bottom])
    have hx := floor_le_of_lt_centre hs.topLeft.x.representable hin.left
    have hx' := lt_ceil_of_centre_lt hs.topRight.x.representable hin.right
    have hy := floor_le_of_lt_centre hs.topLeft.y.representable hin.top
    have hy' := lt_ceil_of_centre_lt hs.bottomLeft.y.representable hin.bottom
    rw [i.isSome_fragmentAt_iff hs (denotes_area hs half (hfin.mpr hbound)) hpos.ne', if_pos hpos,
      min_eq_left hlr, max_eq_right hlr, min_eq_left htb, max_eq_right htb, htest hbound]
    simp only [hx, hx', hy, hy', hbound, true_and]
  · rw [i.fragmentAt_of_not_finite (Bool.eq_false_iff.mpr fun h => hbound (hfin.mp h))]
    exact iff_of_false nofun (fun h => hbound h.2.1)

theorem isSome_topLeft_iff (hx : x < 2 ^ 32) (hy : y < 2 ^ 32) :
    (i.fragmentAt .topLeft frame width height x y).isSome = true ↔
      (x < reach width ∧ y < reach height) ∧ BoundedArea (r - l) (b - t) ∧
        roundedProduct (r - l) (centre y - t) < roundedProduct (b - t) (r - centre x) :=
  isSome_fragmentAt_within hs hin (inside_topLeft hs hin hx hy)

theorem isSome_bottomRight_iff (hx : x < 2 ^ 32) (hy : y < 2 ^ 32) :
    (i.fragmentAt .bottomRight frame width height x y).isSome = true ↔
      (x < reach width ∧ y < reach height) ∧ BoundedArea (r - l) (b - t) ∧
        roundedProduct (r - l) (b - centre y) ≤ roundedProduct (b - t) (centre x - l) :=
  isSome_fragmentAt_within hs hin (inside_bottomRight hs hin hx hy)

end Quad

/-! ## The two tests as they are computed -/

/-- Four points are, as numbers, the corners of the rectangle from `(l, t)` to
`(r, b)`. -/
structure OnRect (q : PerCorner Vec2) (l t r b : Float32) : Prop where
  topLeft : (q.topLeft == ⟨l, t⟩) = true
  topRight : (q.topRight == ⟨r, t⟩) = true
  bottomRight : (q.bottomRight == ⟨r, b⟩) = true
  bottomLeft : (q.bottomLeft == ⟨l, b⟩) = true

theorem Vec2.Denotes.of_beq {p q : Vec2} {x y : ℚ} (h : (p == q) = true) (hx : Binary32.Denotes q.x x)
    (hy : Binary32.Denotes q.y y) : p.Denotes x y := by
  rw [Vec2.beq_iff] at h
  exact ⟨hx.of_beq h.1, hy.of_beq h.2⟩

section Float
variable {l t r b : Float32} {l' t' r' b' : ℚ}

theorem OnRect.spans {q : PerCorner Vec2} (h : OnRect q l t r b) (hl : Denotes l l')
    (ht : Denotes t t') (hr : Denotes r r') (hb : Denotes b b') : Spans q l' t' r' b' :=
  ⟨.of_beq h.topLeft hl ht, .of_beq h.topRight hr ht, .of_beq h.bottomRight hr hb,
    .of_beq h.bottomLeft hl hb⟩

theorem isFinite_area_iff (hl : Denotes l l') (ht : Denotes t t') (hr : Denotes r r')
    (hb : Denotes b b') (hlr : l' ≤ r') (htb : t' ≤ b') :
    ((r - l) * (b - t)).isFinite = true ↔ BoundedArea (r' - l') (b' - t') := by
  rw [isFinite_product_iff hr hl hb ht, boundedArea_iff (by linarith) (by linarith)]

/-- Products of distances within a bounded area are computed without overflow. -/
theorem denotes_product_within {x y z w : Float32} {x' y' z' w' width height : ℚ} (hx : Denotes x x')
    (hy : Denotes y y') (hz : Denotes z z') (hw : Denotes w w') (h : BoundedArea width height)
    (h0 : 0 ≤ x' - y') (h1 : x' - y' ≤ width) (h2 : 0 ≤ z' - w') (h3 : z' - w' ≤ height) :
    Denotes ((x - y) * (z - w)) (roundedProduct (x' - y') (z' - w')) := by
  have hfin : ((x - y) * (z - w)).isFinite = true := by
    rw [isFinite_product_iff hx hy hz hw, ← boundedArea_iff h0 h2]
    exact ⟨(nearest_mono h1).trans_lt h.width_lt, (nearest_mono h3).trans_lt h.height_lt,
      (roundedProduct_mono h0 h2 h1 h3).trans_lt h.area_lt⟩
  obtain ⟨u, hu⟩ := isFinite_iff.mp hfin
  rwa [denotes_product hx hy hz hw hu] at hu

end Float

/-- Of two tests that share a condition, exactly one succeeds. -/
theorem toNat_add_eq_one_iff {a c : Bool} {R A C : Prop} (ha : a = true ↔ R ∧ A)
    (hc : c = true ↔ R ∧ C) :
    a.toNat + c.toNat = 1 ↔ R ∧ (A ↔ ¬ C) := by
  have h : a.toNat + c.toNat = 1 ↔ (a = true ↔ ¬ c = true) := by
    cases a <;> cases c <;> decide
  rw [h, ha, hc]
  tauto

/-- A pixel whose centre is strictly inside a quad on a rectangle has exactly
one fragment if and only if it is within reach, the area of the rectangle is
finite, and of the tests on the two sides of the diagonal exactly one holds
after rounding. -/
theorem count_fragments_eq_one_iff {i : ResolvedInstance} {frame : FrameUniforms}
    {width height : UInt32} {l t r b : Float32} (hl : l.isFinite = true) (ht : t.isFinite = true)
    (hr : r.isFinite = true) (hb : b.isFinite = true)
    (hq : OnRect (i.placed frame width height) l t r b) {x y : ℕ} (hx : x < width.toNat)
    (hy : y < height.toNat) (hleft : l < (pixelCentre x y).x) (hright : (pixelCentre x y).x < r)
    (htop : t < (pixelCentre x y).y) (hbottom : (pixelCentre x y).y < b) :
    (i.fragments frame width height).countP (fun f => (f.x, f.y) = (x, y)) = 1 ↔
      (x < reach width ∧ y < reach height) ∧ ((r - l) * (b - t)).isFinite = true ∧
        ((r - l) * ((pixelCentre x y).y - t) < (b - t) * (r - (pixelCentre x y).x) ↔
          ¬ (r - l) * (b - (pixelCentre x y).y) ≤ (b - t) * ((pixelCentre x y).x - l)) := by
  have hx' : x < 2 ^ 32 := hx.trans width.toNat_lt
  have hy' : y < 2 ^ 32 := hy.trans height.toNat_lt
  have hp := denotes_pixelCentre hx' hy'
  obtain ⟨l', dl⟩ := isFinite_iff.mp hl
  obtain ⟨t', dt⟩ := isFinite_iff.mp ht
  obtain ⟨r', dr⟩ := isFinite_iff.mp hr
  obtain ⟨b', db⟩ := isFinite_iff.mp hb
  have hin : CentreInside l' t' r' b' x y :=
    ⟨(dl.lt_iff hp.x).mp hleft, (hp.x.lt_iff dr).mp hright, (dt.lt_iff hp.y).mp htop,
      (hp.y.lt_iff db).mp hbottom⟩
  have hs := hq.spans dl dt dr db
  have ip := hin.inRect
  have hlr : l' ≤ r' := ip.left.trans ip.right
  have htb : t' ≤ b' := ip.top.trans ip.bottom
  rw [i.count_fragments, isFinite_area_iff dl dt dr db hlr htb]
  have hA := isSome_topLeft_iff hs hin hx' hy'
  have hB := isSome_bottomRight_iff hs hin hx' hy'
  by_cases hbound : BoundedArea (r' - l') (b' - t')
  · have hswap : BoundedArea (b' - t') (r' - l') :=
      ⟨hbound.height_lt, hbound.width_lt, roundedProduct_comm ▸ hbound.area_lt⟩
    have d1 := denotes_product_within dr dl hp.y dt hbound (by linarith) le_rfl (by linarith [ip.top])
      (by linarith [ip.bottom])
    have d2 := denotes_product_within db dt dr hp.x hswap (by linarith) le_rfl
      (by linarith [ip.right]) (by linarith [ip.left])
    have d3 := denotes_product_within dr dl db hp.y hbound (by linarith) le_rfl
      (by linarith [ip.bottom]) (by linarith [ip.top])
    have d4 := denotes_product_within db dt hp.x dl hswap (by linarith) le_rfl (by linarith [ip.left])
      (by linarith [ip.right])
    rw [d1.lt_iff d2, d3.le_iff d4]
    rw [and_iff_right hbound] at hA hB ⊢
    exact toNat_add_eq_one_iff hA hB
  · have hA' : (i.fragmentAt .topLeft frame width height x y).isSome = false :=
      Bool.eq_false_iff.mpr fun h => hbound (hA.mp h).2.1
    have hB' : (i.fragmentAt .bottomRight frame width height x y).isSome = false :=
      Bool.eq_false_iff.mpr fun h => hbound (hB.mp h).2.1
    rw [hA', hB']
    exact iff_of_false (by decide) (fun h => hbound h.2.1)

/-- A target of one pixel at five device pixels to a layout pixel. -/
def fiveFold : FrameUniforms := ⟨(Viewport.mk 1.0 1.0).projection, 5.0⟩

/-- On the square from (0.4, 0) to (1, 0.6) both tests fail at the centre
(0.5, 0.5), which lies almost on the diagonal. -/
theorem diagonal_gap :
    OnRect ((plainQuad (Rect.ofXYWH 0.4 0.0 0.6 0.6)).placed fiveFold 1 1)
      ((plainQuad (Rect.ofXYWH 0.4 0.0 0.6 0.6)).placed fiveFold 1 1).topLeft.x 0.0 1.0
      ((plainQuad (Rect.ofXYWH 0.4 0.0 0.6 0.6)).placed fiveFold 1 1).bottomRight.y ∧
    ¬ ((plainQuad (Rect.ofXYWH 0.4 0.0 0.6 0.6)).fragments fiveFold 1 1).countP
      (fun f => (f.x, f.y) = (0, 0)) = 1 := by
  have hq : OnRect ((plainQuad (Rect.ofXYWH 0.4 0.0 0.6 0.6)).placed fiveFold 1 1)
      ((plainQuad (Rect.ofXYWH 0.4 0.0 0.6 0.6)).placed fiveFold 1 1).topLeft.x 0.0 1.0
      ((plainQuad (Rect.ofXYWH 0.4 0.0 0.6 0.6)).placed fiveFold 1 1).bottomRight.y :=
    ⟨by decide +kernel, by decide +kernel, by decide +kernel, by decide +kernel⟩
  refine ⟨hq, ?_⟩
  rw [count_fragments_eq_one_iff (by decide +kernel) (by decide +kernel) (by decide +kernel)
    (by decide +kernel) hq (by decide) (by decide) (by decide +kernel) (by decide +kernel)
    (by decide +kernel) (by decide +kernel)]
  decide +kernel

/-- One quad leaves its only pixel out and another one covers it twice. -/
theorem diagonal_gap_and_overlap :
    ((plainQuad (Rect.ofXYWH 0.4 0.0 0.6 0.6)).fragments fiveFold 1 1).length = 0 ∧
      ((plainQuad (Rect.ofXYWH 0.0 0.4 0.6 0.6)).fragments fiveFold 1 1).length = 2 := by
  decide +kernel

end TileCompositor
