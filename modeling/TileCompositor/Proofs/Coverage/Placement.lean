import TileCompositor.Proofs.Coverage.Covering
/-!
# Placing quads with whole coordinates

On a target whose sides are powers of two, the projection of the viewport and
the way back to pixels are exact for whole coordinates: every step has a
result with few bits. A quad that its own transform leaves in place, at one
device pixel to a layout pixel, therefore lies where its rectangle says.

Results:
* `ScaleShift.denotes_project`: matrices that scale and shift the axes.
* `scaleShift_identity`, `scaleShift_projection`: the two that a quad passes through.
* `denotes_toPixels`: from clip space to pixels.
* `spans_placed`, `spans_world`: the corners of the quad on the target and in the world.
-/
namespace TileCompositor
open Binary32

/-! ## Matrices -/

/-- In the plane, `m` multiplies the axes by `a` and `b` and moves by `(e, f)`. -/
structure ScaleShift (m : Mat4) (a b e f : ℚ) : Prop where
  c0x : Denotes m.c0.x a
  c0y : Denotes m.c0.y 0
  c0w : Denotes m.c0.w 0
  c1x : Denotes m.c1.x 0
  c1y : Denotes m.c1.y b
  c1w : Denotes m.c1.w 0
  c2x : Denotes m.c2.x 0
  c2y : Denotes m.c2.y 0
  c2w : Denotes m.c2.w 0
  c3x : Denotes m.c3.x e
  c3y : Denotes m.c3.y f
  c3w : Denotes m.c3.w 1

/-- A homogeneous point with last coordinate one. -/
theorem denotes_project {v : Vec4} {x y : ℚ} (hx : Denotes v.x x) (hy : Denotes v.y y)
    (hw : Denotes v.w 1) :
    v.project.Denotes x y := by
  have hne : (v.w != 0.0) = true := by
    have : ¬ (v.w == 0.0) = true := by
      rw [hw.beq_iff denotes_zero]
      norm_num
    simpa [bne] using this
  unfold Vec4.project
  rw [if_pos hne]
  exact ⟨denotes_div_one hx hw, denotes_div_one hy hw⟩

/-- Points go where the numbers say, if nothing is rounded on the way. -/
theorem ScaleShift.denotes_project {m : Mat4} {a b e f x y : ℚ} {p : Vec2} (hm : ScaleShift m a b e f)
    (hp : p.Denotes x y) (hx : IsValue (a * x)) (hy : IsValue (b * y)) (hx' : IsValue (a * x + e))
    (hy' : IsValue (b * y + f)) : (m.transformPoint p).project.Denotes (a * x + e) (b * y + f) := by
  apply TileCompositor.denotes_project
  · exact (denotes_add_zero
      (denotes_add_zero (hm.c0x.mul_exact hp.x hx) (denotes_zero_mul hm.c1x hp.y))
      (denotes_zero_mul hm.c2x denotes_zero)).add_exact (denotes_mul_one hm.c3x denotes_one) hx'
  · exact (denotes_add_zero
      (denotes_zero_add (denotes_zero_mul hm.c0y hp.x) (hm.c1y.mul_exact hp.y hy))
      (denotes_zero_mul hm.c2y denotes_zero)).add_exact (denotes_mul_one hm.c3y denotes_one) hy'
  · exact denotes_zero_add (denotes_add_zero (denotes_add_zero (denotes_zero_mul hm.c0w hp.x)
      (denotes_zero_mul hm.c1w hp.y)) (denotes_zero_mul hm.c2w denotes_zero))
      (denotes_mul_one hm.c3w denotes_one)

theorem scaleShift_identity : ScaleShift Mat4.identity 1 1 0 0 := by
  constructor <;> first | exact denotes_zero | exact denotes_one

theorem scaleShift_projection {v : Viewport} {j k : ℕ} (hj : j ≤ 10) (hk : k ≤ 10)
    (hw : Denotes v.width (2 ^ j)) (hh : Denotes v.height (2 ^ k)) :
    ScaleShift v.projection (2 / 2 ^ j) (-2 / 2 ^ k) (-1) 1 := by
  have hpos (n : ℕ) : (2 : ℚ) ^ n ≠ 0 := by positivity
  have hone (n : ℕ) : (1 : ℚ) ≤ 2 ^ n := one_le_pow₀ (by norm_num)
  have hright : Denotes (Scalar.maxNum v.width 1.0) (2 ^ j) := by
    have := Scalar.denotes_maxNum hw denotes_one
    rwa [max_eq_left (hone j)] at this
  have hbottom : Denotes (Scalar.maxNum v.height 1.0) (2 ^ k) := by
    have := Scalar.denotes_maxNum hh denotes_one
    rwa [max_eq_left (hone k)] at this
  have hwidth : Denotes (Scalar.maxNum v.width 1.0 - 0.0) (2 ^ j) := by
    have := hright.sub_exact denotes_zero (by rw [sub_zero]; exact hright.isValue)
    rwa [sub_zero] at this
  have hheight : Denotes (0.0 - Scalar.maxNum v.height 1.0) (-2 ^ k) := by
    have := denotes_zero.sub_exact hbottom (by rw [zero_sub]; exact hbottom.neg.isValue)
    rwa [zero_sub] at this
  have hminus : IsValue (-1) := denotes_one.neg.isValue
  have hx : IsValue (2 / 2 ^ j) := isValue_of_eq 2 j (by norm_num) (by norm_num) (by omega)
  have hy : IsValue (-2 / 2 ^ k) := isValue_of_eq (-2) k (by norm_num) (by norm_num) (by omega)
  have hyeq : (2 : ℚ) / -2 ^ k = -2 / 2 ^ k := by rw [div_neg, neg_div]
  have hex : -(2 : ℚ) ^ j / 2 ^ j = -1 := by rw [neg_div, div_self (hpos j)]
  have hey : -(2 : ℚ) ^ k / -2 ^ k = 1 := div_self (neg_ne_zero.mpr (hpos k))
  constructor
  case c0x => exact denotes_two.div_exact hwidth (hpos j) hx
  case c1y =>
    have := denotes_two.div_exact hheight (neg_ne_zero.mpr (hpos k)) (by rw [hyeq]; exact hy)
    rwa [hyeq] at this
  case c3x =>
    have := (denotes_add_zero hright denotes_zero).neg.div_exact hwidth (hpos j)
      (by rw [hex]; exact hminus)
    rwa [hex] at this
  case c3y =>
    have := (denotes_zero_add denotes_zero hbottom).neg.div_exact hheight (neg_ne_zero.mpr (hpos k))
      (by rw [hey]; exact denotes_one.isValue)
    rwa [hey] at this
  case c3w => exact denotes_one
  all_goals exact denotes_zero

/-! ## The vertex stage -/

/-- Whole coordinates are on the device pixel grid already. -/
theorem denotes_snap {p : Vec2} {ratio : Float32} {x y : ℤ} (hr : Denotes ratio 1)
    (hp : p.Denotes x y) :
    (p.snapToDevicePixels ratio).Denotes x y := by
  unfold Vec2.snapToDevicePixels
  rw [if_pos ((denotes_zero.lt_iff hr).mpr one_pos)]
  exact ⟨denotes_div_one (Scalar.denotes_round_intCast (denotes_mul_one hp.x hr)) hr,
    denotes_div_one (Scalar.denotes_round_intCast (denotes_mul_one hp.y hr)) hr⟩

/-- Back from clip space, the coordinates are those that were projected. -/
theorem denotes_toPixels {clip : Vec4} {w h : Float32} {j k : ℕ} {x y : ℤ} (hj : j ≤ 10) (hk : k ≤ 10)
    (hw : Denotes w (2 ^ j)) (hh : Denotes h (2 ^ k)) (hx : |x| ≤ 2048) (hy : |y| ≤ 2048)
    (hclip : clip.project.Denotes (2 / 2 ^ j * x + -1) (-2 / 2 ^ k * y + 1)) :
    (toPixels clip w h).Denotes x y := by
  obtain ⟨hx1, hx2⟩ := abs_le.mp hx
  obtain ⟨hy1, hy2⟩ := abs_le.mp hy
  have side {v w : Float32} {n : ℕ} {z : ℤ} (hn : n ≤ 10) (h1 : -2048 ≤ z) (h2 : z ≤ 2048)
      (hw : Denotes w (2 ^ n)) (hv : Denotes v (2 * z / 2 ^ n)) : Denotes (v * 0.5 * w) z := by
    have e1 : (2 * (z : ℚ)) / 2 ^ n * (1 / 2) = z / 2 ^ n := by ring
    have e2 : (z : ℚ) / 2 ^ n * 2 ^ n = z := by field_simp
    have d1 := hv.mul_exact denotes_half
      (isValue_of_eq z n e1 (abs_le.mpr ⟨by omega, by omega⟩) (by omega))
    rw [e1] at d1
    have d2 := d1.mul_exact hw (by rw [e2]; exact isValue_intCast (abs_le.mpr ⟨by omega, by omega⟩))
    rwa [e2] at d2
  have value {n : ℕ} {z : ℤ} (hn : n ≤ 10) (h1 : -2048 ≤ z) (h2 : z ≤ 2048) :
      IsValue (2 * z / 2 ^ n) :=
    isValue_of_eq (2 * z) n (by push_cast; rfl) (abs_le.mpr ⟨by omega, by omega⟩) (by omega)
  constructor
  · have e : (2 : ℚ) / 2 ^ j * x + -1 + 1 = 2 * x / 2 ^ j := by ring
    have d := hclip.x.add_exact denotes_one (by rw [e]; exact value hj hx1 hx2)
    rw [e] at d
    exact side hj hx1 hx2 hw d
  · have e : 1 - (-2 / 2 ^ k * (y : ℚ) + 1) = 2 * y / 2 ^ k := by ring
    have d := denotes_one.sub_exact hclip.y (by rw [e]; exact value hk hy1 hy2)
    rw [e] at d
    exact side hk hy1 hy2 hh d

/-- The numbers of a rectangle are whole. -/
structure IntegerRect (rect : Rect) (x y w h : ℤ) : Prop where
  x : Denotes rect.origin.x x
  y : Denotes rect.origin.y y
  w : Denotes rect.size.x w
  h : Denotes rect.size.y h

/-- The bounds within which nothing is rounded: the corners, and the sides. -/
structure SmallRect (x y w h : ℤ) : Prop where
  x_le : |x| ≤ 2048
  y_le : |y| ≤ 2048
  far_x_le : |x + w| ≤ 2048
  far_y_le : |y + h| ≤ 2048
  w_le : |w| ≤ 1024
  h_le : |h| ≤ 1024

section Side
variable {o s u : Float32} {x w : ℤ}

theorem denotes_near (ho : Denotes o x) (hs : Denotes s w) (hu : Denotes u 0) :
    Denotes (o + s * u) x := by
  have hz := hs.mul_exact hu (by rw [mul_zero]; exact isValue_zero)
  rw [mul_zero] at hz
  exact denotes_add_zero ho hz

theorem denotes_far (ho : Denotes o x) (hs : Denotes s w) (hu : Denotes u 1) (h : |x + w| ≤ 2048) :
    Denotes (o + s * u) (x + w : ℤ) :=
  ho.add_intCast (denotes_mul_one hs hu) (h.trans (by norm_num))

end Side

section Placed
variable {i : ResolvedInstance} {frame : FrameUniforms} {width height : UInt32} {j k : ℕ}

/-- An instance that is not transformed leaves whole coordinates where they are. -/
theorem denotes_world {p : Vec2} {ratio : Float32} (hi : i.transform = Mat4.identity)
    (hr : Denotes ratio 1) {x y : ℤ} (hp : p.Denotes x y) :
    ((i.transform.transformPoint p).project.snapToDevicePixels ratio).Denotes x y := by
  apply denotes_snap hr
  have hx : IsValue (1 * (x : ℚ)) := by
    rw [one_mul]
    exact hp.x.isValue
  have hy : IsValue (1 * (y : ℚ)) := by
    rw [one_mul]
    exact hp.y.isValue
  have := scaleShift_identity.denotes_project hp hx hy (by rwa [add_zero]) (by rwa [add_zero])
  rw [hi]
  simpa using this

theorem two_pow_mem {n : ℕ} (hn : n ≤ 10) : (1 : ℤ) ≤ 2 ^ n ∧ (2 : ℤ) ^ n ≤ 1024 :=
  ⟨one_le_pow₀ (by norm_num), (pow_le_pow_right₀ (by norm_num) hn).trans (by norm_num)⟩

theorem denotes_side {n : UInt32} {m : ℕ} (hm : m ≤ 10) (hn : n.toNat = 2 ^ m) :
    Denotes n.toFloat32 (2 ^ m) := by
  have hle : 2 ^ m ≤ 2 ^ 10 := Nat.pow_le_pow_right (by norm_num) hm
  have := denotes_toFloat32_of_le (n := n) (by omega)
  rw [hn] at this
  exact_mod_cast this

/-- A corner with whole coordinates lies on the target where it is described. -/
theorem denotes_placed (corner : Corner) (hj : j ≤ 10) (hk : k ≤ 10) (hw : width.toNat = 2 ^ j)
    (hh : height.toNat = 2 ^ k) (hi : i.transform = Mat4.identity)
    (hframe : frame = ⟨(Viewport.mk width.toFloat32 height.toFloat32).projection, 1.0⟩) {x y : ℤ}
    (hx : |x| ≤ 2048) (hy : |y| ≤ 2048) (hp : (i.record.rect.pointAt corner.unit).Denotes x y) :
    ((i.placed frame width height).get corner).Denotes x y := by
  obtain ⟨hx1, hx2⟩ := abs_le.mp hx
  obtain ⟨hy1, hy2⟩ := abs_le.mp hy
  have hwidth := denotes_side hj hw
  have hheight := denotes_side hk hh
  have hratio : Denotes frame.devicePixelRatio 1 := by
    rw [hframe]
    exact denotes_one
  have hworld := denotes_world hi hratio hp
  have hproj : ScaleShift frame.globalTransform (2 / 2 ^ j) (-2 / 2 ^ k) (-1) 1 := by
    rw [hframe]
    exact scaleShift_projection hj hk hwidth hheight
  obtain ⟨hj1, hj2⟩ := two_pow_mem hj
  obtain ⟨hk1, hk2⟩ := two_pow_mem hk
  have hclip := hproj.denotes_project hworld
    (isValue_of_eq (2 * x) j (by push_cast; ring) (abs_le.mpr ⟨by omega, by omega⟩) (by omega))
    (isValue_of_eq (-2 * y) k (by push_cast; ring) (abs_le.mpr ⟨by omega, by omega⟩) (by omega))
    (isValue_of_eq (2 * x - 2 ^ j) j (by push_cast; field_simp; ring)
      (abs_le.mpr ⟨by omega, by omega⟩) (by omega))
    (isValue_of_eq (-2 * y + 2 ^ k) k (by push_cast; field_simp)
      (abs_le.mpr ⟨by omega, by omega⟩) (by omega))
  rw [← i.position_vertex corner .topLeft]
  exact denotes_toPixels hj hk hwidth hheight hx hy hclip

/-- The corners of a rectangle with whole numbers. -/
theorem spans_rect {rect : Rect} {x y w h : ℤ} (hrect : IntegerRect rect x y w h)
    (hsmall : SmallRect x y w h) :
    Spans (.ofFn fun corner => rect.pointAt corner.unit) x y (x + w : ℤ) (y + h : ℤ) := by
  obtain ⟨hx, hy, hw, hh⟩ := hrect
  have left := denotes_near hx hw denotes_zero
  have top := denotes_near hy hh denotes_zero
  have right := denotes_far hx hw denotes_one hsmall.far_x_le
  have bottom := denotes_far hy hh denotes_one hsmall.far_y_le
  exact ⟨⟨left, top⟩, ⟨right, top⟩, ⟨right, bottom⟩, ⟨left, bottom⟩⟩

/-- The corners of a quad with whole coordinates are those of its rectangle. -/
theorem spans_placed (hj : j ≤ 10) (hk : k ≤ 10) (hw : width.toNat = 2 ^ j)
    (hh : height.toNat = 2 ^ k) (hi : i.transform = Mat4.identity)
    (hframe : frame = ⟨(Viewport.mk width.toFloat32 height.toFloat32).projection, 1.0⟩) {x y w h : ℤ}
    (hrect : IntegerRect i.record.rect x y w h) (hsmall : SmallRect x y w h) :
    Spans (i.placed frame width height) x y (x + w : ℤ) (y + h : ℤ) := by
  obtain ⟨topLeft, topRight, bottomRight, bottomLeft⟩ := spans_rect hrect hsmall
  have place (corner : Corner) {u v : ℤ} := denotes_placed corner hj hk hw hh hi hframe (x := u) (y := v)
  exact
    { topLeft := place .topLeft hsmall.x_le hsmall.y_le topLeft
      topRight := place .topRight hsmall.far_x_le hsmall.y_le topRight
      bottomRight := place .bottomRight hsmall.far_x_le hsmall.far_y_le bottomRight
      bottomLeft := place .bottomLeft hsmall.x_le hsmall.far_y_le bottomLeft }

/-- The world positions of the corners of a quad. The triangle that a vertex
belongs to makes no difference. -/
def ResolvedInstance.world (i : ResolvedInstance) (frame : FrameUniforms) : PerCorner Vec2 :=
  .ofFn fun corner => (i.vertex corner .topLeft frame).varyings.worldPosition

theorem ResolvedInstance.worldPosition_vertex (i : ResolvedInstance) (corner : Corner) (half : Half)
    (frame : FrameUniforms) :
    (i.vertex corner half frame).varyings.worldPosition = (i.world frame).get corner := by
  rw [world, PerCorner.get_ofFn]
  rfl

/-- At one device pixel to a layout pixel they are the corners of the rectangle too. -/
theorem spans_world (hi : i.transform = Mat4.identity) (hratio : Denotes frame.devicePixelRatio 1)
    {x y w h : ℤ} (hrect : IntegerRect i.record.rect x y w h) (hsmall : SmallRect x y w h) :
    Spans (i.world frame) x y (x + w : ℤ) (y + h : ℤ) := by
  obtain ⟨topLeft, topRight, bottomRight, bottomLeft⟩ := spans_rect hrect hsmall
  exact ⟨denotes_world hi hratio topLeft, denotes_world hi hratio topRight,
    denotes_world hi hratio bottomRight, denotes_world hi hratio bottomLeft⟩

end Placed

end TileCompositor
