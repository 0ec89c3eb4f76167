import TileCompositor.Proofs.Coverage.Bounds
/-!
# The weights of a fragment

A fragment weighs the vertices of its triangle by edge values divided by the
doubled area. The area is finite, but an edge value need not be, nor its
quotient by a small area. On triangles of any sensible size both are finite:
pixel coordinates are whole multiples of 2^-25, because one is added to them or
they are taken from one on the way from clip space, so a doubled area that is
not zero is at least 2^-50.

Results:
* `triangleFragmentAt_eq_some`: the fragment of a triangle and its weights.
* `onGrid_toPixels`: the grid of the pixel coordinates.
* `le_abs_area`: the least area of a triangle, doubled.
* `isFinite_weights`: the weights of triangles within 2^37 pixels.
-/
namespace TileCompositor
open Binary32

/-! ## Weights -/

/-- The weights that are read when varyings are interpolated are finite; that
of the first vertex is not. -/
def Weights.IsFinite (w : Weights) : Prop := w.b.isFinite = true ∧ w.c.isFinite = true

instance (w : Weights) : Decidable w.IsFinite := inferInstanceAs (Decidable (_ ∧ _))

/-- The weights that three vertices have at a pixel of a target, if the
triangle has an area and covers the pixel. -/
def triangleWeightsAt (a b c : Vertex) (width height : UInt32) (x y : Nat) : Option Weights := do
  let w := width.toFloat32
  let h := height.toFloat32
  let t ← Triangle.wind? (a.place w h) (b.place w h) (c.place w h)
  t.weightsAt? (pixelCentre x y)

/-- The weights that the vertices of one half of a quad have at a pixel. -/
def ResolvedInstance.weightsAt (i : ResolvedInstance) (half : Half) (frame : FrameUniforms)
    (width height : UInt32) (x y : Nat) : Option Weights :=
  let (a, b, c) := i.triangle half frame
  triangleWeightsAt a b c width height x y

namespace Triangle

/-- Vertices wind to a triangle that has them in the same order if their area is
positive, and in the other one if it is negative. -/
theorem wind?_eq_some {a b c : PlacedVertex} {t : Triangle} (h : wind? a b c = some t) :
    ∃ area, Denotes (edge a.position b.position c.position) area ∧
      (0 < area ∧ t = ⟨a, b, c, edge a.position b.position c.position⟩ ∨
        area < 0 ∧ t = ⟨a, c, b, -edge a.position b.position c.position⟩) := by
  cases hfin : (edge a.position b.position c.position).isFinite with
  | false =>
    rw [wind?_of_not_finite hfin] at h
    cases h
  | true =>
    obtain ⟨area, harea⟩ := isFinite_iff.mp hfin
    rcases lt_trichotomy area 0 with hneg | rfl | hpos
    · rw [wind?_of_neg harea hneg] at h
      exact ⟨area, harea, .inr ⟨hneg, (Option.some.inj h).symm⟩⟩
    · have hzero : (edge a.position b.position c.position == 0.0) = true := harea.beq denotes_zero
      simp [wind?, hzero] at h
    · rw [wind?_of_pos harea hpos] at h
      exact ⟨area, harea, .inl ⟨hpos, (Option.some.inj h).symm⟩⟩

theorem weightsAt?_eq_some {t : Triangle} {p : Vec2} {w : Weights} (h : t.weightsAt? p = some w) :
    w.b = edge t.c.position t.a.position p / t.area ∧
      w.c = edge t.a.position t.b.position p / t.area := by
  unfold weightsAt? at h
  simp only at h
  split at h
  · cases h
    exact ⟨rfl, rfl⟩
  · cases h

/-- The varyings of a fragment are what its weights make of those of the vertices. -/
theorem weights_of_fragmentAt {t : Triangle} {x y : ℕ} {f : Fragment}
    (h : t.fragmentAt x y = some f) :
    ∃ w, t.weightsAt? (pixelCentre x y) = some w ∧
      f.varyings = Varyings.interpolate t.a.varyings t.b.varyings t.c.varyings w := by
  obtain ⟨w, hw, rfl⟩ := Option.map_eq_some_iff.mp h
  exact ⟨w, hw, rfl⟩

end Triangle

/-- A fragment has the varyings that its weights make of those of the vertices,
taken in either sense. -/
theorem triangleFragmentAt_eq_some {a b c : Vertex} {width height : UInt32} {x y : Nat} {f : Fragment}
    (h : triangleFragmentAt a b c width height x y = some f) :
    ∃ w, triangleWeightsAt a b c width height x y = some w ∧
      (f.varyings = Varyings.interpolate a.varyings b.varyings c.varyings w ∨
        f.varyings = Varyings.interpolate a.varyings c.varyings b.varyings w) := by
  obtain ⟨t, ht, -, hf⟩ := triangle_of_fragmentAt h
  obtain ⟨w, hw, hvaryings⟩ := Triangle.weights_of_fragmentAt hf
  refine ⟨w, by simp only [triangleWeightsAt, ht, Option.bind_eq_bind, Option.bind_some, hw], ?_⟩
  obtain ⟨_, -, ⟨-, rfl⟩ | ⟨-, rfl⟩⟩ := Triangle.wind?_eq_some ht
  · exact .inl hvaryings
  · exact .inr hvaryings

/-! ## The grid of the pixel coordinates -/

/-- Either the sum is large enough to be rounded to a multiple of 2^-24, or
the value was close enough to -1 to be such a multiple itself. -/
theorem isMultiple_nearest_add_one {q : ℚ} (hq : Representable q) :
    IsMultiple (-24) (nearest (q + 1)) := by
  rcases le_or_gt (1 / 2) |q + 1| with h | h
  · exact isMultiple_nearest_of_le (by norm_num; linarith)
  · have hhalf : 2 ^ (-24 + 23 : ℤ) ≤ |q| := by
      rw [abs_lt] at h
      rw [abs_of_neg (by linarith)]
      norm_num
      linarith
    exact ((hq.isMultiple_of_le hhalf).add ((isMultiple_intCast 1).of_le (by norm_num))).nearest

/-- Half of a clip coordinate that has been shifted, taken as a share of a side. -/
theorem isMultiple_share {s : Float32} {n : UInt32} {u q : ℚ} (hs : Denotes s u)
    (hu : IsMultiple (-24) u) (h : Denotes (s * 0.5 * n.toFloat32) q) : IsMultiple (-25) q := by
  obtain ⟨r, side, hr, hside, hq⟩ := operands_of_mul h.isFinite
  obtain ⟨u', k, hu', hk, hr'⟩ := operands_of_mul hr.isFinite
  obtain rfl := hs.unique hu'
  have hhalf : IsMultiple (-1) k := ⟨1, by rw [hk.unique denotes_half]; norm_num⟩
  have hwhole : IsMultiple 0 side := by
    rw [hside.unique (denotes_toFloat32 n)]
    exact IsMultiple.nearest (by exact_mod_cast isMultiple_intCast n.toNat)
  rw [h.unique hq, hr.unique hr']
  exact ((hu.mul hhalf).nearest.mul hwhole).nearest

/-- Both coordinates are whole numbers of `2^e`. -/
structure OnGrid (e : ℤ) (x y : ℚ) : Prop where
  x : IsMultiple e x
  y : IsMultiple e y

theorem onGrid_toPixels {clip : Vec4} {width height : UInt32} {x y : ℚ}
    (h : (toPixels clip width.toFloat32 height.toFloat32).Denotes x y) : OnGrid (-25) x y := by
  have hone {k : ℚ} (hk : Denotes 1.0 k) : k = 1 := hk.unique denotes_one
  constructor
  · obtain ⟨_, _, hr, -, -⟩ := operands_of_mul h.x.isFinite
    obtain ⟨_, _, hs, -, -⟩ := operands_of_mul hr.isFinite
    obtain ⟨p, k, hp, hk, hsum⟩ := operands_of_add hs.isFinite
    rw [hone hk] at hsum
    exact isMultiple_share hsum (isMultiple_nearest_add_one hp.representable) h.x
  · obtain ⟨_, _, hr, -, -⟩ := operands_of_mul h.y.isFinite
    obtain ⟨_, _, hs, -, -⟩ := operands_of_mul hr.isFinite
    obtain ⟨k, p, hk, hp, hsub⟩ := operands_of_sub hs.isFinite
    rw [hone hk, sub_eq_neg_add] at hsub
    exact isMultiple_share hsub (isMultiple_nearest_add_one hp.representable.neg) h.y

/-! ## Edge values -/

theorem abs_roundedProduct_le {k : ℤ} (hk : 0 ≤ k) {u v : ℚ} (hu : |u| ≤ 2 ^ k) (hv : |v| ≤ 2 ^ k) :
    |roundedProduct u v| ≤ 2 ^ (k + k) := by
  have hside {q : ℚ} (hq : |q| ≤ 2 ^ k) : |nearest q| ≤ 2 ^ k :=
    abs_nearest_le (representable_zpow (by omega)) hq
  apply abs_nearest_le (representable_zpow (by omega))
  rw [abs_mul, zpow_add₀ (by norm_num)]
  exact mul_le_mul (hside hu) (hside hv) (abs_nonneg _) (two_zpow_pos k).le

section Edge
variable {a b p : Vec2} {ax ay bx b_y px py : ℚ} (ha : a.Denotes ax ay) (hb : b.Denotes bx b_y)
  (hp : p.Denotes px py)
include ha hb hp

/-- Edge values of points on a grid are multiples of the square of its spacing. -/
theorem isMultiple_edge {g : ℤ} (hga : OnGrid g ax ay) (hgb : OnGrid g bx b_y) (hgp : OnGrid g px py)
    {e : ℚ} (h : Denotes (edge a b p) e) : IsMultiple (g + g) e := by
  have hproduct {u v : ℚ} (hu : IsMultiple g u) (hv : IsMultiple g v) :
      IsMultiple (g + g) (roundedProduct u v) := (hu.nearest.mul hv.nearest).nearest
  rw [h.unique (denotes_edge ha hb hp h.isFinite)]
  exact ((hproduct (hgb.x.sub hga.x) (hgp.y.sub hga.y)).sub
    (hproduct (hgb.y.sub hga.y) (hgp.x.sub hga.x))).nearest

/-- The edge values of points that are not too far from one another are finite. -/
theorem exists_edge_le {k : ℤ} (hk : 0 ≤ k) (hk' : k < 63) (h1 : |bx - ax| ≤ 2 ^ k)
    (h2 : |py - ay| ≤ 2 ^ k) (h3 : |b_y - ay| ≤ 2 ^ k) (h4 : |px - ax| ≤ 2 ^ k) :
    ∃ e, Denotes (edge a b p) e ∧ |e| ≤ 2 ^ (k + k + 1) := by
  have hlt {j : ℤ} (hj : j < 128) : (2 : ℚ) ^ j < 2 ^ 128 := by
    exact_mod_cast zpow_lt_zpow_right₀ (by norm_num : (1 : ℚ) < 2) hj
  have hself : |(2 : ℚ) ^ k| ≤ 2 ^ k := (abs_of_pos (two_zpow_pos k)).le
  have hbound : BoundedArea (2 ^ k) (2 ^ k) := by
    have hside := abs_nearest_le (representable_zpow (by omega)) hself
    have harea := abs_roundedProduct_le hk hself hself
    exact ⟨(le_abs_self _).trans_lt (hside.trans_lt (hlt (by omega))),
      (le_abs_self _).trans_lt (hside.trans_lt (hlt (by omega))),
      (le_abs_self _).trans_lt (harea.trans_lt (hlt (by omega)))⟩
  have huv : |nearest (roundedProduct (bx - ax) (py - ay) - roundedProduct (b_y - ay) (px - ax))| ≤
      2 ^ (k + k + 1) := by
    apply abs_nearest_le (representable_zpow (by omega))
    have hu := abs_roundedProduct_le hk h1 h2
    have hv := abs_roundedProduct_le hk h3 h4
    rw [zpow_add_one₀ (by norm_num)]
    exact (abs_sub _ _).trans (by linarith)
  have hfin := isFinite_edge ha hb hp hbound h1 h2 h3 h4 (huv.trans_lt (hlt (by omega)))
  exact ⟨_, denotes_edge ha hb hp hfin, huv⟩

end Edge

/-! ## Triangles that are not too large -/

/-- The point is finite and neither coordinate exceeds `n`. -/
def Vec2.Within (p : Vec2) (n : ℚ) : Prop := ∃ x y, p.Denotes x y ∧ |x| ≤ n ∧ |y| ≤ n

/-- An edge value of points within 2^37 pixels stays finite when it is divided by an area. -/
theorem isFinite_weight {a b p : Vec2} (ha : a.Within (2 ^ 37)) (hb : b.Within (2 ^ 37))
    (hp : p.Within (2 ^ 37)) {s : Float32} {area : ℚ} (hs : Denotes s area)
    (harea : 2 ^ (-50 : ℤ) ≤ |area|) : (edge a b p / s).isFinite = true := by
  obtain ⟨ax, ay, ha, hax, hay⟩ := ha
  obtain ⟨bx, b_y, hb, hbx, hby⟩ := hb
  obtain ⟨px, py, hp, hpx, hpy⟩ := hp
  have hsub {u v : ℚ} (hu : |u| ≤ 2 ^ 37) (hv : |v| ≤ 2 ^ 37) : |u - v| ≤ 2 ^ (38 : ℤ) :=
    (abs_sub u v).trans (by norm_num at hu hv ⊢; linarith)
  obtain ⟨e, he, hle⟩ := exists_edge_le ha hb hp (by norm_num) (by norm_num) (hsub hbx hax)
    (hsub hpy hay) (hsub hby hay) (hsub hpx hax)
  have hpos : 0 < |area| := (two_zpow_pos _).trans_le harea
  refine (he.div hs (abs_pos.mp hpos) ?_).isFinite
  have hquot : |e / area| ≤ 2 ^ (127 : ℤ) := by
    rw [abs_div, div_le_iff₀ hpos]
    calc |e| ≤ 2 ^ (38 + 38 + 1 : ℤ) := hle
      _ = 2 ^ (127 : ℤ) * 2 ^ (-50 : ℤ) := by norm_num
      _ ≤ 2 ^ (127 : ℤ) * |area| := mul_le_mul_of_nonneg_left harea (two_zpow_pos _).le
  exact (abs_nearest_le (representable_zpow (by norm_num)) hquot).trans_lt (by norm_num)

section Vertices
variable {a b c : Vertex} {width height : UInt32}

/-- The least area of a triangle, doubled. -/
theorem le_abs_area {area : ℚ}
    (h : Denotes (edge (a.position width height) (b.position width height)
      (c.position width height)) area) (h0 : area ≠ 0) : 2 ^ (-50 : ℤ) ≤ |area| := by
  obtain ⟨ax, ay, bx, b_y, cx, cy, ha, hb, hc⟩ := corners_of_edge h.isFinite
  exact (isMultiple_edge ha hb hc (onGrid_toPixels ha) (onGrid_toPixels hb) (onGrid_toPixels hc)
    h).le_abs h0

/-- The weights of a triangle within 2^37 pixels are finite. -/
theorem isFinite_weights {x y : ℕ} {w : Weights}
    (h : triangleWeightsAt a b c width height x y = some w) (hx : x < 2 ^ 32) (hy : y < 2 ^ 32)
    (ha : (a.position width height).Within (2 ^ 37)) (hb : (b.position width height).Within (2 ^ 37))
    (hc : (c.position width height).Within (2 ^ 37)) : w.IsFinite := by
  simp only [triangleWeightsAt, Option.bind_eq_bind, Option.bind_eq_some_iff] at h
  obtain ⟨t, ht, hw⟩ := h
  obtain ⟨area, harea, hturn⟩ := Triangle.wind?_eq_some ht
  have hp : (pixelCentre x y).Within (2 ^ 37) :=
    ⟨_, _, denotes_pixelCentre hx hy, (abs_centre_le hx).trans (by norm_num),
      (abs_centre_le hy).trans (by norm_num)⟩
  obtain ⟨hwb, hwc⟩ := Triangle.weightsAt?_eq_some hw
  rw [Weights.IsFinite, hwb, hwc]
  rcases hturn with ⟨hpos, rfl⟩ | ⟨hneg, rfl⟩
  · have hle := le_abs_area harea hpos.ne'
    exact ⟨isFinite_weight hc ha hp harea hle, isFinite_weight ha hb hp harea hle⟩
  · have hle := le_abs_area harea hneg.ne
    rw [← abs_neg] at hle
    exact ⟨isFinite_weight hb ha hp harea.neg hle, isFinite_weight ha hc hp harea.neg hle⟩

end Vertices

end TileCompositor
