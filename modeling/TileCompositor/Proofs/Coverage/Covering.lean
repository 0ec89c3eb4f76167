import TileCompositor.Proofs.Coverage.Fragments
/-!
# When a triangle covers a pixel

The tests that decide whether a triangle covers a pixel, as conditions on the
numbers that its vertices denote. Nothing is said here about the shape of the
triangle; rounding is kept, each difference, product and sum by itself.

Results:
* `denotes_pixelCentre`, `floor_le_of_lt_centre`, `lt_ceil_of_centre_lt`: where a centre is.
* `Triangle.box_contains_iff`: the pixels of the box of a triangle.
* `isInside_edge_iff`: the side of an edge on which a point is.
* `isSome_triangleFragmentAt_of_pos`, `isSome_triangleFragmentAt_of_neg`: when there is a fragment.
-/
namespace TileCompositor
open Binary32

/-! ## Centres -/

/-- The coordinate of the centre of column or row `n`. -/
def centre (n : ℕ) : ℚ := nearest (nearest n + 1 / 2)

/-- From 2^24 on the spacing is 2 or more. -/
theorem two_le_unit {q : ℚ} (h : 2 ^ 24 ≤ q) : 2 ≤ unit q := by
  have hl : (24 : ℤ) ≤ Int.log 2 |q| := by
    rw [← Int.zpow_le_iff_le_log (by norm_num) (abs_pos.mpr (by linarith)), abs_of_pos (by linarith)]
    exact_mod_cast h
  have he : 1 ≤ unitExponent q := by
    unfold unitExponent
    omega
  have := zpow_le_zpow_right₀ (show (1 : ℚ) ≤ 2 by norm_num) he
  rwa [zpow_one] at this

/-- A whole number and a half has the spacing of the whole number. -/
theorem unit_add_half {n : ℤ} (h : 1 ≤ n) : unit ((n : ℚ) + 1 / 2) = unit n := by
  have hn : (1 : ℚ) ≤ n := by exact_mod_cast h
  have hfloor : ⌊(n : ℚ) + 1 / 2⌋₊ = ⌊(n : ℚ)⌋₊ := by
    rw [← Int.floor_toNat, ← Int.floor_toNat, Int.floor_intCast_add, Int.floor_intCast]
    norm_num
  have hlog : Int.log 2 |(n : ℚ) + 1 / 2| = Int.log 2 |(n : ℚ)| := by
    rw [abs_of_pos (by linarith), abs_of_pos (by linarith), Int.log_of_one_le_right _ (by linarith),
      Int.log_of_one_le_right _ (by linarith), hfloor]
  rw [unit, unit, unitExponent, unitExponent, hlog]

/-- Where the spacing is 2 or more, a half more changes nothing. -/
theorem nearest_add_half {q : ℚ} (hq : Representable q) (h : 2 ^ 24 ≤ q) :
    nearest (q + 1 / 2) = q := by
  obtain ⟨n, rfl⟩ := Scalar.exists_int_of_large hq (by rw [abs_of_nonneg] <;> linarith)
  have hn : (2 : ℤ) ^ 24 ≤ n := by exact_mod_cast h
  have hunit := unit_add_half (n := n) (by omega)
  have hwide := two_le_unit h
  generalize hu : unit (n : ℚ) = u at hunit hwide
  have hk : nearestInt (n / u) * u = (n : ℚ) := by
    have := nearest_of_representable hq
    rwa [nearest, hu] at this
  have hdiv : ((n : ℚ) + 1 / 2) / u = nearestInt (n / u) + 1 / (2 * u) := by
    nth_rewrite 1 [← hk]
    field_simp
  have hsmall : 1 / (2 * u) < 1 / 2 := by
    rw [div_lt_div_iff₀ (by linarith) (by norm_num)]
    linarith
  rw [nearest, hunit, hdiv, nearestInt_intCast_add _ (by positivity) hsmall, hk]

theorem nearest_le_centre (n : ℕ) : nearest n ≤ centre n :=
  le_nearest (nearest_representable n) (by linarith)

theorem half_le_centre (n : ℕ) : 1 / 2 ≤ centre n := by
  have h : Representable (1 / 2) := by
    simpa using representable_div_two_pow 1 (k := 1) (by norm_num) (by norm_num)
  have := nearest_nonneg (q := n) (by positivity)
  exact le_nearest h (by linarith)

theorem centre_le (n : ℕ) : centre n ≤ nearest (n + 1) := by
  rcases Nat.lt_or_ge n (2 ^ 24) with h | h
  · rw [centre, nearest_natCast h.le]
    exact nearest_mono (by linarith)
  · have h1 : (2 : ℚ) ^ 24 ≤ n := by exact_mod_cast h
    have h2 : (2 : ℚ) ^ 24 ≤ nearest n := by
      have : Representable ((2 : ℚ) ^ 24) := by simpa using representable_zpow (e := 24) (by norm_num)
      exact le_nearest this h1
    rw [centre, nearest_add_half (nearest_representable n) h2]
    exact nearest_mono (by linarith)

/-- Small pixels have their centre half a pixel from their side. -/
theorem centre_eq {n : ℕ} (h : n < 2 ^ 23) : centre n = n + 1 / 2 := by
  have hr : Representable (((2 * n + 1 : ℕ) : ℤ) / 2 ^ 1) :=
    representable_div_two_pow _ (by rw [Nat.abs_cast]; exact_mod_cast (by omega : 2 * n + 1 ≤ 2 ^ 24))
      (by norm_num)
  have he : (n : ℚ) + 1 / 2 = ((2 * n + 1 : ℕ) : ℤ) / 2 ^ 1 := by
    push_cast
    ring
  rw [centre, nearest_natCast (by omega), he, nearest_of_representable hr]

theorem abs_centre_le {n : ℕ} (h : n < 2 ^ 32) : |centre n| ≤ 2 ^ (32 : ℤ) := by
  have h0 : 0 ≤ centre n := (by norm_num : (0 : ℚ) ≤ 1 / 2).trans (half_le_centre n)
  have h1 : ((n : ℚ) + 1) ≤ 2 ^ (32 : ℤ) := by exact_mod_cast (by omega : n + 1 ≤ 2 ^ 32)
  rw [abs_of_nonneg h0]
  exact (centre_le n).trans (nearest_le (representable_zpow (by norm_num)) h1)

theorem denotes_centre {n : ℕ} (h : n < 2 ^ 32) : Denotes (Scalar.ofNat n + 0.5) (centre n) :=
  (Scalar.denotes_ofNat (by omega)).add denotes_half ((abs_centre_le h).trans_lt (by norm_num))

/-- A value left of the centre of a pixel is not beyond the pixel. -/
theorem floor_le_of_lt_centre {q : ℚ} (hq : Representable q) {n : ℕ} (h : q < centre n) :
    ⌊q⌋ ≤ n := by
  by_contra hlt
  have h1 : ((n : ℚ) + 1) ≤ q := by
    have := Int.le_floor.mp (show (n : ℤ) + 1 ≤ ⌊q⌋ by omega)
    exact_mod_cast this
  exact absurd ((centre_le n).trans (nearest_le hq h1)) (not_le.mpr h)

/-- A value right of the centre of a pixel is not before the pixel. -/
theorem lt_ceil_of_centre_lt {q : ℚ} (hq : Representable q) {n : ℕ} (h : centre n < q) : n < ⌈q⌉ := by
  rw [Int.lt_ceil, Int.cast_natCast]
  by_contra hle
  exact absurd ((le_nearest hq (not_lt.mp hle)).trans (nearest_le_centre n)) (not_le.mpr h)

/-! ## Points -/

/-- `p` is finite and stands for the point `(x, y)`. -/
structure Vec2.Denotes (p : Vec2) (x y : ℚ) : Prop where
  x : Binary32.Denotes p.x x
  y : Binary32.Denotes p.y y

theorem denotes_pixelCentre {x y : ℕ} (hx : x < 2 ^ 32) (hy : y < 2 ^ 32) :
    (pixelCentre x y).Denotes (centre x) (centre y) :=
  ⟨denotes_centre hx, denotes_centre hy⟩

/-! ## Boxes -/

section Box
variable {p q r : Float32} {p' q' r' : ℚ}

theorem denotes_boxStart (hp : Denotes p p') (hq : Denotes q q') (hr : Denotes r r') :
    Denotes (Scalar.maxNum (Scalar.floor (Scalar.minNum (Scalar.minNum p q) r)) 0.0)
      (max ⌊min (min p' q') r'⌋ 0 : ℤ) := by
  have := Scalar.denotes_maxNum
    (Scalar.denotes_floor (Scalar.denotes_minNum (Scalar.denotes_minNum hp hq) hr))
    denotes_zero
  simpa using this

theorem denotes_boxEnd (hp : Denotes p p') (hq : Denotes q q') (hr : Denotes r r') (n : UInt32) :
    Denotes (Scalar.minNum (Scalar.ceil (Scalar.maxNum (Scalar.maxNum p q) r)) n.toFloat32)
      (min (⌈max (max p' q') r'⌉ : ℤ) (nearest n.toNat)) :=
  Scalar.denotes_minNum (Scalar.denotes_ceil (Scalar.denotes_maxNum (Scalar.denotes_maxNum hp hq) hr))
    (denotes_toFloat32 n)

/-- The columns or rows between the two ends of a box, which are then in order. -/
theorem between_iff {lo hi : Float32} {a b : ℤ} {n : UInt32} (hlo : Denotes lo (max a 0 : ℤ))
    (hhi : Denotes hi (min (b : ℚ) (nearest n.toNat))) (x : ℕ) :
    (¬ hi ≤ lo ∧ lo.toUInt32.toNat ≤ x ∧ x < hi.toUInt32.toNat) ↔ a ≤ x ∧ x < b ∧ x < reach n := by
  have hlo' : lo.toUInt32.toNat = min (max a 0).toNat (2 ^ 32 - 1) := by
    rw [hlo.toNat_toUInt32, ← Int.floor_toNat, Int.floor_intCast]
  have hfloor (q : ℚ) : x < ⌊q⌋₊ ↔ (x : ℚ) + 1 ≤ q := by
    rw [← Nat.succ_le_iff, Nat.le_floor_iff' (Nat.succ_ne_zero x), Nat.cast_succ]
  have hb : (x : ℚ) + 1 ≤ b ↔ (x : ℤ) < b := by
    rw [← Int.add_one_le_iff]
    exact_mod_cast Iff.rfl
  have hend : x < hi.toUInt32.toNat ↔
      ((x : ℤ) < b ∧ (x : ℚ) + 1 ≤ nearest n.toNat) ∧ x < 2 ^ 32 - 1 := by
    rw [hhi.toNat_toUInt32, lt_min_iff, hfloor, le_min_iff, hb]
  have hreach : x < reach n ↔ (x : ℚ) + 1 ≤ nearest n.toNat ∧ x < 2 ^ 32 - 1 := by
    rw [reach_eq_min, lt_min_iff, hfloor]
  rw [hhi.le_iff hlo, not_le, hlo', hend, hreach]
  constructor
  · rintro ⟨-, h1, ⟨h2, h3⟩, h4⟩
    exact ⟨by omega, h2, h3, h4⟩
  · rintro ⟨h1, h2, h3, h4⟩
    refine ⟨?_, by omega, ⟨h2, h3⟩, h4⟩
    have h5 : ((max a 0 : ℤ) : ℚ) ≤ x := by exact_mod_cast (by omega : max a 0 ≤ (x : ℤ))
    have h6 : (x : ℚ) < b := by exact_mod_cast h2
    exact h5.trans_lt (lt_min h6 (by linarith))

end Box

/-- The pixels of the box of a triangle. -/
theorem Triangle.box_contains_iff {t : Triangle} {ax ay bx b_y cx cy : ℚ}
    (ha : t.a.position.Denotes ax ay) (hb : t.b.position.Denotes bx b_y)
    (hc : t.c.position.Denotes cx cy) (width height : UInt32) (x y : ℕ) :
    (∃ box, t.box? width.toFloat32 height.toFloat32 = some box ∧ box.Contains x y) ↔
      (⌊min (min ax bx) cx⌋ ≤ x ∧ x < ⌈max (max ax bx) cx⌉ ∧ x < reach width) ∧
        ⌊min (min ay b_y) cy⌋ ≤ y ∧ y < ⌈max (max ay b_y) cy⌉ ∧ y < reach height := by
  rw [← between_iff (denotes_boxStart ha.x hb.x hc.x) (denotes_boxEnd ha.x hb.x hc.x width) x,
    ← between_iff (denotes_boxStart ha.y hb.y hc.y) (denotes_boxEnd ha.y hb.y hc.y height) y]
  unfold Triangle.box?
  simp only [Bool.or_eq_true, decide_eq_true_eq]
  constructor
  · rintro ⟨box, hbox, hin⟩
    split at hbox
    · cases hbox
    · next hne =>
      cases hbox
      exact ⟨⟨fun h => hne (.inl h), hin.1⟩, fun h => hne (.inr h), hin.2⟩
  · rintro ⟨⟨h1, h2⟩, h3, h4⟩
    rw [if_neg (not_or.mpr ⟨h1, h3⟩)]
    exact ⟨_, rfl, h2, h4⟩

/-! ## Edges -/

/-- A product of two differences, every step rounded. -/
def roundedProduct (p q : ℚ) : ℚ := nearest (nearest p * nearest q)

section RoundedProduct
variable {p q p' q' : ℚ}

theorem roundedProduct_neg_left : roundedProduct (-p) q = -roundedProduct p q := by
  rw [roundedProduct, nearest_neg, neg_mul, nearest_neg, roundedProduct]

theorem roundedProduct_neg_right : roundedProduct p (-q) = -roundedProduct p q := by
  rw [roundedProduct, nearest_neg, mul_neg, nearest_neg, roundedProduct]

@[simp] theorem roundedProduct_zero_left : roundedProduct 0 q = 0 := by
  simp [roundedProduct]

theorem roundedProduct_comm : roundedProduct p q = roundedProduct q p := by
  rw [roundedProduct, mul_comm, roundedProduct]

theorem roundedProduct_representable : Representable (roundedProduct p q) := nearest_representable _

theorem roundedProduct_nonneg (hp : 0 ≤ p) (hq : 0 ≤ q) : 0 ≤ roundedProduct p q :=
  nearest_nonneg (mul_nonneg (nearest_nonneg hp) (nearest_nonneg hq))

theorem roundedProduct_mono (hp : 0 ≤ p) (hq : 0 ≤ q) (hp' : p ≤ p') (hq' : q ≤ q') :
    roundedProduct p q ≤ roundedProduct p' q' :=
  nearest_mono (mul_le_mul (nearest_mono hp') (nearest_mono hq') (nearest_nonneg hq)
    (nearest_nonneg (hp.trans hp')))

end RoundedProduct

section Product
variable {x y z w : Float32} {p q r s : ℚ}

/-- A product of differences is finite if both differences and the product are. -/
theorem isFinite_product_iff (hx : Denotes x p) (hy : Denotes y q) (hz : Denotes z r)
    (hw : Denotes w s) :
    ((x - y) * (z - w)).isFinite = true ↔
      |nearest (p - q)| < 2 ^ 128 ∧ |nearest (r - s)| < 2 ^ 128 ∧
        |roundedProduct (p - q) (r - s)| < 2 ^ 128 := by
  constructor
  · intro h
    obtain ⟨d, e, hd, he, -⟩ := operands_of_mul h
    have h1 := (isFinite_sub hx hy).mp hd.isFinite
    have h2 := (isFinite_sub hz hw).mp he.isFinite
    exact ⟨h1, h2, (isFinite_mul (hx.sub hy h1) (hz.sub hw h2)).mp h⟩
  · rintro ⟨h1, h2, h3⟩
    exact (isFinite_mul (hx.sub hy h1) (hz.sub hw h2)).mpr h3

theorem denotes_product (hx : Denotes x p) (hy : Denotes y q) (hz : Denotes z r)
    (hw : Denotes w s) {u : ℚ} (hu : Denotes ((x - y) * (z - w)) u) :
    u = roundedProduct (p - q) (r - s) := by
  obtain ⟨h1, h2, h3⟩ := (isFinite_product_iff hx hy hz hw).mp hu.isFinite
  exact hu.unique ((hx.sub hy h1).mul (hz.sub hw h2) h3)

end Product

section Edge
variable {a b p : Vec2} {ax ay bx b_y px py : ℚ}

theorem isTopLeftEdge_iff (ha : a.Denotes ax ay) (hb : b.Denotes bx b_y) :
    isTopLeftEdge a b = true ↔ (ay = b_y ∧ ax < bx) ∨ b_y < ay := by
  simp only [isTopLeftEdge, Bool.or_eq_true, Bool.and_eq_true, decide_eq_true_eq, ha.y.beq_iff hb.y,
    ha.x.lt_iff hb.x, hb.y.lt_iff ha.y]

/-- The side of an edge on which a point is, by comparison of two products:
their difference is rounded, but keeps its sign. -/
theorem isInside_edge_iff (ha : a.Denotes ax ay) (hb : b.Denotes bx b_y) (hp : p.Denotes px py)
    (hfin : (edge a b p).isFinite = true) (flag : Bool) :
    isInside (edge a b p) flag = true ↔
      roundedProduct (b_y - ay) (px - ax) < roundedProduct (bx - ax) (py - ay) ∨
        roundedProduct (bx - ax) (py - ay) = roundedProduct (b_y - ay) (px - ax) ∧ flag = true := by
  obtain ⟨u, v, hu, hv, huv⟩ := operands_of_sub hfin
  rw [isInside, edge, Bool.or_eq_true, Bool.and_eq_true, decide_eq_true_eq, denotes_zero.lt_iff huv,
    huv.beq_iff denotes_zero, nearest_sub_pos hv.representable hu.representable,
    nearest_sub_eq_zero hv.representable hu.representable, denotes_product hb.x ha.x hp.y ha.y hu,
    denotes_product hb.y ha.y hp.x ha.x hv]

/-- Twice the area of the triangle of an edge and a point, as far as it is finite. -/
theorem denotes_edge (ha : a.Denotes ax ay) (hb : b.Denotes bx b_y) (hp : p.Denotes px py)
    (hfin : (edge a b p).isFinite = true) :
    Denotes (edge a b p)
      (nearest (roundedProduct (bx - ax) (py - ay) - roundedProduct (b_y - ay) (px - ax))) := by
  obtain ⟨u, v, hu, hv, huv⟩ := operands_of_sub hfin
  rwa [denotes_product hb.x ha.x hp.y ha.y hu, denotes_product hb.y ha.y hp.x ha.x hv] at huv

theorem abs_roundedProduct (p q : ℚ) : |roundedProduct p q| = roundedProduct |p| |q| := by
  rw [roundedProduct, abs_nearest, abs_mul, abs_nearest, abs_nearest, roundedProduct]

/-- Sides for which neither the sides nor the area are too large. -/
structure BoundedArea (width height : ℚ) : Prop where
  width_lt : nearest width < 2 ^ 128
  height_lt : nearest height < 2 ^ 128
  area_lt : roundedProduct width height < 2 ^ 128

/-- Edges and points within bounded sides have a finite edge value, if the
difference of the products is not too large. -/
theorem isFinite_edge (ha : a.Denotes ax ay) (hb : b.Denotes bx b_y) (hp : p.Denotes px py)
    {width height : ℚ} (hbound : BoundedArea width height) (h1 : |bx - ax| ≤ width)
    (h2 : |py - ay| ≤ height) (h3 : |b_y - ay| ≤ height) (h4 : |px - ax| ≤ width)
    (huv : |nearest (roundedProduct (bx - ax) (py - ay) - roundedProduct (b_y - ay) (px - ax))| <
      2 ^ 128) :
    (edge a b p).isFinite = true := by
  have hside {q : ℚ} {g : ℚ} (hq : |q| ≤ g) (hg : nearest g < 2 ^ 128) : |nearest q| < 2 ^ 128 := by
    rw [abs_nearest]
    exact (nearest_mono hq).trans_lt hg
  have hu : ((b.x - a.x) * (p.y - a.y)).isFinite = true := by
    refine (isFinite_product_iff hb.x ha.x hp.y ha.y).mpr
      ⟨hside h1 hbound.width_lt, hside h2 hbound.height_lt, ?_⟩
    rw [abs_roundedProduct]
    exact (roundedProduct_mono (abs_nonneg _) (abs_nonneg _) h1 h2).trans_lt hbound.area_lt
  have hv : ((b.y - a.y) * (p.x - a.x)).isFinite = true := by
    refine (isFinite_product_iff hb.y ha.y hp.x ha.x).mpr
      ⟨hside h3 hbound.height_lt, hside h4 hbound.width_lt, ?_⟩
    rw [abs_roundedProduct, roundedProduct_comm]
    exact (roundedProduct_mono (abs_nonneg _) (abs_nonneg _) h4 h3).trans_lt hbound.area_lt
  obtain ⟨u, hu⟩ := isFinite_iff.mp hu
  obtain ⟨v, hv⟩ := isFinite_iff.mp hv
  rw [← denotes_product hb.x ha.x hp.y ha.y hu, ← denotes_product hb.y ha.y hp.x ha.x hv] at huv
  exact (isFinite_sub hu hv).mpr huv

end Edge

/-! ## Triangles -/

/-- A point on the inner side of all three edges of a triangle. -/
def InsideEdges (a b c p : Vec2) : Prop :=
  isInside (edge b c p) (isTopLeftEdge b c) = true ∧
    isInside (edge c a p) (isTopLeftEdge c a) = true ∧
    isInside (edge a b p) (isTopLeftEdge a b) = true

theorem Triangle.isSome_fragmentAt (t : Triangle) (x y : ℕ) :
    (t.fragmentAt x y).isSome = true ↔
      InsideEdges t.a.position t.b.position t.c.position (pixelCentre x y) := by
  rw [fragmentAt, Option.isSome_map, weightsAt?, InsideEdges]
  simp only [← Bool.and_eq_true, ← Bool.and_assoc]
  split <;> simp_all

section Wind
variable {a b c : PlacedVertex} {area : ℚ}

theorem Triangle.wind?_of_not_finite (h : (edge a.position b.position c.position).isFinite = false) :
    wind? a b c = none := by
  simp [wind?, h]

theorem Triangle.wind?_of_pos (h : Denotes (edge a.position b.position c.position) area)
    (hpos : 0 < area) :
    wind? a b c = some ⟨a, b, c, edge a.position b.position c.position⟩ := by
  have h0 : (edge a.position b.position c.position == 0.0) = false := by
    rw [Bool.eq_false_iff, ne_eq, h.beq_iff denotes_zero]
    exact hpos.ne'
  have hlt : ¬ edge a.position b.position c.position < 0.0 := by
    rw [h.lt_iff denotes_zero]
    exact hpos.le.not_gt
  simp [wind?, h.isFinite, h0, hlt]

theorem Triangle.wind?_of_neg (h : Denotes (edge a.position b.position c.position) area)
    (hneg : area < 0) :
    wind? a b c = some ⟨a, c, b, -edge a.position b.position c.position⟩ := by
  have h0 : (edge a.position b.position c.position == 0.0) = false := by
    rw [Bool.eq_false_iff, ne_eq, h.beq_iff denotes_zero]
    exact hneg.ne
  have hlt : edge a.position b.position c.position < 0.0 := (h.lt_iff denotes_zero).mpr hneg
  simp [wind?, h.isFinite, h0, hlt]

end Wind

/-- Where a vertex lies on a target, in pixels. -/
def Vertex.position (v : Vertex) (width height : UInt32) : Vec2 :=
  toPixels v.clipPosition width.toFloat32 height.toFloat32

section Covered
variable {a b c : Vertex} {width height : UInt32}

theorem triangleFragmentAt_of_not_finite
    (h : (edge (a.position width height) (b.position width height)
      (c.position width height)).isFinite = false) (x y : ℕ) :
    triangleFragmentAt a b c width height x y = none := by
  simp only [triangleFragmentAt,
    Triangle.wind?_of_not_finite (a := a.place width.toFloat32 height.toFloat32)
      (b := b.place width.toFloat32 height.toFloat32)
      (c := c.place width.toFloat32 height.toFloat32) h,
    Option.bind_eq_bind, Option.bind_none]

theorem isSome_triangleFragmentAt {t : Triangle}
    (ht : Triangle.wind? (a.place width.toFloat32 height.toFloat32)
      (b.place width.toFloat32 height.toFloat32) (c.place width.toFloat32 height.toFloat32) =
        some t) (x y : ℕ) :
    (triangleFragmentAt a b c width height x y).isSome = true ↔
      (∃ box, t.box? width.toFloat32 height.toFloat32 = some box ∧ box.Contains x y) ∧
        (t.fragmentAt x y).isSome = true := by
  simp only [triangleFragmentAt, ht, Option.bind_eq_bind, Option.bind_some]
  cases t.box? width.toFloat32 height.toFloat32 with
  | none => simp
  | some box =>
    rw [Option.bind_some]
    split <;> simp_all

variable {ax ay bx b_y cx cy area : ℚ} (ha : (a.position width height).Denotes ax ay)
  (hb : (b.position width height).Denotes bx b_y) (hc : (c.position width height).Denotes cx cy)
  (harea : Denotes
    (edge (a.position width height) (b.position width height) (c.position width height)) area)
include ha hb hc harea

/-- A clockwise triangle covers the pixels of its box that are inside of its edges. -/
theorem isSome_triangleFragmentAt_of_pos (hpos : 0 < area) (x y : ℕ) :
    (triangleFragmentAt a b c width height x y).isSome = true ↔
      ((⌊min (min ax bx) cx⌋ ≤ x ∧ x < ⌈max (max ax bx) cx⌉ ∧ x < reach width) ∧
        ⌊min (min ay b_y) cy⌋ ≤ y ∧ y < ⌈max (max ay b_y) cy⌉ ∧ y < reach height) ∧
        InsideEdges (a.position width height) (b.position width height) (c.position width height)
          (pixelCentre x y) := by
  rw [isSome_triangleFragmentAt (Triangle.wind?_of_pos harea hpos),
    Triangle.box_contains_iff ha hb hc, Triangle.isSome_fragmentAt]
  rfl

/-- One that is not clockwise is turned round first. -/
theorem isSome_triangleFragmentAt_of_neg (hneg : area < 0) (x y : ℕ) :
    (triangleFragmentAt a b c width height x y).isSome = true ↔
      ((⌊min (min ax bx) cx⌋ ≤ x ∧ x < ⌈max (max ax bx) cx⌉ ∧ x < reach width) ∧
        ⌊min (min ay b_y) cy⌋ ≤ y ∧ y < ⌈max (max ay b_y) cy⌉ ∧ y < reach height) ∧
        InsideEdges (a.position width height) (c.position width height) (b.position width height)
          (pixelCentre x y) := by
  rw [isSome_triangleFragmentAt (Triangle.wind?_of_neg harea hneg),
    Triangle.box_contains_iff ha hc hb, Triangle.isSome_fragmentAt, min_right_comm ax,
    max_right_comm ax, min_right_comm ay, max_right_comm ay]
  rfl

end Covered

/-! ## Quads -/

/-- Where the corners of a quad lie on a target. The triangle that a vertex
belongs to makes no difference. -/
def ResolvedInstance.placed (i : ResolvedInstance) (frame : FrameUniforms) (width height : UInt32) :
    PerCorner Vec2 :=
  .ofFn fun corner => (i.vertex corner .topLeft frame).position width height

theorem ResolvedInstance.position_vertex (i : ResolvedInstance) (corner : Corner) (half : Half)
    (frame : FrameUniforms) (width height : UInt32) :
    (i.vertex corner half frame).position width height =
      (i.placed frame width height).get corner := by
  rw [placed, PerCorner.get_ofFn]
  rfl

/-- A quad over `rect`, not transformed. -/
def plainQuad (rect : Rect) : ResolvedInstance where
  record := InstanceRecord.ofRect rect
  indices := {}
  transform := Mat4.identity
  flat := {}

/-- Four points are the corners of a rectangle, whose sides may be given in
either order. -/
structure Spans (q : PerCorner Vec2) (l t r b : ℚ) : Prop where
  topLeft : q.topLeft.Denotes l t
  topRight : q.topRight.Denotes r t
  bottomRight : q.bottomRight.Denotes r b
  bottomLeft : q.bottomLeft.Denotes l b

/-- The coordinate of a corner on each axis. -/
def Corner.pickX {α : Type} (l r : α) : Corner → α
  | .topLeft | .bottomLeft => l
  | .topRight | .bottomRight => r

def Corner.pickY {α : Type} (t b : α) : Corner → α
  | .topLeft | .topRight => t
  | .bottomLeft | .bottomRight => b

/-- Twice the area of a triangle of a quad, as it is computed. -/
def PerCorner.area (q : PerCorner Vec2) (half : Half) : Float32 :=
  edge (q.get half.corners.1) (q.get half.corners.2.1) (q.get half.corners.2.2)

/-- A point inside of a triangle of a quad. -/
def PerCorner.Inside (q : PerCorner Vec2) (half : Half) (p : Vec2) : Prop :=
  InsideEdges (q.get half.corners.1) (q.get half.corners.2.1) (q.get half.corners.2.2) p

/-- A point inside of a triangle of a quad, its corners taken the other way round. -/
def PerCorner.InsideTurned (q : PerCorner Vec2) (half : Half) (p : Vec2) : Prop :=
  InsideEdges (q.get half.corners.1) (q.get half.corners.2.2) (q.get half.corners.2.1) p

section Quad
variable {i : ResolvedInstance} {frame : FrameUniforms} {width height : UInt32} {l t r b area : ℚ}

theorem Spans.denotes_get {q : PerCorner Vec2} (hs : Spans q l t r b) (c : Corner) :
    (q.get c).Denotes (c.pickX l r) (c.pickY t b) := by
  cases c
  · exact hs.topLeft
  · exact hs.topRight
  · exact hs.bottomRight
  · exact hs.bottomLeft

/-- Both triangles touch all sides of the rectangle. -/
theorem Half.box_eq (half : Half) (l t r b : ℚ) :
    (min (min (half.corners.1.pickX l r) (half.corners.2.1.pickX l r))
        (half.corners.2.2.pickX l r) = min l r ∧
      max (max (half.corners.1.pickX l r) (half.corners.2.1.pickX l r))
        (half.corners.2.2.pickX l r) = max l r) ∧
    min (min (half.corners.1.pickY t b) (half.corners.2.1.pickY t b))
        (half.corners.2.2.pickY t b) = min t b ∧
      max (max (half.corners.1.pickY t b) (half.corners.2.1.pickY t b))
        (half.corners.2.2.pickY t b) = max t b := by
  cases half <;> simp [Half.corners, Corner.pickX, Corner.pickY, min_comm, max_comm]

theorem ResolvedInstance.fragmentAt_of_not_finite {half : Half}
    (h : ((i.placed frame width height).area half).isFinite = false) (x y : ℕ) :
    i.fragmentAt half frame width height x y = none := by
  simp only [PerCorner.area, ← i.position_vertex _ half] at h
  exact triangleFragmentAt_of_not_finite h x y

/-- A triangle covers the pixels of the box of the quad that are inside of it. -/
theorem ResolvedInstance.isSome_fragmentAt_iff (hs : Spans (i.placed frame width height) l t r b)
    {half : Half} (harea : Denotes ((i.placed frame width height).area half) area)
    (h0 : area ≠ 0) (x y : ℕ) :
    (i.fragmentAt half frame width height x y).isSome = true ↔
      ((⌊min l r⌋ ≤ x ∧ x < ⌈max l r⌉ ∧ x < reach width) ∧
        ⌊min t b⌋ ≤ y ∧ y < ⌈max t b⌉ ∧ y < reach height) ∧
        if 0 < area then (i.placed frame width height).Inside half (pixelCentre x y)
        else (i.placed frame width height).InsideTurned half (pixelCentre x y) := by
  have d₁ := hs.denotes_get half.corners.1
  have d₂ := hs.denotes_get half.corners.2.1
  have d₃ := hs.denotes_get half.corners.2.2
  obtain ⟨⟨bl, br⟩, bt, bb⟩ := half.box_eq l t r b
  simp only [PerCorner.area, PerCorner.Inside, PerCorner.InsideTurned,
    ← i.position_vertex _ half] at harea d₁ d₂ d₃ ⊢
  rw [← bl, ← br, ← bt, ← bb]
  split
  · next hpos => exact isSome_triangleFragmentAt_of_pos d₁ d₂ d₃ harea hpos x y
  · next hle =>
    have hneg : area < 0 := lt_of_le_of_ne (not_lt.mp hle) h0
    exact isSome_triangleFragmentAt_of_neg d₁ d₂ d₃ harea hneg x y

end Quad

end TileCompositor
