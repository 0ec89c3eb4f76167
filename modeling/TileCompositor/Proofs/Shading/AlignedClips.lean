import TileCompositor.Proofs.Coverage.Interpolation
import TileCompositor.Proofs.Record.Lookup
import TileCompositor.Proofs.Shading.Clipping
/-!
# Clip regions on the pixel grid

A fragment tests its clip regions at its interpolated world position, which is
not quite the centre of its pixel. Clip regions with whole numbers and square
corners change nothing within a pixel, so they keep or drop whole pixels, as
long as the position has not left its pixel.

Results:
* `floor_of_near`: a position near a centre is in the pixel.
* `AlignedClip.contains_iff`: such a region contains the points of whole pixels.
* `clipMask_aligned`: the clip masks of the fragments of a quad.
-/
namespace TileCompositor
open Binary32

/-- A position that is less than half a pixel away from a centre is in its pixel. -/
theorem floor_of_near {v : Float32} {n : ℕ} (h : Near v (n + 1 / 2) (2 ^ (-10 : ℤ))) :
    ∃ q, Denotes v q ∧ ⌊q⌋ = n := by
  obtain ⟨q, hq, hle⟩ := h
  refine ⟨q, hq, Int.floor_eq_iff.mpr ?_⟩
  have hhalf : (2 : ℚ) ^ (-10 : ℤ) < 1 / 2 := by norm_num
  obtain ⟨h1, h2⟩ := abs_le.mp hle
  push_cast
  constructor <;> linarith

/-! ## Regions -/

/-- A rectangle with whole numbers keeps them when its size is made positive. -/
theorem IntegerRect.normalized {rect : Rect} {x y w h : ℤ} (hrect : IntegerRect rect x y w h)
    (hsmall : SmallRect x y w h) :
    IntegerRect rect.normalized (min x (x + w)) (min y (y + h)) |w| |h| := by
  have hmin := hrect.denotes_min hsmall
  have hmax := hrect.denotes_max hsmall
  have side {a b : ℤ} (hb : |b| ≤ 1024) : max a (a + b) - min a (a + b) = |b| ∧
      |max a (a + b) - min a (a + b)| ≤ 2 ^ 24 := by
    rw [max_sub_min_eq_abs', sub_add_cancel_left, abs_neg, abs_abs]
    exact ⟨rfl, hb.trans (by norm_num)⟩
  have hw := hmax.x.sub_intCast hmin.x (side hsmall.w_le).2
  have hh := hmax.y.sub_intCast hmin.y (side hsmall.h_le).2
  rw [(side hsmall.w_le).1] at hw
  rw [(side hsmall.h_le).1] at hh
  exact ⟨hmin.x, hmin.y, hw, hh⟩

theorem min_add_abs (x w : ℤ) : min x (x + w) + |w| = max x (x + w) := by
  rcases abs_cases w with ⟨h, _⟩ | ⟨h, _⟩ <;> omega

theorem SmallRect.normalized {x y w h : ℤ} (hsmall : SmallRect x y w h) :
    SmallRect (min x (x + w)) (min y (y + h)) |w| |h| where
  x_le := abs_min_le_max_abs_abs.trans (max_le hsmall.x_le hsmall.far_x_le)
  y_le := abs_min_le_max_abs_abs.trans (max_le hsmall.y_le hsmall.far_y_le)
  far_x_le := by
    rw [min_add_abs]
    exact abs_max_le_max_abs_abs.trans (max_le hsmall.x_le hsmall.far_x_le)
  far_y_le := by
    rw [min_add_abs]
    exact abs_max_le_max_abs_abs.trans (max_le hsmall.y_le hsmall.far_y_le)
  w_le := by rw [abs_abs]; exact hsmall.w_le
  h_le := by rw [abs_abs]; exact hsmall.h_le

theorem inGridRect_normalized {x y w h : ℤ} {px py : ℕ} :
    InGridRect (min x (x + w)) (min y (y + h)) (min x (x + w) + |w|) (min y (y + h) + |h|) px py ↔
      InGridRect x y (x + w) (y + h) px py := by
  simp only [inGridRect_iff, min_add_abs]
  omega

/-- A clip region has square corners and a rectangle with whole numbers up to 1024. -/
structure AlignedClip (c : ClipRect) (x y w h : ℤ) : Prop where
  rect : IntegerRect c.rect x y w h
  square : c.radii.isZero = true
  x_le : |x| ≤ 1024
  y_le : |y| ≤ 1024
  w_le : |w| ≤ 1024
  h_le : |h| ≤ 1024

/-- Such a region contains the points of the pixels between its corners, and no others. -/
theorem AlignedClip.contains_iff {c : ClipRect} {x y w h : ℤ} (hc : AlignedClip c x y w h) {p : Vec2}
    {u v : ℚ} (hp : p.Denotes u v) {px py : ℕ} (hu : ⌊u⌋ = px) (hv : ⌊v⌋ = py) :
    c.contains p = true ↔ InGridRect x y (x + w) (y + h) px py := by
  have hsmall := smallRect_of_abs_le hc.x_le hc.y_le hc.w_le hc.h_le
  have hrect := (hc.rect.normalized hsmall).contains_iff hsmall.normalized hp hu hv
  rw [inGridRect_normalized] at hrect
  simp only [ClipRect.contains, hc.square, Bool.true_or, Bool.and_true]
  exact hrect

/-! ## Masks -/

/-- On a target whose sides are powers of two up to 1024, shown at its own
size, a record that is not transformed and has a rectangle with whole numbers
has a fragment at each of its pixels. If its clip regions are aligned, the clip
mask of a fragment is one where the pixel is between the corners of the one
region and not between those of the other, and zero elsewhere. -/
theorem clipMask_aligned {t : Target} {j k : ℕ} (hj : j ≤ 10) (hk : k ≤ 10)
    (hw : t.width.toNat = 2 ^ j) (hh : t.height.toNat = 2 ^ k) {frame : FrameUniforms}
    (hframe : frame = ⟨t.viewport.projection, 1.0⟩) {tables : UniformTables} {record : InstanceRecord}
    {i : ResolvedInstance} (hi : record.resolve tables = .ok i)
    (htransform : tables.transforms.get record.indices.transform = .ok Mat4.identity)
    {keep drop : ClipRect} (hin : tables.clipRects.get record.indices.clipIn = .ok keep)
    (hout : tables.clipRects.get record.indices.clipOut = .ok drop) {x y w h : ℤ}
    (hrect : IntegerRect record.rect x y w h) (hr : InRange x y w h) {kx ky kw kh : ℤ}
    (hkeep : AlignedClip keep kx ky kw kh) {dx dy dw dh : ℤ} (hdrop : AlignedClip drop dx dy dw dh) :
    (∀ px < t.width.toNat, ∀ py < t.height.toNat, InGridRect x y (x + w) (y + h) px py →
      ∃ f ∈ i.fragments frame t.width t.height, f.x = px ∧ f.y = py) ∧
    ∀ f ∈ i.fragments frame t.width t.height,
      let mask := FragmentInput.clipMask ⟨f.coord, f.varyings, i.flat⟩
      let kept := InGridRect kx ky (kx + kw) (ky + kh) f.x f.y ∧
        ¬ InGridRect dx dy (dx + dw) (dy + dh) f.x f.y
      (kept → mask = 1.0) ∧ (¬ kept → mask = 0.0) := by
  obtain ⟨_, _, _, tile, htransform', hin', hout', -, rfl⟩ := InstanceRecord.resolve_eq_ok_iff.mp hi
  obtain rfl := Except.ok.inj (htransform.symm.trans htransform')
  obtain rfl := Except.ok.inj (hin.symm.trans hin')
  obtain rfl := Except.ok.inj (hout.symm.trans hout')
  have hw' := le_of_two_pow hj hw
  have hh' := le_of_two_pow hk hh
  have hsmall := hr.smallRect
  have hgrid := hsmall.gridRect hr.w_ne hr.h_ne
  have hspans := spans_placed (i := record.withEntries Mat4.identity keep drop tile) hj hk hw hh rfl
    hframe hrect hsmall
  have hratio : Denotes frame.devicePixelRatio 1 := hframe ▸ denotes_one
  have hworld := spans_world (i := record.withEntries Mat4.identity keep drop tile) rfl hratio hrect hsmall
  constructor
  · intro px hpx py hpy hcorners
    have hmem := (mem_coverage_iff hspans hgrid hw' hh').mpr ⟨hpx, hpy, hcorners⟩
    obtain ⟨f, hf, hplace⟩ := List.mem_map.mp hmem
    exact ⟨f, hf, Prod.mk.inj hplace⟩
  · intro f hf
    obtain ⟨half, hat⟩ := ResolvedInstance.exists_fragmentAt hf
    obtain ⟨hx, hy⟩ := ResolvedInstance.isSome_fragmentAt_target (by omega) (by omega)
      (Option.isSome_of_mem hat)
    obtain ⟨hnearx, hneary⟩ := near_worldPosition hspans hworld hgrid (by omega) (by omega) hat
    obtain ⟨u, hu, hfloorx⟩ := floor_of_near hnearx
    obtain ⟨v, hv, hfloory⟩ := floor_of_near hneary
    have hkept : (keep.contains f.varyings.worldPosition && !drop.contains f.varyings.worldPosition) =
        true ↔ InGridRect kx ky (kx + kw) (ky + kh) f.x f.y ∧
          ¬ InGridRect dx dy (dx + dw) (dy + dh) f.x f.y := by
      rw [Bool.and_eq_true, Bool.not_eq_true', Bool.eq_false_iff, ne_eq,
        hkeep.contains_iff ⟨hu, hv⟩ hfloorx hfloory, hdrop.contains_iff ⟨hu, hv⟩ hfloorx hfloory]
    exact ⟨fun h => if_pos (hkept.mpr h), fun h => if_neg (mt hkept.mp h)⟩

/-- The colour pass over two by two pixels, of which a region keeps those on the left. -/
def leftHalf : DrawSettings :=
  { twoByTwo with
    tables :=
      { twoByTwo.tables with
        clipRects :=
          { kind := .clipRect, capacity := 2
            entries := #[ClipRect.square (Rect.ofXYWH 0.0 0.0 1.0 2.0), ClipRect.empty] } } }

/-- A quad over all of the target that the region on the left clips. -/
def clippedQuad : InstanceRecord :=
  (InstanceRecord.ofRect (Rect.ofXYWH 0.0 0.0 2.0 2.0)).setMisc { clipOut := 1 }

/-- The fragment at the top left is kept and the one at the top right is not. -/
theorem clipMask_clippedQuad :
    ∃ i, clippedQuad.resolve leftHalf.tables = .ok i ∧
      (∃ f ∈ i.fragments leftHalf.frame 2 2, (f.x, f.y) = (0, 0) ∧
        FragmentInput.clipMask ⟨f.coord, f.varyings, i.flat⟩ = 1.0) ∧
      ∃ f ∈ i.fragments leftHalf.frame 2 2, (f.x, f.y) = (1, 0) ∧
        FragmentInput.clipMask ⟨f.coord, f.varyings, i.flat⟩ = 0.0 := by
  have hzero : Denotes 0.0 (0 : ℤ) := by exact_mod_cast denotes_zero
  have hone : Denotes 1.0 (1 : ℤ) := by exact_mod_cast denotes_one
  have htwo : Denotes 2.0 (2 : ℤ) := by exact_mod_cast denotes_two
  have hkeep : AlignedClip (ClipRect.square (Rect.ofXYWH 0.0 0.0 1.0 2.0)) 0 0 1 2 :=
    ⟨⟨hzero, hzero, hone, htwo⟩, by decide +kernel, by decide, by decide, by decide, by decide⟩
  have hdrop : AlignedClip ClipRect.empty 0 0 0 0 :=
    ⟨⟨hzero, hzero, hzero, hzero⟩, by decide +kernel, by decide, by decide, by decide, by decide⟩
  have hfound : ¬ clippedQuad.MissesTable leftHalf.tables := by
    unfold InstanceRecord.MissesTable
    decide +kernel
  obtain ⟨i, hi⟩ := InstanceRecord.exists_resolve hfound
  obtain ⟨hcover, hmask⟩ := clipMask_aligned (t := Target.new 2 2) (j := 1) (k := 1) (by decide)
    (by decide) rfl rfl (rfl : leftHalf.frame = _) hi (by decide +kernel) (by decide +kernel)
    (by decide +kernel) ⟨hzero, hzero, htwo, htwo⟩ (by constructor <;> decide) hkeep hdrop
  refine ⟨i, hi, ?_, ?_⟩
  · obtain ⟨f, hf, hx, hy⟩ := hcover 0 (by decide) 0 (by decide) (by constructor <;> decide)
    refine ⟨f, hf, by rw [hx, hy], (hmask f hf).1 ?_⟩
    rw [hx, hy, inGridRect_iff, inGridRect_iff]
    decide
  · obtain ⟨f, hf, hx, hy⟩ := hcover 1 (by decide) 0 (by decide) (by constructor <;> decide)
    refine ⟨f, hf, by rw [hx, hy], (hmask f hf).2 ?_⟩
    rw [hx, hy, inGridRect_iff, inGridRect_iff]
    decide

end TileCompositor
