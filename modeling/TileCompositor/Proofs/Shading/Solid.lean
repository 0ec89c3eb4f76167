import TileCompositor.Proofs.Coverage.Placement
import TileCompositor.Proofs.Coverage.Weights
import TileCompositor.Proofs.Shading.Clipping
/-!
# Solid triangles

A value that is the same at all three vertices is interpolated by adding to it
the zero difference of two vertices times a weight, twice. That is the value
itself as long as both weights are finite; zero times a weight that is not
finite is NaN. The weights are finite on all triangles of a sensible size and
on many larger ones, but not on all: an edge value can overflow where the area
does not.

Results:
* `Weights.denotes_mixColor`, `Weights.isNaN_mixColor`: interpolation between equal colours.
* `solid_of_borderCornerMode`, `solid_of_forall`: triangles of one colour.
* `shade_solid`: the colour of the fragments of such a triangle.
* `shade_skewedQuad`: a white triangle that is shaded NaN.
-/
namespace TileCompositor
open Binary32

/-! ## Colours under a mask -/

namespace Color

/-- Every channel is NaN. -/
structure IsNaN (c : Color) : Prop where
  r : c.r.isNaN = true
  g : c.g.isNaN = true
  b : c.b.isNaN = true
  a : c.a.isNaN = true

instance (c : Color) : Decidable c.IsNaN :=
  decidable_of_iff (c.r.isNaN = true ∧ c.g.isNaN = true ∧ c.b.isNaN = true ∧ c.a.isNaN = true)
    ⟨fun ⟨r, g, b, a⟩ => ⟨r, g, b, a⟩, fun ⟨r, g, b, a⟩ => ⟨r, g, b, a⟩⟩

variable {c d : Color} {r g b a : ℚ} {k : Float32}

/-- Equal colours stay equal under a mask. -/
theorem Denotes.beq_scaleAlpha (hc : c.Denotes r g b a) (hd : d.Denotes r g b a)
    (hk : k = 1.0 ∨ k = 0.0) : (c.scaleAlpha k == d.scaleAlpha k) = true := by
  have halpha : (c.a * k == d.a * k) = true := by
    rcases hk with rfl | rfl
    · exact (denotes_mul_one hc.a denotes_one).beq (denotes_mul_one hd.a denotes_one)
    · exact (denotes_mul_zero hc.a denotes_zero).beq (denotes_mul_zero hd.a denotes_zero)
  exact beq_iff.mpr ⟨hc.r.beq hd.r, hc.g.beq hd.g, hc.b.beq hd.b, halpha⟩

theorem IsNaN.scaleAlpha (h : c.IsNaN) (k : Float32) : (c.scaleAlpha k).IsNaN :=
  ⟨h.r, h.g, h.b, isNaN_mul_left k h.a⟩

end Color

/-! ## Between equal values -/

namespace Weights
variable {w : Weights}

section Mix
variable {x y z : Float32} {q : ℚ} (hx : Denotes x q) (hy : Denotes y q) (hz : Denotes z q)
include hx hy hz

theorem denotes_mix (hw : w.IsFinite) : Denotes (w.mix x y z) q := by
  obtain ⟨p, hp⟩ := isFinite_iff.mp hw.1
  obtain ⟨r, hr⟩ := isFinite_iff.mp hw.2
  have hb : Denotes ((y - x) * w.b) 0 := denotes_zero_mul (denotes_sub_self hy hx) hp
  have hc : Denotes ((z - x) * w.c) 0 := denotes_zero_mul (denotes_sub_self hz hx) hr
  exact denotes_add_zero (denotes_add_zero hx hb) hc

theorem isNaN_mix (hw : ¬ w.IsFinite) : (w.mix x y z).isNaN = true := by
  cases hb : w.b.isFinite with
  | false =>
    have hterm : ((y - x) * w.b).isNaN = true := isNaN_zero_mul (denotes_sub_self hy hx) hb
    exact isNaN_add_left _ (isNaN_add_right _ hterm)
  | true =>
    have hc : w.c.isFinite = false := Bool.eq_false_iff.mpr fun hc => hw ⟨hb, hc⟩
    have hterm : ((z - x) * w.c).isNaN = true := isNaN_zero_mul (denotes_sub_self hz hx) hc
    exact isNaN_add_right _ hterm

end Mix

section MixColor
variable {x y z : Color} {r g b a : ℚ} (hx : x.Denotes r g b a) (hy : y.Denotes r g b a)
  (hz : z.Denotes r g b a)
include hx hy hz

theorem denotes_mixColor (hw : w.IsFinite) : (w.mixColor x y z).Denotes r g b a :=
  ⟨denotes_mix hx.r hy.r hz.r hw, denotes_mix hx.g hy.g hz.g hw, denotes_mix hx.b hy.b hz.b hw,
    denotes_mix hx.a hy.a hz.a hw⟩

theorem isNaN_mixColor (hw : ¬ w.IsFinite) : (w.mixColor x y z).IsNaN :=
  ⟨isNaN_mix hx.r hy.r hz.r hw, isNaN_mix hx.g hy.g hz.g hw, isNaN_mix hx.b hy.b hz.b hw,
    isNaN_mix hx.a hy.a hz.a hw⟩

end MixColor

end Weights

/-! ## Solid halves -/

/-- The corners of a half in the order of its vertices. -/
def Half.cornerList (half : Half) : List Corner := [half.corners.1, half.corners.2.1, half.corners.2.2]

theorem Half.mem_cornerList (half : Half) :
    half.corners.1 ∈ half.cornerList ∧ half.corners.2.1 ∈ half.cornerList ∧
      half.corners.2.2 ∈ half.cornerList := by
  simp [cornerList]

namespace ResolvedInstance

/-- The vertices of one half of a quad have the colour `c`. -/
def Solid (i : ResolvedInstance) (half : Half) (c : Color) : Prop :=
  ∀ corner ∈ half.cornerList, (i.vertexColor corner half == c) = true

instance (i : ResolvedInstance) (half : Half) (c : Color) : Decidable (i.Solid half c) :=
  inferInstanceAs (Decidable (∀ corner ∈ half.cornerList, _))

variable {i : ResolvedInstance} {half : Half} {frame : FrameUniforms} {width height : UInt32}
  {x y : Nat} {f : Fragment} {c : Color}

/-- A quad with one colour at all corners is solid, in border-corner mode or not. -/
theorem solid_of_forall (h : ∀ corner, (i.record.colors.get corner == c) = true) (half : Half) :
    i.Solid half c := fun _ _ => h _

/-- In border-corner mode each half has the colour of the corner it is named for. -/
theorem solid_of_borderCornerMode (hmode : i.indices.borderCornerMode = true) (half : Half)
    (h : (i.record.colors.get half.corner).isFinite = true) :
    i.Solid half (i.record.colors.get half.corner) := by
  intro corner _
  obtain ⟨r, g, b, a, hc⟩ := Color.exists_denotes h
  rw [vertexColor, if_pos hmode]
  exact hc.beq hc

/-- The colour of a fragment is mixed from those of the corners of its half. -/
theorem fragmentAt_color (hf : i.fragmentAt half frame width height x y = some f) :
    ∃ w, i.weightsAt half frame width height x y = some w ∧
      ∃ k₁ ∈ half.cornerList, ∃ k₂ ∈ half.cornerList, ∃ k₃ ∈ half.cornerList,
        f.varyings.color =
          w.mixColor (i.vertexColor k₁ half) (i.vertexColor k₂ half) (i.vertexColor k₃ half) := by
  obtain ⟨w, hw, hturn⟩ := triangleFragmentAt_eq_some hf
  obtain ⟨h₁, h₂, h₃⟩ := half.mem_cornerList
  rcases hturn with h | h
  · exact ⟨w, hw, _, h₁, _, h₂, _, h₃, by rw [h]; rfl⟩
  · exact ⟨w, hw, _, h₁, _, h₃, _, h₂, by rw [h]; rfl⟩

/-- The weights of a fragment are finite if its half lies within 2^37 pixels. -/
theorem isFinite_weightsAt (hf : i.fragmentAt half frame width height x y = some f) {w : Weights}
    (hw : i.weightsAt half frame width height x y = some w)
    (hnear : ∀ corner ∈ half.cornerList, ((i.placed frame width height).get corner).Within (2 ^ 37)) :
    w.IsFinite := by
  obtain ⟨⟨-, hx⟩, -, hy⟩ := fragmentAt_contains hf
  have hcorner (corner : Corner) (hc : corner ∈ half.cornerList) :
      ((i.vertex corner half frame).position width height).Within (2 ^ 37) := by
    rw [position_vertex]
    exact hnear corner hc
  obtain ⟨h₁, h₂, h₃⟩ := half.mem_cornerList
  exact isFinite_weights hw (hx.trans (UInt32.toNat_lt _)) (hy.trans (UInt32.toNat_lt _))
    (hcorner _ h₁) (hcorner _ h₂) (hcorner _ h₃)

/-- Every fragment of a solid half is shaded by the colour pass in that colour,
its alpha times a clip mask of one or zero, if its weights are finite; if they
are not, it is shaded NaN in every channel. The weights are finite wherever the
corners of the half lie within 2^37 pixels of the origin. -/
theorem shade_solid (hsolid : i.Solid half c) (hc : c.isFinite = true)
    (hf : i.fragmentAt half frame width height x y = some f) :
    ∃ w color mask, i.weightsAt half frame width height x y = some w ∧
      Pass.color.shade ⟨f.coord, f.varyings, i.flat⟩ = some color ∧
      FragmentInput.clipMask ⟨f.coord, f.varyings, i.flat⟩ = mask ∧ (mask = 1.0 ∨ mask = 0.0) ∧
      (w.IsFinite → (color == c.scaleAlpha mask) = true) ∧ (¬ w.IsFinite → color.IsNaN) ∧
      ((∀ corner ∈ half.cornerList, ((i.placed frame width height).get corner).Within (2 ^ 37)) →
        w.IsFinite) := by
  obtain ⟨w, hw, k₁, h₁, k₂, h₂, k₃, h₃, hcolor⟩ := fragmentAt_color hf
  obtain ⟨r, g, b, a, hc⟩ := Color.exists_denotes hc
  have hcorner (corner : Corner) (hk : corner ∈ half.cornerList) :
      (i.vertexColor corner half).Denotes r g b a := .of_beq hc (hsolid corner hk)
  have hmask := Pass.clipMask_cases ⟨f.coord, f.varyings, i.flat⟩
  refine ⟨w, _, _, hw, rfl, rfl, hmask, fun hfin => ?_, fun hnot => ?_, isFinite_weightsAt hf hw⟩
  · have hmix := Weights.denotes_mixColor (hcorner k₁ h₁) (hcorner k₂ h₂) (hcorner k₃ h₃) hfin
    rw [← hcolor] at hmix
    exact hmix.beq_scaleAlpha hc hmask
  · have hmix := Weights.isNaN_mixColor (hcorner k₁ h₁) (hcorner k₂ h₂) (hcorner k₃ h₃) hnot
    rw [← hcolor] at hmix
    exact hmix.scaleAlpha _

/-- A quad over two by two pixels in border-corner mode, red and white. -/
def redAndWhite : ResolvedInstance where
  record := (InstanceRecord.ofRect (Rect.ofXYWH 0.0 0.0 2.0 2.0)).setColors
    ⟨Color.red, Color.black, Color.white, Color.black⟩
  indices := { borderCornerMode := true }
  transform := Mat4.identity
  flat := { clipIn := .square (Rect.ofXYWH 0.0 0.0 2.0 2.0) }

theorem shade_redAndWhite :
    let frame : FrameUniforms := ⟨(Target.new 2 2).viewport.projection, 1.0⟩
    redAndWhite.Solid .bottomRight Color.white ∧ Color.white.isFinite = true ∧
      ∃ f color mask, redAndWhite.fragmentAt .bottomRight frame 2 2 1 1 = some f ∧
        Pass.color.shade ⟨f.coord, f.varyings, redAndWhite.flat⟩ = some color ∧
        (mask = 1.0 ∨ mask = 0.0) ∧ (color == Color.white.scaleAlpha mask) = true := by
  intro frame
  have hfin : Color.white.isFinite = true := by decide +kernel
  have hsolid : redAndWhite.Solid .bottomRight Color.white := solid_of_borderCornerMode rfl _ hfin
  have hsome : (redAndWhite.fragmentAt .bottomRight frame 2 2 1 1).isSome = true := by decide +kernel
  obtain ⟨f, hf⟩ := Option.isSome_iff_exists.mp hsome
  obtain ⟨w, color, mask, -, hcolor, -, hmask, hbeq, -, hnear⟩ := shade_solid hsolid hfin hf
  refine ⟨hsolid, hfin, f, color, mask, hf, hcolor, hmask, hbeq (hnear fun corner _ => ?_)⟩
  have hspans : Spans (redAndWhite.placed frame 2 2) (0 : ℤ) (0 : ℤ) (0 + 2 : ℤ) (0 + 2 : ℤ) :=
    spans_placed (j := 1) (k := 1) (by decide) (by decide) rfl rfl rfl rfl
      ⟨by exact_mod_cast denotes_zero, by exact_mod_cast denotes_zero, by exact_mod_cast denotes_two,
        by exact_mod_cast denotes_two⟩ (by constructor <;> decide)
  refine ⟨_, _, hspans.denotes_get corner, ?_, ?_⟩ <;> cases corner <;>
    norm_num [Corner.pickX, Corner.pickY]

/-- A white unit square whose transform sends one corner far away. -/
def skewedQuad : ResolvedInstance where
  record := (InstanceRecord.ofRect (Rect.ofXYWH 0.0 0.0 1.0 1.0)).setColor Color.white
  indices := {}
  transform :=
    { c0 := ⟨0.0, 2.0, 0.0, 0.0⟩
      c1 := ⟨Float32.ofBits 0x7f600000, -4.0, 0.0, 0.0⟩
      c2 := ⟨0.0, 0.0, 1.0, 0.0⟩
      c3 := ⟨-1.0, -1.0, 0.0, 1.0⟩ }
  flat := { clipIn := .square (Rect.ofXYWH 0.0 0.0 2.0 2.0) }

/-- Its area is finite, but at the one pixel of the target an edge value is
not, so the fragment there is NaN. -/
theorem shade_skewedQuad :
    skewedQuad.Solid .topLeft Color.white ∧ Color.white.InUnit ∧
      ((skewedQuad.fragmentAt .topLeft {} 1 1 0 0).bind fun f =>
          Pass.color.shade ⟨f.coord, f.varyings, skewedQuad.flat⟩).any
        (fun color => decide color.IsNaN) = true := by
  have hsolid : skewedQuad.Solid .topLeft Color.white :=
    solid_of_forall (fun corner => by cases corner <;> decide +kernel) _
  exact ⟨hsolid, by decide +kernel, by decide +kernel⟩

end ResolvedInstance

end TileCompositor
