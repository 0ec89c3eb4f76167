import TileCompositor.Proofs.Coverage.Covering
import TileCompositor.Proofs.Coverage.Runs
/-!
# Draws stay on their target

A blend reads and writes the place that its column and row lead to. Here it is
made to fail where there is no such place, and a draw is shown never to come
to that: the box of a triangle is cut to the size of the target, whatever the
coordinates of its corners are, and corners with a coordinate that is NaN or
infinite make the area NaN or infinite too, so that the triangle is dropped
before it has a box.

Results:
* `Target.blendAllChecked_eq_ok_iff`: when a run of checked blends succeeds.
* `triangleFragments_of_not_finite`: triangles with a corner that is nowhere.
* `DrawSettings.draw_stays_inside`: a draw never fails.
-/
namespace TileCompositor
open Binary32

/-! ## Checked blends -/

namespace Target

/-- The target with `src` blended into the pixel at column `x` and row `y`, or
an error if they lead to no place in the data.
mirrors `blend_pixel`, raster/target:75-78 -/
def blendPixelChecked (t : Target) (x y : Nat) (src : Color) (mode : BlendMode) :
    Except IndexOutOfBounds Target :=
  (t.pixel x y).map fun _ => t.blendPixel x y src mode

/-- The target with colours blended into it one after the other, up to the
first that has no place. -/
def blendAllChecked (t : Target) (mode : BlendMode) (colored : List (Fragment × Color)) :
    Except IndexOutOfBounds Target :=
  colored.foldlM (fun t (f, color) => t.blendPixelChecked f.x f.y color mode) t

variable {t t' : Target} {mode : BlendMode}

theorem blendPixelChecked_eq_ok_iff {x y : Nat} {src : Color} :
    t.blendPixelChecked x y src mode = .ok t' ↔
      t.offset x y < t.pixels.size ∧ t.blendPixel x y src mode = t' := by
  rw [← exists_pixel_iff, blendPixelChecked]
  cases t.pixel x y with
  | error e => exact iff_of_false nofun fun h => nomatch h.1
  | ok c => simp [Except.map]

/-- A blend adds no places. -/
theorem size_blendPixel (t : Target) (x y : Nat) (src : Color) (mode : BlendMode) :
    (t.blendPixel x y src mode).pixels.size = t.pixels.size := Array.size_modify

/-- A run of blends fails exactly if one of them has no place. -/
theorem blendAllChecked_eq_ok_iff {colored : List (Fragment × Color)} :
    t.blendAllChecked mode colored = .ok t' ↔
      (∀ p ∈ colored, t.offset p.1.x p.1.y < t.pixels.size) ∧ t.blendAll mode colored = t' := by
  induction colored generalizing t with
  | nil => simp [blendAllChecked, blendAll, pure, Except.pure]
  | cons p rest ih =>
    obtain ⟨f, color⟩ := p
    have hcons : t.blendAllChecked mode ((f, color) :: rest) =
        t.blendPixelChecked f.x f.y color mode >>= fun t => t.blendAllChecked mode rest :=
      List.foldlM_cons
    have ih := ih (t := t.blendPixel f.x f.y color mode)
    simp only [offset_blendPixel, size_blendPixel] at ih
    rw [hcons, List.forall_mem_cons, and_assoc]
    constructor
    · intro h
      obtain ⟨mid, hmid, hrest⟩ := exists_of_bind_eq_ok h
      obtain ⟨hplace, rfl⟩ := blendPixelChecked_eq_ok_iff.mp hmid
      exact ⟨hplace, ih.mp hrest⟩
    · rintro ⟨hplace, hrest⟩
      have hmid : t.blendPixelChecked f.x f.y color mode = .ok (t.blendPixel f.x f.y color mode) :=
        blendPixelChecked_eq_ok_iff.mpr ⟨hplace, rfl⟩
      rw [hmid]
      exact ih.mpr hrest

end Target

/-! ## Corners that are nowhere -/

section NotFinite
variable {a b c : Vec2}

theorem Vec2.Denotes.isFinite {p : Vec2} {x y : ℚ} (h : p.Denotes x y) : p.isFinite = true := by
  rw [Vec2.isFinite, h.x.isFinite, h.y.isFinite]
  rfl

/-- If the area of a triangle is finite, its corners are. -/
theorem corners_of_edge (h : (edge a b c).isFinite = true) :
    ∃ ax ay bx b_y cx cy, a.Denotes ax ay ∧ b.Denotes bx b_y ∧ c.Denotes cx cy := by
  -- each coordinate is an operand of a difference that is a factor of a finite product
  obtain ⟨u, v, hu, hv, -⟩ := operands_of_sub h
  obtain ⟨p, q, hp, hq, -⟩ := operands_of_mul hu.isFinite
  obtain ⟨r, s, hr, hs, -⟩ := operands_of_mul hv.isFinite
  obtain ⟨bx, ax, hbx, hax, -⟩ := operands_of_sub hp.isFinite
  obtain ⟨cy, ay, hcy, hay, -⟩ := operands_of_sub hq.isFinite
  obtain ⟨b_y, _, hby, -, -⟩ := operands_of_sub hr.isFinite
  obtain ⟨cx, _, hcx, -, -⟩ := operands_of_sub hs.isFinite
  exact ⟨ax, ay, bx, b_y, cx, cy, ⟨hax, hay⟩, ⟨hbx, hby⟩, ⟨hcx, hcy⟩⟩

end NotFinite

/-- All three vertices have finite coordinates on a target of the given size. -/
def FinitePositions (a b c : Vertex) (width height : UInt32) : Prop :=
  (a.position width height).isFinite = true ∧ (b.position width height).isFinite = true ∧
    (c.position width height).isFinite = true

/-- A triangle with a coordinate that is NaN or infinite has no fragments. -/
theorem triangleFragments_of_not_finite {a b c : Vertex} {width height : UInt32}
    (h : ¬ FinitePositions a b c width height) :
    triangleFragments a b c width height = [] := by
  have harea : (edge (a.position width height) (b.position width height)
      (c.position width height)).isFinite = false := by
    rw [← Bool.not_eq_true]
    intro hfin
    obtain ⟨_, _, _, _, _, _, ha, hb, hc⟩ := corners_of_edge hfin
    exact h ⟨ha.isFinite, hb.isFinite, hc.isFinite⟩
  rw [triangleFragments_eq, List.filterMap_eq_nil_iff]
  exact fun p _ => triangleFragmentAt_of_not_finite harea p.1 p.2

/-! ## Draws -/

namespace DrawSettings

theorem mem_fragments_of_mem_shadedFragments {s : DrawSettings} {width height : UInt32}
    {records : List InstanceRecord} {p : Fragment × Color}
    (hp : p ∈ s.shadedFragments width height records) :
    ∃ i ∈ s.instances records, p.1 ∈ i.fragments s.frame width height := by
  obtain ⟨i, hi, hp⟩ := List.mem_flatMap.mp hp
  obtain ⟨f, hf, hp⟩ := List.mem_filterMap.mp hp
  obtain ⟨color, -, rfl⟩ := Option.map_eq_some_iff.mp hp
  exact ⟨i, hi, hf⟩

/-- On a target whose size is exact as a float, as every size up to 2^24 is,
all fragments of a draw are pixels of the target, whatever numbers stand in
the records, the tables and the frame: their places are in the data, and the
run of the blends never fails. A triangle with a coordinate that is NaN or
infinite has no fragments. -/
theorem draw_stays_inside (s : DrawSettings) (t : Target) (records : List InstanceRecord)
    (hw : Denotes t.width.toFloat32 t.width.toNat) (hh : Denotes t.height.toFloat32 t.height.toNat) :
    (∀ i ∈ s.instances records, ∀ f ∈ i.fragments s.frame t.width t.height,
        f.x < t.width.toNat ∧ f.y < t.height.toNat ∧ t.offset f.x f.y < t.pixels.size) ∧
      t.blendAllChecked s.blend (s.shadedFragments t.width t.height records) =
        .ok (s.draw t records).target ∧
      ∀ a b c : Vertex, ¬ FinitePositions a b c t.width t.height →
        triangleFragments a b c t.width t.height = [] := by
  have hinside : ∀ i ∈ s.instances records, ∀ f ∈ i.fragments s.frame t.width t.height,
      f.x < t.width.toNat ∧ f.y < t.height.toNat ∧ t.offset f.x f.y < t.pixels.size := by
    intro i _ f hf
    obtain ⟨⟨-, hx⟩, -, hy⟩ := ResolvedInstance.contains_of_mem_fragments hf
    simp only [targetBox, reach_of_exact hw, reach_of_exact hh] at hx hy
    exact ⟨hx, hy, t.offset_lt hx hy⟩
  refine ⟨hinside, ?_, fun a b c => triangleFragments_of_not_finite⟩
  rw [target_draw, Target.blendAllChecked_eq_ok_iff]
  refine ⟨fun p hp => ?_, rfl⟩
  obtain ⟨i, hi, hf⟩ := mem_fragments_of_mem_shadedFragments hp
  exact (hinside i hi p.1 hf).2.2

/-- A quad far larger than the target fills its three pixels and no others. -/
theorem draw_wide_quad :
    let t := Target.new 3 1
    let records := [(InstanceRecord.ofRect (Rect.ofXYWH (-1e36) (-8.0) 2e36 16.0)).setColor Color.white]
    Denotes t.width.toFloat32 t.width.toNat ∧ Denotes t.height.toFloat32 t.height.toNat ∧
      (onePixel.shadedFragments t.width t.height records).length = 3 ∧
      t.blendAllChecked .sourceOver (onePixel.shadedFragments t.width t.height records) =
        .ok (onePixel.draw t records).target := by
  intro t records
  have hw : Denotes t.width.toFloat32 t.width.toNat := denotes_toFloat32_of_le (by decide)
  have hh : Denotes t.height.toFloat32 t.height.toNat := denotes_toFloat32_of_le (by decide)
  have hlength : (onePixel.shadedFragments t.width t.height records).length = 3 := by decide +kernel
  exact ⟨hw, hh, hlength, (draw_stays_inside onePixel t records hw hh).2.1⟩

end DrawSettings

end TileCompositor
