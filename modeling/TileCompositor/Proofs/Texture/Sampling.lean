import TileCompositor.Proofs.Color.Lerp
import TileCompositor.Proofs.Texture.Checked
import TileCompositor.Shading.Pass
/-!
# What a texture is sampled to

A byte as a fraction of 255 lies between zero and one, and so does the border.
The factors between neighbouring texels do too, although just below a whole
coordinate they are rounded up to one; so interpolation does not lead out of the
range, whichever texels it is between. Where all texels are the same and no border
shows there is nothing to interpolate between, and a mask of full texels leaves
colours as they are.

Results:
* `AlphaTexture.denotesUnit_coverage`, `AlphaTexture.inUnit_fetch`: single texels.
* `AlphaTexture.inUnit_sample`: the range.
* `AlphaTexture.denotes_sample`: textures of one byte.
* `Pass.shade_text_of_one`: masks that leave a colour as it is.
* `AlphaTexture.sample_safe`: sampling as a whole.
-/
namespace TileCompositor
open Binary32

namespace AlphaTexture
variable {t : AlphaTexture} {uv : Vec2} {mode : AddressMode} {b : UInt8} {s : Sampler}

/-! ## Single texels -/

theorem denotesUnit_coverage (b : UInt8) : DenotesUnit (coverage b) (nearest (b.toNat / 255)) := by
  have hb : (b.toNat : ℚ) ≤ 255 := by
    have := b.toNat_lt
    exact_mod_cast (by omega : b.toNat ≤ 255)
  have h0 : (0 : ℚ) ≤ b.toNat / 255 := by positivity
  have h1 : nearest (b.toNat / 255) ≤ 1 := nearest_le representable_one (by linarith)
  exact ⟨(denotes_ofUInt8 b).div denotes_255 (by norm_num) (abs_nearest_lt_of_unit h0 h1),
    nearest_nonneg h0, h1⟩

theorem inUnit_fetch (t : AlphaTexture) (x y : Int) (mode : AddressMode) :
    Scalar.InUnit (t.fetch x y mode) := by
  unfold fetch
  split
  · exact inUnit_iff.mpr ⟨_, denotesUnit_coverage _⟩
  · exact ⟨(denotes_zero.le_iff denotes_zero).mpr le_rfl, (denotes_zero.le_iff denotes_one).mpr zero_le_one⟩

/-- Only the border has no texel. -/
theorem exists_resolve (hmode : mode ≠ .clampToBorder) {n : Nat} (hn : 0 < n) (i : Int) :
    ∃ k, mode.resolve n hn i = some k := by
  cases mode with
  | clampToEdge => exact ⟨_, rfl⟩
  | periodic => exact ⟨_, rfl⟩
  | reflected =>
    simp only [AddressMode.resolve]
    split <;> exact ⟨_, rfl⟩
  | clampToBorder => exact absurd rfl hmode

/-- All texels are `b`. -/
def IsUniform (t : AlphaTexture) (b : UInt8) : Prop := ∀ byte ∈ t.texels, byte = b

instance (t : AlphaTexture) (b : UInt8) : Decidable (t.IsUniform b) :=
  decidable_of_iff (∀ byte ∈ t.texels.toList, byte = b) (by simp only [IsUniform, Array.mem_toList_iff])

theorem IsUniform.fetch (h : t.IsUniform b) (hmode : mode ≠ .clampToBorder) (x y : Int) :
    t.fetch x y mode = coverage b := by
  obtain ⟨column, hx⟩ := exists_resolve hmode t.width_pos x
  obtain ⟨row, hy⟩ := exists_resolve hmode t.height_pos y
  simp only [AlphaTexture.fetch, hx, hy, texel]
  rw [h _ (Array.getElem_mem _)]

/-! ## Between texels -/

/-- The factor between a texel and the next. -/
theorem inUnit_factor {x : Float32} {n : UInt32} (h : Reaches x n) :
    Scalar.InUnit (x * n.toFloat32 - 0.5 - Scalar.floor (x * n.toFloat32 - 0.5)) := by
  obtain ⟨q, hq, -⟩ := h.exists_denotes_sub_half
  exact inUnit_iff.mpr ⟨_, Scalar.denotesUnit_sub_floor hq⟩

/-- A sample lies between zero and one. -/
theorem inUnit_sample (huv : t.InReach uv) (s : Sampler) : Scalar.InUnit (t.sample uv s) := by
  have hx := inUnit_factor huv.x
  have hy := inUnit_factor huv.y
  simp only [sample]
  cases s.filter with
  | nearest => exact inUnit_fetch _ _ _ _
  | linear =>
    exact inUnit_lerp (inUnit_lerp (inUnit_fetch _ _ _ _) (inUnit_fetch _ _ _ _) hx)
      (inUnit_lerp (inUnit_fetch _ _ _ _) (inUnit_fetch _ _ _ _) hx) hy

/-- Between texels of one byte there is nothing else. -/
theorem IsUniform.denotes_sample (h : t.IsUniform b) (hmode : s.address ≠ .clampToBorder)
    (huv : t.InReach uv) : Denotes (t.sample uv s) (nearest (b.toNat / 255)) := by
  have hcoverage := (denotesUnit_coverage b).denotes
  obtain ⟨u, hu⟩ := inUnit_iff.mp (inUnit_factor huv.x)
  obtain ⟨v, hv⟩ := inUnit_iff.mp (inUnit_factor huv.y)
  simp only [sample]
  cases s.filter with
  | nearest =>
    rw [h.fetch hmode]
    exact hcoverage
  | linear =>
    simp only [h.fetch hmode, mix]
    have hrow := denotes_lerp_same hcoverage hcoverage hu.denotes.isFinite
    exact denotes_lerp_same hrow hrow hv.denotes.isFinite

/-- Full texels are sampled to one. -/
theorem IsUniform.sample_full (h : t.IsUniform 255) (hmode : s.address ≠ .clampToBorder)
    (huv : t.InReach uv) : t.sample uv s = 1.0 := by
  have hfull : nearest ((255 : UInt8).toNat / 255) = 1 := by
    rw [show (255 : UInt8).toNat = 255 from rfl, Nat.cast_ofNat, div_self (by norm_num)]
    exact nearest_of_representable representable_one
  have hsample := h.denotes_sample hmode huv
  rw [hfull] at hsample
  exact hsample.eq denotes_one one_ne_zero

end AlphaTexture

/-! ## Masks -/

/-- Where the mask is one the text pass gives the interpolated colour. -/
theorem Pass.shade_text_of_one {t : AlphaTexture} {s : Sampler} {f : FragmentInput}
    (h : t.sample f.varyings.maskUv s = 1.0) : (Pass.text t s).shade f = Pass.color.shade f := by
  simp only [Pass.shade, h, mul_comm_eq 1.0, mul_one_eq]

/-- Sampling a texture of at most 2^32 texels at coordinates below 2^62 reads texels only, with no
number on the way leaving its type, and gives a value between zero and one. Where all texels are the
same byte and no border shows it gives that byte as a fraction of 255, and if that is one, text is
drawn through the texture as the interpolated colour is. -/
theorem AlphaTexture.sample_safe (t : AlphaTexture) (s : Sampler) {uv : Vec2}
    (hsize : t.width.toNat * t.height.toNat ≤ 2 ^ 32) (huv : t.InReach uv) :
    t.sample? uv s = some (t.sample uv s) ∧ Scalar.InUnit (t.sample uv s) ∧
      ∀ b, t.IsUniform b → s.address ≠ .clampToBorder →
        (t.sample uv s == b.toFloat32 / 255.0) = true ∧
        (b = 255 → ∀ f : FragmentInput, f.varyings.maskUv = uv →
          (Pass.text t s).shade f = Pass.color.shade f) := by
  refine ⟨sample?_eq hsize huv s, inUnit_sample huv s, fun b hb hmode => ⟨?_, ?_⟩⟩
  · exact (hb.denotes_sample hmode huv).beq (denotesUnit_coverage b).denotes
  · rintro rfl f rfl
    exact Pass.shade_text_of_one (hb.sample_full hmode huv)

/-- Two full texels side by side. -/
def AlphaTexture.fullPair : AlphaTexture := ⟨2, 1, #[255, 255], by decide, by decide, rfl⟩

/-- A position just to the left of the centre of the first texel, so that the texel to the left of it
is the reflected one, and the factor to the next is rounded up to one. -/
def AlphaTexture.leftOfCentre : Vec2 := ⟨Float32.ofBits 0x3e7fffff, 0.5⟩

theorem AlphaTexture.fullPair_safe :
    let s : Sampler := ⟨.reflected, .linear⟩
    fullPair.width.toNat * fullPair.height.toNat ≤ 2 ^ 32 ∧ fullPair.InReach leftOfCentre ∧
      fullPair.IsUniform 255 ∧ fullPair.sample? leftOfCentre s = some (fullPair.sample leftOfCentre s) ∧
      Scalar.InUnit (fullPair.sample leftOfCentre s) ∧
      ∀ f : FragmentInput, f.varyings.maskUv = leftOfCentre →
        (Pass.text fullPair s).shade f = Pass.color.shade f := by
  intro s
  have hx : Denotes leftOfCentre.x ((2 ^ 24 - 1 : ℕ) * 2 ^ (-26 : ℤ)) :=
    denotes_of_view (2 ^ 24 - 1) (-26) ⟨by decide, rfl⟩
  have hsize : fullPair.width.toNat * fullPair.height.toNat ≤ 2 ^ 32 := by decide
  have hwidth : fullPair.width.toNat = 2 := rfl
  have hheight : fullPair.height.toNat = 1 := rfl
  have hreach : fullPair.InReach leftOfCentre :=
    ⟨⟨_, hx, .inl (by norm_num [hwidth])⟩, ⟨_, denotes_half, .inl (by norm_num [hheight])⟩⟩
  have huniform : fullPair.IsUniform 255 := by simp [IsUniform, fullPair]
  obtain ⟨hread, hunit, hmask⟩ := sample_safe fullPair s hsize hreach
  exact ⟨hsize, hreach, huniform, hread, hunit, (hmask 255 huniform (by decide)).2 rfl⟩

end TileCompositor
