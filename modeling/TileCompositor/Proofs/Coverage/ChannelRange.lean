import TileCompositor.Proofs.Color.Premultiplied
import TileCompositor.Proofs.Coverage.Opaque
/-!
# Channels in range

Blending straight colours keeps all channels between zero and one, and
blending premultiplied colours keeps them below alpha, exactly and without a
tolerance. A fresh target is transparent, which is in range either way, so
every pixel is in range after any sequence of draws that shades colours in
range.

Results:
* `AllPixels.draws`: a property of all pixels along sequences of draws.
* `blending_keeps_range`: both blend modes, for two colours and for targets.
-/
namespace TileCompositor
namespace Target
variable {P Q : Color → Prop} {mode : BlendMode}

theorem allPixels_new {P : Color → Prop} (width height : UInt32) (h : P Color.transparent) :
    (new width height).AllPixels P := by
  intro c hc
  obtain rfl : c = Color.transparent := (Array.mem_replicate.mp hc).2
  exact h

/-- A property that the blend mode keeps for colours of the fragments holds of
every pixel after any draws in that mode. -/
theorem AllPixels.draws {t : Target} (ht : t.AllPixels P)
    (hkeep : ∀ src dst, Q src → P dst → P (mode.blend src dst)) {calls : List DrawCall}
    (hmode : ∀ call ∈ calls, call.settings.blend = mode)
    (hcolors : ∀ p ∈ shadedBy t.width t.height calls, Q p.2) : (t.draws calls).AllPixels P := by
  rw [draws_eq_blendAll hmode]
  exact ht.blendAll hkeep hcolors

/-- Straight colours with channels between zero and one stay so laid over each
other, and their quotients are numbers; premultiplied colours stay
premultiplied. From a fresh target on, every pixel keeps such a colour along
all draws in the mode that go with it. -/
theorem blending_keeps_range :
    (∀ src dst : Color, src.InUnit → dst.InUnit →
      (src.sourceOver dst).InUnit ∧ (src.sourceOver dst).isFinite = true) ∧
    (∀ src dst : Color, src.IsPremultiplied → dst.IsPremultiplied →
      (src.premultipliedOver dst).IsPremultiplied) ∧
    (∀ (width height : UInt32) (calls : List DrawCall),
      (∀ call ∈ calls, call.settings.blend = .sourceOver) →
      (∀ p ∈ shadedBy width height calls, p.2.InUnit) →
      ((new width height).draws calls).AllPixels Color.InUnit) ∧
    (∀ (width height : UInt32) (calls : List DrawCall),
      (∀ call ∈ calls, call.settings.blend = .premultipliedOver) →
      (∀ p ∈ shadedBy width height calls, p.2.IsPremultiplied) →
      ((new width height).draws calls).AllPixels Color.IsPremultiplied) := by
  refine ⟨?_, ?_, ?_, ?_⟩
  · intro src dst hs hd
    have hover : (src.sourceOver dst).InUnit := hs.sourceOver hd
    exact ⟨hover, hover.isFinite⟩
  · intro src dst hs hd
    exact hs.premultipliedOver hd
  · intro width height calls hmode hcolors
    have hnew := allPixels_new width height Color.inUnit_transparent
    exact hnew.draws (fun _ _ hs hd => hs.sourceOver hd) hmode hcolors
  · intro width height calls hmode hcolors
    have hnew := allPixels_new width height Color.isPremultiplied_transparent
    exact hnew.draws (fun _ _ hs hd => hs.premultipliedOver hd) hmode hcolors

/-- A colour that is in range as a straight and as a premultiplied one. -/
def glass : Color := ⟨0.5, 0.25, 0.0, 0.5⟩

/-- Two quads of that colour over a pixel that its clip region keeps. -/
def glassLayers (blend : BlendMode) : List DrawCall :=
  [{ settings := {
       DrawSettings.onePixel with
       tables := {
         DrawSettings.onePixel.tables with
         clipRects := {
           kind := .clipRect
           capacity := 2
           entries := #[.square InstanceRecord.unitSquare, .empty] } }
       blend }
     records := DrawSettings.twoLayers.map fun record =>
       (record.setColor glass).setMisc { clipOut := 1 } }]

/-- Both layers are shaded, and the pixel is in range after them. -/
theorem glassLayers_in_range :
    (glass.sourceOver glass).InUnit ∧ (glass.premultipliedOver glass).IsPremultiplied ∧
    ((shadedBy 1 1 (glassLayers .sourceOver)).length = 2 ∧
      ((new 1 1).draws (glassLayers .sourceOver)).AllPixels Color.InUnit) ∧
    (shadedBy 1 1 (glassLayers .premultipliedOver)).length = 2 ∧
      ((new 1 1).draws (glassLayers .premultipliedOver)).AllPixels Color.IsPremultiplied := by
  obtain ⟨hover, hpre, hdraws, hdraws'⟩ := blending_keeps_range
  have hunit : glass.InUnit := by decide +kernel
  have hglass : glass.IsPremultiplied := by decide +kernel
  have hshaded : ∀ p ∈ shadedBy 1 1 (glassLayers .sourceOver), p.2.InUnit := by decide +kernel
  have hshaded' : ∀ p ∈ shadedBy 1 1 (glassLayers .premultipliedOver), p.2.IsPremultiplied := by
    decide +kernel
  refine ⟨(hover _ _ hunit hunit).1, hpre _ _ hglass hglass, ⟨?_, ?_⟩, ?_, ?_⟩
  · decide +kernel
  · exact hdraws 1 1 _ (by decide) hshaded
  · decide +kernel
  · exact hdraws' 1 1 _ (by decide) hshaded'

end Target
end TileCompositor
