import TileCompositor.Proofs.Coverage.Runs
import TileCompositor.Proofs.Record.Packing
/-!
# The fields of a record that matter to a pass

A record has fields for every pass, and a pass reads some of them. Two records
that agree in those are the same to the pass: they resolve to instances whose
vertices lie at the same places and carry the same values wherever the pass
looks, interpolation keeps it so, and each fragment is given the same colour
or discarded alike. A list of records can therefore be exchanged for another
one that agrees with it record by record, without a trace in the drawing.

Results:
* `Varyings.interpolate_same`, `Pass.shade_same`: one fragment.
* `Pass.fragments_same`: the fragments of an instance.
* `DrawSettings.accept_same`: a record, skipped or drawn.
* `DrawSettings.draw_same`: a draw.
-/
namespace TileCompositor

/-! ## What a pass reads -/

/-- Records with the same colours at the vertices of their quads. In
border-corner mode that leaves out the two corners that name no triangle. -/
structure InstanceRecord.SameColors (r r' : InstanceRecord) : Prop where
  topLeft : r.colors.topLeft = r'.colors.topLeft
  bottomRight : r.colors.bottomRight = r'.colors.bottomRight
  others : r.indices.borderCornerMode = false →
    r.colors.topRight = r'.colors.topRight ∧ r.colors.bottomLeft = r'.colors.bottomLeft

/-- The part of an auxiliary word that a gradient is packed in. -/
def SameAux (word word' : UInt32) : Prop := word &&& 0xff = word' &&& 0xff

namespace Pass

/-- Records that agree in all that a pass reads. -/
def SameRecord (pass : Pass) (r r' : InstanceRecord) : Prop :=
  r.rect = r'.rect ∧
    match pass with
    | .color => r.misc = r'.misc ∧ r.SameColors r'
    | .text .. => r.misc = r'.misc ∧ r.SameColors r' ∧ r.maskUvs = r'.maskUvs
    | .gradient .. => r.misc.SameIndices r'.misc ∧ r.border = r'.border ∧ SameAux r.aux r'.aux

/-- Varyings that agree in all that a pass reads. -/
def SameVaryings (pass : Pass) (v v' : Varyings) : Prop :=
  v.worldPosition = v'.worldPosition ∧
    match pass with
    | .color => v.color = v'.color
    | .text .. => v.color = v'.color ∧ v.maskUv = v'.maskUv
    | .gradient .. => v.localPosition = v'.localPosition

/-- Flat varyings that agree in all that a pass reads. -/
def SameFlat (pass : Pass) (flat flat' : FlatVaryings) : Prop :=
  (flat.clipIn = flat'.clipIn ∧ flat.clipOut = flat'.clipOut) ∧
    match pass with
    | .color | .text .. => True
    | .gradient .. => flat.tile = flat'.tile ∧ flat.border = flat'.border ∧ SameAux flat.aux flat'.aux

/-- Vertices at the same place that agree in all that a pass reads. -/
def SameVertex (pass : Pass) (v v' : Vertex) : Prop :=
  v.clipPosition = v'.clipPosition ∧ pass.SameVaryings v.varyings v'.varyings

/-- Fragments of the same pixel that agree in all that a pass reads. -/
def SameFragment (pass : Pass) (f f' : Fragment) : Prop :=
  (f.x = f'.x ∧ f.y = f'.y ∧ f.coord = f'.coord) ∧ pass.SameVaryings f.varyings f'.varyings

end Pass

/-! ## One fragment -/

section Fragment
variable {pass : Pass}

theorem Varyings.interpolate_same {a b c a' b' c' : Varyings} (ha : pass.SameVaryings a a')
    (hb : pass.SameVaryings b b') (hc : pass.SameVaryings c c') (w : Weights) :
    pass.SameVaryings (interpolate a b c w) (interpolate a' b' c' w) := by
  obtain ⟨hwa, ha⟩ := ha
  obtain ⟨hwb, hb⟩ := hb
  obtain ⟨hwc, hc⟩ := hc
  refine ⟨by simp only [interpolate, hwa, hwb, hwc], ?_⟩
  cases pass with
  | color => simp only [interpolate, ha, hb, hc]
  | text mask sampler => simp only [interpolate, ha.1, ha.2, hb.1, hb.2, hc.1, hc.2, and_self]
  | gradient ramps dithering => simp only [interpolate, ha, hb, hc]

theorem SameAux.decode {word word' : UInt32} (h : SameAux word word') :
    GradientAux.decode word = GradientAux.decode word' := by
  have hmask (mask : UInt32) (hm : 0xff &&& mask = mask) : word &&& mask = word' &&& mask := by
    rw [← hm, ← UInt32.and_assoc, ← UInt32.and_assoc, h]
  unfold GradientAux.decode low7
  rw [hmask 0x7f rfl, hmask GradientAux.periodicBit rfl]

theorem Pass.SameFlat.ofFlat {ramps : GradientRamps} {dithering : Bool} {flat flat' : FlatVaryings}
    (h : (Pass.gradient ramps dithering).SameFlat flat flat') :
    GradientField.ofFlat flat = GradientField.ofFlat flat' := by
  obtain ⟨-, htile, hborder, haux⟩ := h
  simp only [GradientField.ofFlat, htile, hborder, haux.decode]

theorem Pass.validate_same {flat flat' : FlatVaryings} (h : pass.SameFlat flat flat') :
    pass.validate flat = pass.validate flat' := by
  cases pass with
  | color => rfl
  | text mask sampler => rfl
  | gradient ramps dithering => simp only [validate, h.2.2.2.decode]

theorem Pass.shade_same {v v' : Varyings} {flat flat' : FlatVaryings} (hv : pass.SameVaryings v v')
    (hflat : pass.SameFlat flat flat') (coord : Vec2) :
    pass.shade ⟨coord, v, flat⟩ = pass.shade ⟨coord, v', flat'⟩ := by
  have hmask : FragmentInput.clipMask ⟨coord, v, flat⟩ = FragmentInput.clipMask ⟨coord, v', flat'⟩ := by
    simp only [FragmentInput.clipMask, hv.1, hflat.1.1, hflat.1.2]
  obtain ⟨-, hv⟩ := hv
  cases pass with
  | color => simp only [shade, hmask, hv]
  | text mask sampler => simp only [shade, hmask, hv.1, hv.2]
  | gradient ramps dithering => simp only [shade, hmask, hv, hflat.ofFlat]

end Fragment

/-! ## Triangles -/

section Triangle
variable {pass : Pass}

/-- Triangles of the same shape that agree in all that a pass reads. -/
structure Pass.SameTriangle (pass : Pass) (t t' : Triangle) : Prop where
  a : t.a.position = t'.a.position ∧ pass.SameVaryings t.a.varyings t'.a.varyings
  b : t.b.position = t'.b.position ∧ pass.SameVaryings t.b.varyings t'.b.varyings
  c : t.c.position = t'.c.position ∧ pass.SameVaryings t.c.varyings t'.c.varyings
  area : t.area = t'.area

theorem Pass.SameTriangle.box?_eq {t t' : Triangle} (h : pass.SameTriangle t t')
    (width height : Float32) : t.box? width height = t'.box? width height := by
  simp only [Triangle.box?, h.a.1, h.b.1, h.c.1]

theorem Pass.SameTriangle.fragmentAt {t t' : Triangle} (h : pass.SameTriangle t t') (x y : Nat) :
    Option.Rel pass.SameFragment (t.fragmentAt x y) (t'.fragmentAt x y) := by
  have hweights : t.weightsAt? (pixelCentre x y) = t'.weightsAt? (pixelCentre x y) := by
    simp only [Triangle.weightsAt?, h.a.1, h.b.1, h.c.1, h.area]
  simp only [Triangle.fragmentAt, hweights]
  cases t'.weightsAt? (pixelCentre x y) with
  | none => exact .none
  | some w => exact .some ⟨⟨rfl, rfl, rfl⟩, Varyings.interpolate_same h.a.2 h.b.2 h.c.2 w⟩

theorem Triangle.wind?_same {a b c a' b' c' : PlacedVertex}
    (ha : a.position = a'.position ∧ pass.SameVaryings a.varyings a'.varyings)
    (hb : b.position = b'.position ∧ pass.SameVaryings b.varyings b'.varyings)
    (hc : c.position = c'.position ∧ pass.SameVaryings c.varyings c'.varyings) :
    Option.Rel pass.SameTriangle (wind? a b c) (wind? a' b' c') := by
  simp only [wind?, ha.1, hb.1, hc.1]
  split
  · exact .none
  · split
    · exact .some ⟨ha, hc, hb, rfl⟩
    · exact .some ⟨ha, hb, hc, rfl⟩

theorem triangleFragmentAt_same {a b c a' b' c' : Vertex} (ha : pass.SameVertex a a')
    (hb : pass.SameVertex b b') (hc : pass.SameVertex c c') (width height : UInt32) (x y : Nat) :
    Option.Rel pass.SameFragment (triangleFragmentAt a b c width height x y)
      (triangleFragmentAt a' b' c' width height x y) := by
  have hplace {v v' : Vertex} (hv : pass.SameVertex v v') :
      (v.place width.toFloat32 height.toFloat32).position =
          (v'.place width.toFloat32 height.toFloat32).position ∧
        pass.SameVaryings v.varyings v'.varyings :=
    ⟨congrArg (toPixels · width.toFloat32 height.toFloat32) hv.1, hv.2⟩
  have hwind := Triangle.wind?_same (hplace ha) (hplace hb) (hplace hc)
  simp only [triangleFragmentAt, Option.bind_eq_bind]
  generalize Triangle.wind? (a.place width.toFloat32 height.toFloat32)
    (b.place width.toFloat32 height.toFloat32) (c.place width.toFloat32 height.toFloat32) = o at hwind
  generalize Triangle.wind? (a'.place width.toFloat32 height.toFloat32)
    (b'.place width.toFloat32 height.toFloat32) (c'.place width.toFloat32 height.toFloat32) = o' at hwind
  cases hwind with
  | none => exact .none
  | @some t t' ht =>
    simp only [Option.bind_some, ht.box?_eq]
    cases t'.box? width.toFloat32 height.toFloat32 with
    | none => exact .none
    | some box =>
      rw [Option.bind_some, Option.bind_some]
      split
      · exact ht.fragmentAt x y
      · exact .none

end Triangle

/-! ## Instances -/

/-- Instances that agree in all that a pass reads. -/
structure Pass.SameInstance (pass : Pass) (i i' : ResolvedInstance) : Prop where
  record : pass.SameRecord i.record i'.record
  indices : i.indices = i.record.indices ∧ i'.indices = i'.record.indices
  transform : i.transform = i'.transform
  flat : pass.SameFlat i.flat i'.flat

namespace Pass
variable {pass : Pass} {i i' : ResolvedInstance}

theorem vertexColor_same (h : i.record.SameColors i'.record) (hmisc : i.record.misc = i'.record.misc)
    (hi : i.indices = i.record.indices) (hi' : i'.indices = i'.record.indices) (corner : Corner)
    (half : Half) : i.vertexColor corner half = i'.vertexColor corner half := by
  have hmode : i'.indices = i.indices := by
    rw [hi, hi', InstanceRecord.indices, InstanceRecord.indices, hmisc]
  rw [ResolvedInstance.vertexColor, ResolvedInstance.vertexColor, hmode]
  split
  · cases half
    · exact h.topLeft
    · exact h.bottomRight
  · next hplain =>
    rw [hi, Bool.not_eq_true] at hplain
    obtain ⟨htr, hbl⟩ := h.others hplain
    cases corner
    · exact h.topLeft
    · exact htr
    · exact h.bottomRight
    · exact hbl

theorem vertex_same (h : pass.SameInstance i i') (corner : Corner) (half : Half)
    (frame : FrameUniforms) :
    pass.SameVertex (i.vertex corner half frame) (i'.vertex corner half frame) := by
  obtain ⟨⟨hrect, hrecord⟩, ⟨hi, hi'⟩, htransform, -⟩ := h
  refine ⟨by simp only [ResolvedInstance.vertex, hrect, htransform],
    by simp only [ResolvedInstance.vertex, hrect, htransform], ?_⟩
  cases pass with
  | color => exact vertexColor_same hrecord.2 hrecord.1 hi hi' corner half
  | text mask sampler =>
    obtain ⟨hmisc, hcolors, huvs⟩ := hrecord
    exact ⟨vertexColor_same hcolors hmisc hi hi' corner half,
      congrArg (PerCorner.get · corner) huvs⟩
  | gradient ramps dithering => simp only [ResolvedInstance.vertex, hrect]

/-- Instances that are the same to a pass have the same fragments to it. -/
theorem fragments_same (h : pass.SameInstance i i') (frame : FrameUniforms) (width height : UInt32) :
    List.Forall₂ pass.SameFragment (i.fragments frame width height)
      (i'.fragments frame width height) := by
  have hhalf (half : Half) (x y : Nat) : Option.Rel pass.SameFragment
      (i.fragmentAt half frame width height x y) (i'.fragmentAt half frame width height x y) :=
    triangleFragmentAt_same (vertex_same h _ half frame) (vertex_same h _ half frame)
      (vertex_same h _ half frame) width height x y
  have hpixels (half : Half) : List.Forall₂ pass.SameFragment
      ((targetBox width height).pixels.filterMap fun p =>
        i.fragmentAt half frame width height p.1 p.2)
      ((targetBox width height).pixels.filterMap fun p =>
        i'.fragmentAt half frame width height p.1 p.2) := by
    refine List.rel_filterMap (R := Eq) ?_ (List.forall₂_refl _)
    rintro p _ rfl
    exact hhalf half p.1 p.2
  rw [i.fragments_eq, i'.fragments_eq]
  simp only [List.flatMap_cons, List.flatMap_nil, List.append_nil]
  exact List.rel_append (hpixels .topLeft) (hpixels .bottomRight)

end Pass

/-! ## Records -/

namespace DrawSettings
variable {s : DrawSettings} {record record' : InstanceRecord}

/-- Records that are the same to a pass address the same entries. -/
theorem indices_same {pass : Pass} (h : pass.SameRecord record record') :
    record'.indices =
      { record.indices with borderCornerMode := record'.indices.borderCornerMode } := by
  obtain ⟨-, h⟩ := h
  cases pass with
  | color => rw [InstanceRecord.indices, InstanceRecord.indices, h.1]
  | text mask sampler => rw [InstanceRecord.indices, InstanceRecord.indices, h.1]
  | gradient ramps dithering => exact h.1.unpack

theorem withEntries_same {pass : Pass} (h : pass.SameRecord record record') (transform : Mat4)
    (clipIn clipOut : ClipRect) (tile : TileParams) :
    pass.SameInstance (record.withEntries transform clipIn clipOut tile)
      (record'.withEntries transform clipIn clipOut tile) where
  record := h
  indices := ⟨rfl, rfl⟩
  transform := rfl
  flat := by
    refine ⟨⟨rfl, rfl⟩, ?_⟩
    cases pass with
    | color => trivial
    | text mask sampler => trivial
    | gradient ramps dithering => exact ⟨rfl, h.2.2.1, h.2.2.2⟩

/-- The table entries at the given indices, or the first miss. -/
def lookup (tables : UniformTables) (m : MiscIndices) :
    Except OutOfRange (Mat4 × ClipRect × ClipRect × TileParams) := do
  let transform ← tables.transforms.get m.transform
  let clipIn ← tables.clipRects.get m.clipIn
  let clipOut ← tables.clipRects.get m.clipOut
  let tile ← tables.tileParams.get m.tile
  return (transform, clipIn, clipOut, tile)

theorem resolve_eq (record : InstanceRecord) (tables : UniformTables) :
    record.resolve tables = (lookup tables record.indices).map fun (transform, clipIn, clipOut, tile) =>
      record.withEntries transform clipIn clipOut tile := by
  unfold InstanceRecord.resolve lookup
  dsimp only
  cases tables.transforms.get record.indices.transform with
  | error e => rfl
  | ok transform =>
    cases tables.clipRects.get record.indices.clipIn with
    | error e => rfl
    | ok clipIn =>
      cases tables.clipRects.get record.indices.clipOut with
      | error e => rfl
      | ok clipOut => cases tables.tileParams.get record.indices.tile <;> rfl

/-- Records that are the same to a pass resolve alike. -/
theorem resolve_same {pass : Pass} (h : pass.SameRecord record record') (tables : UniformTables) :
    (∃ e, record.resolve tables = .error e ∧ record'.resolve tables = .error e) ∨
      ∃ i i', record.resolve tables = .ok i ∧ record'.resolve tables = .ok i' ∧
        pass.SameInstance i i' := by
  have hlookup : lookup tables record'.indices = lookup tables record.indices := by
    rw [indices_same h]
    rfl
  rw [resolve_eq, resolve_eq, hlookup]
  cases lookup tables record.indices with
  | error e => exact .inl ⟨e, rfl, rfl⟩
  | ok entries => exact .inr ⟨_, _, rfl, rfl, withEntries_same h ..⟩

/-- Records that are the same to the pass are skipped for the same reason, or drawn alike. -/
theorem accept_same (h : s.pass.SameRecord record record') :
    (∃ reason, s.accept record = .error reason ∧ s.accept record' = .error reason) ∨
      ∃ i i', s.accept record = .ok i ∧ s.accept record' = .ok i' ∧ s.pass.SameInstance i i' := by
  rcases resolve_same h s.tables with ⟨e, he, he'⟩ | ⟨i, i', hi, hi', hsame⟩
  · exact .inl ⟨.unresolved e, by rw [accept, he]; rfl, by rw [accept, he']; rfl⟩
  · have hval := Pass.validate_same hsame.flat
    cases hok : s.pass.validate i.flat with
    | error e =>
      refine .inl ⟨.rejected s.pass.name e, ?_, ?_⟩
      · simp [accept, hi, hok, Except.mapError, bind, Except.bind]
      · simp [accept, hi', ← hval, hok, Except.mapError, bind, Except.bind]
    | ok u =>
      exact .inr ⟨i, i', accept_eq_ok_iff.mpr ⟨hi, hok⟩, accept_eq_ok_iff.mpr ⟨hi', hval ▸ hok⟩, hsame⟩

/-! ## Draws -/

/-- The pass makes the same of fragments that are the same to it. -/
theorem outcome_same {flat flat' : FlatVaryings} {f f' : Fragment}
    (hflat : s.pass.SameFlat flat flat') (h : s.pass.SameFragment f f') :
    s.outcome flat f = s.outcome flat' f' := by
  have hshade := Pass.shade_same h.2 hflat f'.coord
  unfold outcome
  rwa [h.1.2.2]

/-- The same fragments give the same blends and the same counts. -/
theorem shadeAll_same {flat flat' : FlatVaryings} {fragments fragments' : List Fragment}
    (hflat : s.pass.SameFlat flat flat')
    (h : List.Forall₂ s.pass.SameFragment fragments fragments') (t : Target) (mode : BlendMode) :
    t.blendAll mode (s.shadeAll flat fragments) = t.blendAll mode (s.shadeAll flat' fragments') ∧
      (s.shadeAll flat fragments).length = (s.shadeAll flat' fragments').length := by
  induction h generalizing t with
  | nil => simp only [shadeAll, List.filterMap_nil, and_self]
  | @cons f f' rest rest' hf _ ih =>
    rw [shadeAll_cons, shadeAll_cons, outcome_same hflat hf]
    cases s.outcome flat' f' with
    | none =>
      simp only [Option.map_none, Option.toList_none, List.nil_append]
      exact ih t
    | some color =>
      obtain ⟨htarget, hlength⟩ := ih (t.blendPixel f'.x f'.y color mode)
      simp only [Option.map_some, Option.toList_some, List.singleton_append, Target.blendAll_cons,
        List.length_cons, hf.1.1, hf.1.2.1, htarget, hlength, and_self]

theorem drawInstance_same {i i' : ResolvedInstance} (h : s.pass.SameInstance i i') (d : Drawing) :
    s.drawInstance d i = s.drawInstance d i' := by
  have hfragments := Pass.fragments_same h s.frame d.target.width d.target.height
  obtain ⟨htarget, hlength⟩ := shadeAll_same h.flat hfragments d.target s.blend
  unfold Target.blendAll at htarget
  simp only [drawInstance, htarget, hlength, hfragments.length_eq]

theorem drawRecord_same (h : s.pass.SameRecord record record') (d : Drawing) (index : Nat) :
    s.drawRecord d index record = s.drawRecord d index record' := by
  unfold drawRecord
  rcases accept_same h with ⟨reason, he, he'⟩ | ⟨i, i', hi, hi', hsame⟩
  · rw [he, he']
  · rw [hi, hi']
    exact drawInstance_same hsame d

theorem drawFrom_same {xs ys : List InstanceRecord} (h : List.Forall₂ s.pass.SameRecord xs ys)
    (d : Drawing) (index : Nat) : s.drawFrom d index xs = s.drawFrom d index ys := by
  induction h generalizing d index with
  | nil => rfl
  | cons hrecord _ ih => rw [drawFrom, drawFrom, drawRecord_same hrecord, ih]

/-- Records that agree one by one in what the pass reads give the same draw:
the same target, the same counters and the same warnings. -/
theorem draw_same {s : DrawSettings} {xs ys : List InstanceRecord}
    (h : List.Forall₂ s.pass.SameRecord xs ys) (t : Target) : s.draw t xs = s.draw t ys := by
  rw [draw, draw, drawFrom_same h]

/-- A quad in border-corner mode. -/
def cornerQuad : InstanceRecord :=
  ((InstanceRecord.ofRect InstanceRecord.unitSquare).setColor Color.white).setMisc { borderCornerMode := true }

/-- The quad with all that the colour pass does not read set to something else. -/
def cornerQuadVariant : InstanceRecord where
  rect := cornerQuad.rect
  misc := cornerQuad.misc
  colors := ⟨Color.white, Color.red, Color.white, Color.black⟩
  colorUvs := .const ⟨2.0, 3.0⟩
  maskUvs := .const ⟨4.0, 5.0⟩
  border := Rect.ofXYWH 1.0 2.0 3.0 4.0
  borderRadii := CornerRadii.all 5.0
  sourceSize := ⟨6.0, 7.0⟩
  targetSize := ⟨8.0, 9.0⟩
  blurRadius := 10.0
  aux := 0xffffffff

theorem draw_cornerQuadVariant :
    List.Forall₂ onePixel.pass.SameRecord [cornerQuad, cornerQuad] [cornerQuadVariant, cornerQuad] ∧
      onePixel.draw (Target.new 1 1) [cornerQuad, cornerQuad] =
        onePixel.draw (Target.new 1 1) [cornerQuadVariant, cornerQuad] := by
  have hmode : cornerQuad.indices.borderCornerMode = true := by decide +kernel
  have hcolors : cornerQuad.SameColors cornerQuadVariant :=
    ⟨rfl, rfl, fun hplain => nomatch hmode.symm.trans hplain⟩
  have hsame : List.Forall₂ onePixel.pass.SameRecord [cornerQuad, cornerQuad]
      [cornerQuadVariant, cornerQuad] :=
    .cons ⟨rfl, rfl, hcolors⟩ (.cons ⟨rfl, rfl, ⟨rfl, rfl, fun _ => ⟨rfl, rfl⟩⟩⟩ .nil)
  exact ⟨hsame, draw_same hsame _⟩

end DrawSettings

end TileCompositor
