import TileCompositor.Proofs.Scene.Rendering
import TileCompositor.Proofs.Scene.Steps
import TileCompositor.Proofs.Texture.Centres
import TileCompositor.Scene.Demo
/-!
# The demo scenes are complete

Each demo scene starts from four table entries and adds some of its own, so
the sizes that it needs are known beforehand. If the configured sizes reach,
the scene is built, however large the viewport, and all its records refer to
entries that were added for them.

Results:
* `build_succeeds`: when a scene is built.
* `build_renders_completely`: and that all of it is drawn.
-/
namespace TileCompositor.Demo
open Scene (Usage Stocked Complete)

/-! ## Indices that were handed out -/

/-- The indices of the four entries that a scene starts with. -/
structure FirstEntries (base : MiscIndices) : Prop where
  transform : base.transform.toNat = 0
  clipIn : base.clipIn.toNat = 0
  clipOut : base.clipOut.toNat = 1
  tile : base.tile.toNat = 0

/-- Every index addresses one of the entries in use. -/
structure Reaches (used : Usage) (m : MiscIndices) : Prop where
  transform : m.transform.toNat < used.transforms
  clipIn : m.clipIn.toNat < used.clipRects
  clipOut : m.clipOut.toNat < used.clipRects
  tile : m.tile.toNat < used.tileParams

variable {scene : Scene} {config : PipelineConfig} {used : Usage} {base m : MiscIndices}
  {record : InstanceRecord}

/-- Such indices come back from a record, and lead to entries. -/
theorem inRange_of_reaches (h : scene.Stocked config used) (hm : Reaches used m)
    (hrecord : record.misc = m.pack) : record.indices.InRange scene.tables := by
  obtain ⟨htransform, hclipIn, hclipOut, htile⟩ := hm
  obtain ⟨hcap1, hcap2, hcap3⟩ := h.packable
  have hle1 := h.transforms.le
  have hle2 := h.clipRects.le
  have hle3 := h.tileParams.le
  have hl1 := h.transforms.length_eq
  have hl2 := h.clipRects.length_eq
  have hl3 := h.tileParams.length_eq
  have hpack : m.Packable := by constructor <;> omega
  rw [InstanceRecord.indices, hrecord, MiscIndices.unpack_pack hpack]
  constructor <;> omega

theorem complete_of_stocked (h : scene.Stocked config used) : scene.Complete := by
  intro batch hbatch
  rw [h.batches_eq] at hbatch
  cases hbatch

/-- A record of another pass than the gradients' needs nothing but its entries. -/
theorem serves_of_reaches {pass : PassKind} (h : scene.Stocked config used) (hm : Reaches used m)
    (hrecord : record.misc = m.pack) (hpass : pass ≠ .gradient) : scene.Serves pass record :=
  ⟨inRange_of_reaches h hm hrecord, fun hp => absurd hp hpass⟩

/-- The record of a gradient needs its row as well. -/
theorem serves_linearGradient (h : scene.Stocked config used) (hm : Reaches used m) (rect : Rect)
    (g : LinearGradient) {row : UInt32} (hrow : row.toNat < used.rows)
    (hrows : used.rows ≤ GradientRamps.addressable) :
    scene.Serves .gradient (linearGradientInstance rect g row m) := by
  refine ⟨inRange_of_reaches h hm rfl, fun _ => ?_⟩
  have haux : (linearGradientInstance rect g row m).aux = GradientAux.encode ⟨row, g.extend⟩ := rfl
  have hseven : row.toNat < 128 := Nat.lt_of_lt_of_le hrow hrows
  rw [haux, GradientAux.decode_encode, low7_of_lt hseven, h.rows_eq]
  exact hrow

theorem FirstEntries.reaches (h : FirstEntries base) (htransforms : 1 ≤ used.transforms)
    (hclips : 2 ≤ used.clipRects) (htiles : 1 ≤ used.tileParams) : Reaches used base := by
  obtain ⟨htransform, hclipIn, hclipOut, htile⟩ := h
  constructor <;> omega

/-- All scenes but the first begin with a batch of the background alone. -/
theorem complete_background (h : scene.Stocked config used) (hm : Reaches used base) (v : Viewport) :
    (scene.addBatch .color [background base v]).Complete := by
  refine (complete_of_stocked h).addBatch ?_
  intro record hrecord
  obtain rfl := List.mem_singleton.mp hrecord
  exact serves_of_reaches h hm rfl nofun

/-! ## The four scenes -/

theorem complete_solid (h : scene.Stocked config used) (hm : Reaches used base) (v : Viewport) :
    (solid scene base v).Complete := by
  refine (complete_of_stocked h).addBatch ?_
  intro record hrecord
  refine serves_of_reaches h hm ?_ nofun
  simp only [List.mem_cons, List.not_mem_nil, or_false] at hrecord
  obtain rfl | rfl | rfl | rfl | rfl := hrecord <;> rfl

/-- Two rows and a second tile. -/
theorem gradient_succeeds (h : scene.Stocked config ⟨1, 2, 1, 0⟩) (hbase : FirstEntries base)
    (v : Viewport) (extend : Extend) :
    Succeeds (0 < min config.rampRows GradientRamps.addressable ∧
        1 < min config.rampRows GradientRamps.addressable ∧ 1 < config.limits.tileParams ∧ True)
      Complete (gradient scene base v extend) := by
  have hsunset : checkStops [⟨0.0, rgba 255 200 80 255⟩, ⟨0.5, rgba 230 70 90 255⟩,
      ⟨1.0, rgba 60 40 120 255⟩] = .ok () := by decide +kernel
  have hmono : checkStops [⟨0.0, Color.white⟩, ⟨1.0, Color.black⟩] = .ok () := by decide +kernel
  refine .bind (h.bakeRamp hsunset) ?_
  rintro ⟨sunsetRow, scene⟩ ⟨hsunsetRow, h⟩
  refine .bind (h.bakeRamp hmono) ?_
  rintro ⟨monoRow, scene⟩ ⟨hmonoRow, h⟩
  refine .bind (h.pushTile _) ?_
  rintro ⟨tiled, scene⟩ ⟨htiled, h⟩
  have hreach : Reaches ⟨1, 2, 2, 2⟩ base := hbase.reaches (by decide) (by decide) (by decide)
  have htile : Reaches ⟨1, 2, 2, 2⟩ { base with tile := tiled } :=
    { hreach with tile := htiled.trans_lt (by decide) }
  refine .pure ((complete_background h hreach v).addBatch ?_)
  intro record hrecord
  refine Scene.Serves.addBatch ?_ .color _
  simp only [List.mem_cons, List.not_mem_nil, or_false] at hrecord
  obtain rfl | rfl := hrecord
  · refine serves_linearGradient h hreach _ _ ?_ (by decide)
    exact hsunsetRow.trans_lt (by decide)
  · refine serves_linearGradient h htile _ _ ?_ (by decide)
    exact hmonoRow.trans_lt (by decide)

/-- A transform for each glyph, as many as there is room for. -/
theorem glyphs_succeed (h : scene.Stocked config used) (hreach : Reaches used base) (v : Viewport)
    (size : Float32) (count : Nat) (numbers : List Nat)
    (hroom : used.transforms + numbers.length ≤ config.limits.transforms) :
    Succeeds True
      (fun result => result.2.Stocked config
          { used with transforms := used.transforms + numbers.length } ∧
        ∀ record ∈ result.1, ∃ m, record.misc = MiscIndices.pack m ∧
          Reaches { used with transforms := used.transforms + numbers.length } m)
      (glyphs scene base v size count numbers) := by
  induction numbers generalizing scene used with
  | nil => exact .pure ⟨h, nofun⟩
  | cons i rest ih =>
    rw [List.length_cons] at hroom
    -- there is room for all glyphs, so the push of none of them fails
    have hroom' : used.transforms < config.limits.transforms := by omega
    have hlength : used.transforms + 1 + rest.length = used.transforms + (rest.length + 1) := by omega
    refine Succeeds.congr (P := used.transforms < config.limits.transforms ∧ True ∧ True) ?_
      (by simp only [hroom', and_true])
    refine .bind (h.pushTransform _) ?_
    rintro ⟨transform, scene⟩ ⟨htransform, h⟩
    have hbase : Reaches { used with transforms := used.transforms + 1 } base :=
      { hreach with transform := Nat.lt_succ_of_lt hreach.transform }
    have hrest := ih h hbase (by simp only; omega)
    simp only [hlength] at hrest
    refine .bind hrest ?_
    rintro ⟨later, scene⟩ ⟨h, hlater⟩
    refine .pure ⟨h, List.forall_mem_cons.mpr ⟨⟨{ base with transform }, rfl, ?_⟩, hlater⟩⟩
    have hlast : transform.toNat < used.transforms + (rest.length + 1) :=
      htransform.trans_lt (by omega)
    exact { hreach with transform := hlast }

theorem text_succeeds (h : scene.Stocked config ⟨1, 2, 1, 0⟩) (hbase : FirstEntries base)
    (v : Viewport) : Succeeds True Complete (text scene base v) := by
  have hreach : Reaches ⟨1, 2, 1, 0⟩ base := hbase.reaches (by decide) (by decide) (by decide)
  have hroom (size : Float32) :
      1 + (List.range (glyphCount v size
        (scene.tables.transforms.capacity - scene.tables.transforms.length))).length ≤
          config.limits.transforms := by
    have hle := scene.tables.transforms.length_le_capacity
    have hlength : scene.tables.transforms.length = 1 := h.transforms.length_eq
    rw [List.length_range, glyphCount, ← h.transforms.capacity_eq]
    omega
  refine Succeeds.congr (P := True ∧ True) ?_ and_self_iff
  refine .bind (glyphs_succeed h hreach v _ _ _ (hroom _)) ?_
  rintro ⟨records, scene⟩ ⟨h, hrecords⟩
  have hbackground := complete_background h
    (hbase.reaches (Nat.le_add_right 1 _) (Nat.le_refl 2) (Nat.le_refl 1)) v
  refine .pure (hbackground.addBatch ?_)
  intro record hrecord
  obtain ⟨m, hm, hreached⟩ := hrecords record hrecord
  refine .addBatch ?_ .color _
  exact serves_of_reaches h hreached hm nofun

/-- Two more clip regions and a row. -/
theorem corners_succeeds (h : scene.Stocked config ⟨1, 2, 1, 0⟩) (hbase : FirstEntries base)
    (v : Viewport) :
    Succeeds (2 < config.limits.clipRects ∧ 3 < config.limits.clipRects ∧
        0 < min config.rampRows GradientRamps.addressable ∧ True)
      Complete (corners scene base v) := by
  have hstops : checkStops [⟨0.0, rgba 70 130 220 255⟩, ⟨1.0, rgba 70 130 220 255⟩] = .ok () := by
    decide +kernel
  refine .bind (h.pushClip _) ?_
  rintro ⟨roundedIn, scene⟩ ⟨hroundedIn, h⟩
  refine .bind (h.pushClip _) ?_
  rintro ⟨hole, scene⟩ ⟨hhole, h⟩
  refine .bind (h.bakeRamp hstops) ?_
  rintro ⟨row, scene⟩ ⟨hrow, h⟩
  have hreach : Reaches ⟨1, 4, 1, 1⟩ base := hbase.reaches (by decide) (by decide) (by decide)
  have hclipped (mode : Bool) :
      Reaches ⟨1, 4, 1, 1⟩
        { base with clipIn := roundedIn, clipOut := hole, borderCornerMode := mode } :=
    { hreach with
      clipIn := hroundedIn.trans_lt (by decide)
      clipOut := hhole.trans_lt (by decide) }
  refine .pure (((complete_background h hreach v).addBatch ?_).addBatch ?_)
  · intro record hrecord
    obtain rfl := List.mem_singleton.mp hrecord
    refine (serves_linearGradient h (hclipped _) _ _ ?_ (by decide)).addBatch .color _
    exact hrow.trans_lt (by decide)
  · intro record hrecord
    obtain rfl := List.mem_singleton.mp hrecord
    refine .addBatch (.addBatch ?_ .color _) .gradient _
    exact serves_of_reaches h (hclipped true) rfl nofun

/-! ## Building -/

/-- The numbers of entries that a scene needs. The transforms of glyphs do not
count, since there are as many glyphs as there is room for. -/
def required : SceneKind → Usage
  | .solid | .text => ⟨1, 2, 1, 0⟩
  | .gradient => ⟨1, 2, 2, 2⟩
  | .corners => ⟨1, 4, 1, 1⟩

/-- The configured sizes reach for the scene. -/
def Fits (kind : SceneKind) (config : PipelineConfig) : Prop :=
  2 ≤ config.rampWidth ∧
    (required kind).transforms ≤ config.limits.transforms ∧
    (required kind).clipRects ≤ config.limits.clipRects ∧
    (required kind).tileParams ≤ config.limits.tileParams ∧
    (required kind).rows ≤ min config.rampRows 128

instance (kind : SceneKind) (config : PipelineConfig) : Decidable (Fits kind config) :=
  inferInstanceAs (Decidable (_ ∧ _ ∧ _ ∧ _ ∧ _))

theorem ofConfig_succeeds (config : PipelineConfig) :
    Succeeds (2 ≤ config.rampWidth)
      (fun ramps => 2 ≤ config.rampWidth ∧ ramps.rows.size = 0 ∧
        ramps.maxRows = min config.rampRows GradientRamps.addressable)
      (GradientRamps.ofConfig config) := by
  unfold GradientRamps.ofConfig GradientRamps.new
  split
  · rename_i hwidth
    constructor
    · intro _
      exact ⟨_, rfl⟩
    · intro ramps hramps
      cases hramps
      exact ⟨hwidth, hwidth, rfl, rfl⟩
  · rename_i hwidth
    constructor
    · intro h
      exact absurd h hwidth
    · intro ramps hramps
      cases hramps

theorem exists_glyphMask {size : UInt32} (h : 0 < size.toNat) : ∃ mask, glyphMask size = .ok mask := by
  unfold glyphMask
  exact (AlphaTexture.exists_ofFn h h _).imp fun mask hmask => hmask.1

/-- What a scene adds to the four entries that it starts with. -/
theorem scene_succeeds (h : scene.Stocked config ⟨1, 2, 1, 0⟩) (hwidth : 2 ≤ config.rampWidth)
    (hbase : FirstEntries base) (kind : SceneKind) (v : Viewport) (extend : Extend) :
    Succeeds (Fits kind config) Complete
      (match kind with
        | .solid => return solid scene base v
        | .gradient => gradient scene base v extend
        | .text => text scene base v
        | .corners => corners scene base v) := by
  have htransforms : 1 ≤ config.limits.transforms := h.transforms.le
  have hclips : 2 ≤ config.limits.clipRects := h.clipRects.le
  have htiles : 1 ≤ config.limits.tileParams := h.tileParams.le
  have hreach : Reaches ⟨1, 2, 1, 0⟩ base := hbase.reaches (by decide) (by decide) (by decide)
  simp only [Fits]
  cases kind with
  | solid =>
    refine (Succeeds.pure (complete_solid h hreach v)).congr ?_
    simp only [required, true_iff]
    omega
  | gradient =>
    refine (gradient_succeeds h hbase v extend).congr ?_
    simp only [required, GradientRamps.addressable, and_true]
    omega
  | text =>
    refine (text_succeeds h hbase v).congr ?_
    simp only [required, true_iff]
    omega
  | corners =>
    refine (corners_succeeds h hbase v).congr ?_
    simp only [required, GradientRamps.addressable, and_true]
    omega

/-- A scene is built exactly if the configured sizes reach, and it is complete. -/
theorem build_succeeds (hlimits : config.limits.Packable) (kind : SceneKind) (v : Viewport)
    (periodic : Bool) :
    Succeeds (Fits kind config) Complete (build kind v config periodic) := by
  -- the conditions of the steps in their order, the last one that of the scene itself
  refine Succeeds.congr (P := 2 ≤ config.rampWidth ∧ True ∧ 0 < config.limits.transforms ∧
    0 < config.limits.clipRects ∧ 1 < config.limits.clipRects ∧ 0 < config.limits.tileParams ∧
    Fits kind config) ?_ ?_
  · refine .bind (ofConfig_succeeds config).mapError ?_
    rintro ramps ⟨hwidth, hrows, hmax⟩
    have hmask : Succeeds True (fun _ => True) (glyphMask 32) :=
      ⟨fun _ => exists_glyphMask (by decide), fun _ _ => ⟨trivial, trivial⟩⟩
    refine .bind hmask.mapError ?_
    intro mask _
    have h : Stocked config ⟨0, 0, 0, 0⟩
        { tables := UniformTables.empty config.limits, ramps, mask, batches := [] } :=
      ⟨hlimits, ⟨rfl, rfl⟩, ⟨rfl, rfl⟩, ⟨rfl, rfl⟩, hmax, hrows, rfl⟩
    refine .bind (h.pushTransform _) ?_
    rintro ⟨identity, scene⟩ ⟨hidentity, h⟩
    refine .bind (h.pushClip _) ?_
    rintro ⟨fullClip, scene⟩ ⟨hfullClip, h⟩
    refine .bind (h.pushClip _) ?_
    rintro ⟨noClip, scene⟩ ⟨hnoClip, h⟩
    refine .bind (h.pushTile _) ?_
    rintro ⟨singleTile, scene⟩ ⟨hsingleTile, h⟩
    exact scene_succeeds h hwidth ⟨hidentity, hfullClip, hnoClip, hsingleTile⟩ kind v _
  · simp only [Fits]
    cases kind <;> simp only [required, true_and] <;> omega

/-- A demo scene is built if and only if the configured sizes reach for it, and
what is built is drawn to the last record, whatever the settings of the drawing. -/
theorem build_renders_completely (kind : SceneKind) (v : Viewport) (config : PipelineConfig)
    (periodic : Bool) (hlimits : config.limits.Packable) :
    ((∃ scene, build kind v config periodic = .ok scene) ↔ Fits kind config) ∧
      ∀ scene, build kind v config periodic = .ok scene →
        (∀ batch ∈ scene.batches, ∀ record ∈ batch.records,
          ∃ i, record.resolve scene.tables = .ok i ∧
            ∀ settings, (scene.passOf settings batch.pass).validate i.flat = .ok ()) ∧
        ∀ settings target blend,
          (scene.render settings target blend).2.skipped = 0 ∧
            (scene.render settings target blend).2.drawn =
              (scene.batches.map fun batch => batch.records.length).sum := by
  have hbuild := build_succeeds hlimits kind v periodic
  refine ⟨hbuild.exists_ok_iff, ?_⟩
  intro scene hscene
  have hcomplete : scene.Complete := (hbuild.of_ok scene hscene).2
  constructor
  · intro batch hbatch record hrecord
    exact (hcomplete batch hbatch record hrecord).accepted
  · exact hcomplete.render

/-- The least sizes that the gradients need. -/
def leastForGradient : PipelineConfig where
  limits := ⟨1, 2, 2⟩
  rampWidth := 2
  rampRows := 2

/-- With them the gradients are built and drawn, and with a place less for
tiles they are not. -/
theorem leastForGradient_suffices :
    (∃ scene, build .gradient ⟨256.0, 256.0⟩ leastForGradient true = .ok scene ∧
      (scene.render { dithering := true } (Target.new 256 256)).2.skipped = 0) ∧
    ¬ ∃ scene, build .gradient ⟨256.0, 256.0⟩
      { leastForGradient with limits := ⟨1, 2, 1⟩ } true = .ok scene := by
  have hlimits : leastForGradient.limits.Packable := by constructor <;> decide
  have hfewer : (⟨1, 2, 1⟩ : TableLimits).Packable := by constructor <;> decide
  obtain ⟨hiff, hcomplete⟩ :=
    build_renders_completely .gradient ⟨256.0, 256.0⟩ leastForGradient true hlimits
  obtain ⟨hiff', -⟩ := build_renders_completely .gradient ⟨256.0, 256.0⟩
    { leastForGradient with limits := ⟨1, 2, 1⟩ } true hfewer
  constructor
  · obtain ⟨scene, hscene⟩ := hiff.mpr (by decide)
    exact ⟨scene, hscene, ((hcomplete scene hscene).2 _ _ _).1⟩
  · rw [hiff']
    decide

end TileCompositor.Demo
