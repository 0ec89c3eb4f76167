import TileCompositor.Proofs.Coverage.Runs
import TileCompositor.Proofs.Gradient.RoundTrip
import TileCompositor.Scene.Builder
/-!
# What is drawn of a scene

A record is drawn if its four indices are in range and, in a batch of
gradients, its ramp is in the store of the scene. None of this depends on the
settings of the drawing or on its target, and a scene all of whose records are
of this kind is drawn without a gap.

Results:
* `Serves.accepted`: a record that the scene serves is accepted by its pass.
* `stats_drawBatches`: the counters of every batch.
* `Complete.render`: the counters of the whole scene.
-/
namespace TileCompositor.Scene

variable {scene : Scene} {pass : PassKind} {record : InstanceRecord} {records : List InstanceRecord}

/-- The scene has everything that a record of a batch refers to. -/
structure Serves (scene : Scene) (pass : PassKind) (record : InstanceRecord) : Prop where
  inRange : record.indices.InRange scene.tables
  row : pass = .gradient → (GradientAux.decode record.aux).rampRow.toNat < scene.ramps.rows.size

/-- The scene has everything that its records refer to. -/
def Complete (scene : Scene) : Prop :=
  ∀ batch ∈ scene.batches, ∀ record ∈ batch.records, scene.Serves batch.pass record

/-! ## Records -/

/-- The record resolves, and the pass of its batch accepts what it resolves to. -/
theorem Serves.accepted (h : scene.Serves pass record) :
    ∃ i, record.resolve scene.tables = .ok i ∧
      ∀ config, (scene.passOf config pass).validate i.flat = .ok () := by
  have hfound : ¬ record.MissesTable scene.tables := by
    obtain ⟨ht, hin, hout, htile⟩ := h.inRange
    unfold InstanceRecord.MissesTable
    omega
  obtain ⟨i, hi⟩ := InstanceRecord.exists_resolve hfound
  refine ⟨i, hi, ?_⟩
  intro config
  obtain ⟨_, _, _, _, -, -, -, -, rfl⟩ := InstanceRecord.resolve_eq_ok_iff.mp hi
  cases pass with
  | color | text => rfl
  | gradient =>
    have hrow := h.row rfl
    simp only [passOf, Pass.validate, InstanceRecord.withEntries, GradientRamps.row,
      Array.getElem?_eq_getElem hrow]
    rfl

/-- It is not skipped, on whatever target. -/
theorem Serves.not_skips (h : scene.Serves pass record) (config : PipelineConfig) (v : Viewport)
    (blend : BlendMode) : ¬ (scene.settings config v blend pass).Skips record := by
  obtain ⟨i, hi, hval⟩ := h.accepted
  rintro (hmiss | ⟨j, e, hj, he⟩)
  · obtain ⟨e, he⟩ := InstanceRecord.resolve_eq_error_iff.mpr hmiss
    exact nomatch hi.symm.trans he
  · obtain rfl : i = j := Except.ok.inj (hi.symm.trans hj)
    exact nomatch (hval config).symm.trans he

/-! ## Batches -/

theorem stats_draw_of_serves (h : ∀ record ∈ records, scene.Serves pass record)
    (config : PipelineConfig) (v : Viewport) (blend : BlendMode) (target : Target) :
    ((scene.settings config v blend pass).draw target records).stats.drawn = records.length ∧
      ((scene.settings config v blend pass).draw target records).stats.skipped = 0 := by
  have hnone : (records.countP fun record => (scene.settings config v blend pass).Skips record) = 0 := by
    rw [List.countP_eq_zero]
    intro record hrecord
    simpa using (h record hrecord).not_skips config v blend
  have htotal := DrawSettings.length_instances_add_countP (scene.settings config v blend pass) records
  rw [DrawSettings.counts_draw]
  exact ⟨by rw [hnone] at htotal; exact htotal, hnone⟩

/-- In every batch all records are drawn. -/
theorem stats_drawBatches {batches : List Batch}
    (h : ∀ batch ∈ batches, ∀ record ∈ batch.records, scene.Serves batch.pass record)
    (config : PipelineConfig) (blend : BlendMode) (target : Target) :
    ((scene.drawBatches config blend target batches).2.map fun d => d.stats.drawn) =
        batches.map (fun batch => batch.records.length) ∧
      ∀ d ∈ (scene.drawBatches config blend target batches).2, d.stats.skipped = 0 := by
  induction batches generalizing target with
  | nil => exact ⟨rfl, nofun⟩
  | cons batch rest ih =>
    obtain ⟨hbatch, hrest⟩ := List.forall_mem_cons.mp h
    obtain ⟨hdrawn, hskipped⟩ := stats_draw_of_serves hbatch config target.viewport blend target
    obtain ⟨hlater, hnone⟩ := ih hrest
      ((scene.settings config target.viewport blend batch.pass).draw target batch.records).target
    constructor
    · rw [List.map_cons, ← hlater, ← hdrawn]
      rfl
    · exact List.forall_mem_cons.mpr ⟨hskipped, hnone⟩

/-! ## The scene -/

theorem foldl_stats (drawings : List Drawing) (total : DrawStats) :
    (drawings.foldl (fun total d => total + d.stats) total).drawn =
        total.drawn + (drawings.map fun d => d.stats.drawn).sum ∧
      (drawings.foldl (fun total d => total + d.stats) total).skipped =
        total.skipped + (drawings.map fun d => d.stats.skipped).sum := by
  induction drawings generalizing total with
  | nil => exact ⟨rfl, rfl⟩
  | cons d rest ih =>
    obtain ⟨hdrawn, hskipped⟩ := ih (total + d.stats)
    rw [List.foldl_cons, hdrawn, hskipped, List.map_cons, List.map_cons, List.sum_cons, List.sum_cons]
    exact ⟨Nat.add_assoc _ _ _, Nat.add_assoc _ _ _⟩

/-- A complete scene is drawn completely. -/
theorem Complete.render (h : scene.Complete) (config : PipelineConfig) (target : Target)
    (blend : BlendMode) :
    (scene.render config target blend).2.skipped = 0 ∧
      (scene.render config target blend).2.drawn =
        (scene.batches.map fun batch => batch.records.length).sum := by
  obtain ⟨hdrawn, hskipped⟩ := stats_drawBatches h config blend target
  obtain ⟨htotal, hgaps⟩ := foldl_stats (scene.drawBatches config blend target scene.batches).2 {}
  constructor
  · refine hgaps.trans ?_
    have hnone : ∀ n ∈ (scene.drawBatches config blend target scene.batches).2.map
        (fun d => d.stats.skipped), n = 0 := List.forall_mem_map.mpr hskipped
    rw [List.sum_eq_zero hnone]
    rfl
  · refine htotal.trans ?_
    rw [hdrawn]
    exact Nat.zero_add _

/-- A batch takes nothing away from what the scene has. -/
theorem Serves.addBatch (h : scene.Serves pass record) (pass' : PassKind)
    (records : List InstanceRecord) : (scene.addBatch pass' records).Serves pass record :=
  ⟨h.inRange, h.row⟩

/-- A batch of records that the scene serves keeps it complete. -/
theorem Complete.addBatch (h : scene.Complete) (hrecords : ∀ record ∈ records, scene.Serves pass record) :
    (scene.addBatch pass records).Complete := by
  intro batch hbatch record hrecord
  obtain hold | hnew := List.mem_append.mp hbatch
  · exact (h batch hold record hrecord).addBatch pass records
  · obtain rfl := List.mem_singleton.mp hnew
    exact (hrecords record hrecord).addBatch pass records

end TileCompositor.Scene
