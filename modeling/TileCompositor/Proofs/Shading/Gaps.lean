import TileCompositor.Proofs.Coverage.Runs
import TileCompositor.Proofs.Gradient.Sampling
import TileCompositor.Proofs.Shading.Clipping
/-!
# The gaps between tiles

The gradient pass discards a fragment where its field has no offset, which is in the gap between two
tiles, or where the ramp of the instance is missing. Whether the ramp is there was checked before the
instance was shaded, with the row that the fragments look up again, so the second never happens. The
noise of dithering is added to colours that are there already, so the same fragments are discarded
with it and without, and what a draw counts does not depend on it.

Results:
* `GradientField.offsetAt_eq_none_iff`: the gaps.
* `Pass.shade_gradient_eq_none_iff`: the fragments that are discarded.
* `DrawSettings.counts_congr`, `DrawSettings.skips_congr`: passes that differ in colours alone.
* `Pass.gradient_discards_gaps`: the pass and its draws.
-/
namespace TileCompositor

/-- A position is in a gap if, reduced to the period, it reaches the size of the tile on one of the
axes. A remainder that is NaN reaches no size. -/
theorem GradientField.offsetAt_eq_none_iff {g : GradientField} {p : Vec2} :
    g.offsetAt p = none ↔
      g.tile.size.x ≤ (p.euclidMod g.tile.period).x ∨ g.tile.size.y ≤ (p.euclidMod g.tile.period).y := by
  simp only [offsetAt, ite_eq_left_iff, reduceCtorEq, imp_false, not_not, Bool.or_eq_true, decide_eq_true_eq]

namespace Pass
variable {ramps : GradientRamps} {dithering : Bool} {f : FragmentInput}

/-- What is validated is that the row is there. -/
theorem validate_gradient_eq_ok_iff {flat : FlatVaryings} :
    (Pass.gradient ramps dithering).validate flat = .ok () ↔
      (GradientField.ofFlat flat).rampRow.toNat < ramps.rows.size := by
  have hrow : (GradientField.ofFlat flat).rampRow = (GradientAux.decode flat.aux).rampRow := rfl
  rw [← GradientRamps.exists_row_ok_iff, hrow, validate]
  cases ramps.row (GradientAux.decode flat.aux).rampRow with
  | error e =>
    refine iff_of_false (fun h => ?_) ?_
    · cases h
    · rintro ⟨row, hrow⟩
      cases hrow
  | ok row => exact iff_of_true rfl ⟨row, rfl⟩

/-- A fragment of an instance that was validated is discarded in a gap only. -/
theorem shade_gradient_eq_none_iff (h : (Pass.gradient ramps dithering).validate f.flat = .ok ()) :
    (Pass.gradient ramps dithering).shade f = none ↔
      (GradientField.ofFlat f.flat).offsetAt f.varyings.localPosition = none := by
  rw [shade_gradient, Option.map_eq_none_iff, unclipped]
  cases (GradientField.ofFlat f.flat).offsetAt f.varyings.localPosition with
  | none => exact iff_of_true rfl rfl
  | some offset =>
    obtain ⟨color, hsample⟩ := (GradientRamps.sample_succeeds_iff offset
      (GradientField.ofFlat f.flat).extend).mpr (validate_gradient_eq_ok_iff.mp h)
    simp only [hsample, Except.toOption, bind, Option.bind, pure, reduceCtorEq]

/-- With dithering the noise is added to each colour that is there without. -/
theorem unclipped_dithered (ramps : GradientRamps) (f : FragmentInput) :
    (Pass.gradient ramps true).unclipped f =
      ((Pass.gradient ramps false).unclipped f).map fun color => color.dither f.coord := by
  simp only [unclipped]
  cases (GradientField.ofFlat f.flat).offsetAt f.varyings.localPosition with
  | none => rfl
  | some offset =>
    simp only [bind, Option.bind]
    cases (ramps.sample (GradientField.ofFlat f.flat).rampRow offset
      (GradientField.ofFlat f.flat).extend).toOption <;> rfl

theorem isSome_shade_dithered (ramps : GradientRamps) (f : FragmentInput) :
    ((Pass.gradient ramps true).shade f).isSome = ((Pass.gradient ramps false).shade f).isSome := by
  simp only [shade_gradient, unclipped_dithered, Option.isSome_map]

end Pass

/-! ## Draws -/

namespace DrawSettings

/-- Lists with colours at the same places have equally many, and equally many places without. -/
theorem countP_of_map_isSome {l l' : List (Option Color)}
    (h : l.map Option.isSome = l'.map Option.isSome) :
    l.countP Option.isSome = l'.countP Option.isSome ∧ l.countP Option.isNone = l'.countP Option.isNone := by
  have hcount (p : Bool → Bool) : l.countP (p ∘ Option.isSome) = l'.countP (p ∘ Option.isSome) := by
    rw [← List.countP_map, h, List.countP_map]
  have hnone : Option.isNone = not ∘ (Option.isSome : Option Color → Bool) :=
    funext fun o => (Option.not_isSome o).symm
  rw [hnone]
  exact ⟨hcount id, hcount not⟩

section Congr
variable {s : DrawSettings} {p p' : Pass} (hname : p.name = p'.name) (hval : p.validate = p'.validate)
  (records : List InstanceRecord)
include hname hval

theorem accept_congr (record : InstanceRecord) :
    { s with pass := p }.accept record = { s with pass := p' }.accept record := by
  simp only [accept, hname, hval]

theorem instances_congr : { s with pass := p }.instances records = { s with pass := p' }.instances records :=
  List.filterMap_congr fun record _ => by rw [accept_congr hname hval]

/-- Passes of one name that validate alike skip the same records for the same reasons. -/
theorem skips_congr (t : Target) :
    ({ s with pass := p }.draw t records).skips = ({ s with pass := p' }.draw t records).skips := by
  rw [skips_draw, skips_draw]
  simp only [failures, accept_congr hname hval]

/-- If they also discard the same fragments, their draws have the same counters. -/
theorem counts_congr (hshade : ∀ f, (p.shade f).isSome = (p'.shade f).isSome) (width height : UInt32) :
    { s with pass := p }.counts width height records =
      { s with pass := p' }.counts width height records := by
  have hskipped : (records.countP fun record => { s with pass := p }.Skips record) =
      records.countP fun record => { s with pass := p' }.Skips record :=
    List.countP_congr fun record _ => by
      simp only [decide_eq_true_eq, ← accept_eq_error_iff, accept_congr hname hval]
  have hplaces : (({ s with pass := p }.instances records).flatMap fun i =>
        { s with pass := p }.fragmentOutcomes i width height).map Option.isSome =
      (({ s with pass := p' }.instances records).flatMap fun i =>
        { s with pass := p' }.fragmentOutcomes i width height).map Option.isSome := by
    simp only [instances_congr hname hval, List.map_flatMap, fragmentOutcomes, List.map_map,
      Function.comp_def, outcome, hshade]
  obtain ⟨hshaded, hdiscarded⟩ := countP_of_map_isSome hplaces
  simp only [counts, instances_congr hname hval, hskipped] at hshaded hdiscarded ⊢
  rw [hshaded, hdiscarded]

end Congr

end DrawSettings

/-- A gradient pass with which an instance is accepted finds its ramp at every offset, and discards
the fragments of the instance that are in a gap between tiles, and no others. Whether it dithers
changes neither the counters of a draw nor the records that are skipped. -/
theorem Pass.gradient_discards_gaps (ramps : GradientRamps) :
    (∀ (dithering : Bool) (f : FragmentInput), (Pass.gradient ramps dithering).validate f.flat = .ok () →
      ((Pass.gradient ramps dithering).shade f = none ↔
        (GradientField.ofFlat f.flat).offsetAt f.varyings.localPosition = none) ∧
      ∀ offset, ∃ color, ramps.sample (GradientField.ofFlat f.flat).rampRow offset
        (GradientField.ofFlat f.flat).extend = .ok color) ∧
    (∀ (g : GradientField) (p : Vec2), g.offsetAt p = none ↔
      g.tile.size.x ≤ (p.euclidMod g.tile.period).x ∨ g.tile.size.y ≤ (p.euclidMod g.tile.period).y) ∧
    ∀ (s : DrawSettings) (t : Target) (records : List InstanceRecord),
      ({ s with pass := .gradient ramps true }.draw t records).stats =
        ({ s with pass := .gradient ramps false }.draw t records).stats ∧
      ({ s with pass := .gradient ramps true }.draw t records).skips =
        ({ s with pass := .gradient ramps false }.draw t records).skips := by
  have hname : (Pass.gradient ramps true).name = (Pass.gradient ramps false).name := rfl
  have hval : (Pass.gradient ramps true).validate = (Pass.gradient ramps false).validate := rfl
  refine ⟨fun dithering f h => ⟨shade_gradient_eq_none_iff h, fun offset => ?_⟩,
    fun g p => GradientField.offsetAt_eq_none_iff, fun s t records => ⟨?_, ?_⟩⟩
  · exact (GradientRamps.sample_succeeds_iff offset _).mpr (validate_gradient_eq_ok_iff.mp h)
  · rw [DrawSettings.counts_draw, DrawSettings.counts_draw]
    exact DrawSettings.counts_congr hname hval records (isSome_shade_dithered ramps) _ _
  · exact DrawSettings.skips_congr hname hval records t

/-- A fragment two units behind the end of a tile, three before the next. -/
def FragmentInput.betweenTiles : FragmentInput where
  coord := ⟨12.5, 3.5⟩
  varyings := { localPosition := ⟨12.0, 3.0⟩ }
  flat := { tile := ⟨⟨10.0, 10.0⟩, ⟨15.0, 15.0⟩⟩ }

/-- A store of one white ramp. -/
def GradientRamps.whiteRamp : GradientRamps := { twoColumns with rows := #[Vector.replicate 2 Color.white] }

/-- It is discarded though its ramp is there. -/
theorem Pass.betweenTiles_discarded :
    (Pass.gradient .whiteRamp true).validate FragmentInput.betweenTiles.flat = .ok () ∧
      (Pass.gradient .whiteRamp true).shade .betweenTiles = none := by
  have hval : (Pass.gradient .whiteRamp true).validate FragmentInput.betweenTiles.flat = .ok () := rfl
  exact ⟨hval, ((gradient_discards_gaps .whiteRamp).1 true .betweenTiles hval).1.mpr (by decide +kernel)⟩

end TileCompositor
