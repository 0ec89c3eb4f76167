import TileCompositor.Proofs.Color.Composition
import TileCompositor.Proofs.Coverage.Runs
/-!
# Opaque targets

Drawing over an opaque target leaves it opaque, with alpha exactly one
however many colours are blended into a pixel, and a pixel that receives
colours without alpha only keeps its own.

Results:
* `Target.IsOpaque.blendPixel`, `Target.IsOpaque.blendAll`: one blend, and a run of them.
* `Target.exists_pixel_blendAll`: a pixel under colours without alpha.
* `Target.draws_opaque`: sequences of draws.
-/
namespace TileCompositor

/-- A draw: what it works with and its records. -/
structure DrawCall where
  settings : DrawSettings
  records : List InstanceRecord

namespace Target

/-- The target after a sequence of draws. -/
def draws (t : Target) (calls : List DrawCall) : Target :=
  calls.foldl (fun t call => (call.settings.draw t call.records).target) t

/-- The fragments that a sequence of draws shades on a target of the given
size, with their colours, in the order in which they are blended. -/
def shadedBy (width height : UInt32) (calls : List DrawCall) : List (Fragment × Color) :=
  calls.flatMap fun call => call.settings.shadedFragments width height call.records

/-- Every pixel is opaque, its channels between zero and one. -/
def IsOpaque (t : Target) : Prop := ∀ c ∈ t.pixels, c.IsOpaque

variable {t : Target} {colored : List (Fragment × Color)}

theorem IsOpaque.of_pixel (ht : t.IsOpaque) {x y : Nat} {c : Color} (h : t.pixel x y = .ok c) :
    c.IsOpaque := by
  unfold pixel at h
  cases hget : t.pixels[t.offset x y]? with
  | none => simp [hget] at h
  | some d =>
    simp only [hget, Except.ok.injEq] at h
    exact h ▸ ht d (Array.mem_of_getElem? hget)

/-! ## One blend -/

theorem blend_keeps_opaque (src dst : Color) (hs : src.InUnit) (hd : dst.IsOpaque) :
    (BlendMode.sourceOver.blend src dst).IsOpaque := Color.IsOpaque.sourceOver hs hd

theorem IsOpaque.blendPixel (ht : t.IsOpaque) (x y : Nat) {color : Color} (hc : color.InUnit) :
    (t.blendPixel x y color .sourceOver).IsOpaque :=
  AllPixels.blendPixel ht blend_keeps_opaque x y hc

/-- A blend into a pixel is seen at every place that leads to the same entry. -/
theorem pixel_blendPixel_of_eq {x y x' y' : Nat} (color : Color) (mode : BlendMode)
    (h : t.offset x y = t.offset x' y') :
    (t.blendPixel x y color mode).pixel x' y' = (t.pixel x' y').map fun dst => mode.blend color dst := by
  have hself := pixel_blendPixel_self t x y color mode
  unfold pixel at hself ⊢
  rw [offset_blendPixel] at hself ⊢
  rwa [h] at hself

/-- A colour without alpha, or one for another pixel, leaves a pixel of an
opaque target as it is. -/
theorem exists_pixel_blendPixel (ht : t.IsOpaque) {x y x' y' : Nat} {color old : Color}
    (hc : color.InUnit) (hclear : t.offset x' y' = t.offset x y → (color.a == 0.0) = true)
    (hold : t.pixel x y = .ok old) :
    ∃ new, (t.blendPixel x' y' color .sourceOver).pixel x y = .ok new ∧ (new == old) = true := by
  by_cases h : t.offset x' y' = t.offset x y
  · rw [pixel_blendPixel_of_eq color .sourceOver h, hold]
    exact ⟨_, rfl, (ht.of_pixel hold).sourceOver_of_clear hc (hclear h)⟩
  · rw [pixel_blendPixel_of_ne _ _ _ h]
    exact ⟨old, hold, (ht.of_pixel hold).inUnit.beq_self⟩

/-! ## Runs -/

theorem dimensions_blendAll (t : Target) (mode : BlendMode) (colored : List (Fragment × Color)) :
    (t.blendAll mode colored).width = t.width ∧ (t.blendAll mode colored).height = t.height :=
  DrawSettings.width_foldl_blendPixel mode colored t

theorem IsOpaque.blendAll (ht : t.IsOpaque) (hunit : ∀ p ∈ colored, p.2.InUnit) :
    (t.blendAll .sourceOver colored).IsOpaque :=
  AllPixels.blendAll ht blend_keeps_opaque hunit

/-- A pixel of an opaque target keeps its colour if what is blended into it
has no alpha. -/
theorem exists_pixel_blendAll (ht : t.IsOpaque) (hunit : ∀ p ∈ colored, p.2.InUnit) {x y : Nat}
    (hclear : ∀ p ∈ colored, t.offset p.1.x p.1.y = t.offset x y → (p.2.a == 0.0) = true)
    {old : Color} (hold : t.pixel x y = .ok old) :
    ∃ new, (t.blendAll .sourceOver colored).pixel x y = .ok new ∧ (new == old) = true := by
  induction colored generalizing t old with
  | nil => exact ⟨old, hold, (ht.of_pixel hold).inUnit.beq_self⟩
  | cons p rest ih =>
    have hp := List.forall_mem_cons.mp hunit
    have hc := List.forall_mem_cons.mp hclear
    obtain ⟨mid, hmid, heq⟩ := exists_pixel_blendPixel ht hp.1 hc.1 hold
    obtain ⟨new, hnew, heq'⟩ := ih (ht.blendPixel p.1.x p.1.y hp.1) hp.2 hc.2 hmid
    exact ⟨new, hnew, BEq.trans heq' heq⟩

theorem shadedBy_cons (width height : UInt32) (call : DrawCall) (rest : List DrawCall) :
    shadedBy width height (call :: rest) =
      call.settings.shadedFragments width height call.records ++ shadedBy width height rest :=
  List.flatMap_cons

/-- A sequence of draws in one blend mode is the run of its fragments. -/
theorem draws_eq_blendAll {calls : List DrawCall} {mode : BlendMode}
    (hmode : ∀ call ∈ calls, call.settings.blend = mode) :
    t.draws calls = t.blendAll mode (shadedBy t.width t.height calls) := by
  induction calls generalizing t with
  | nil => rfl
  | cons call rest ih =>
    obtain ⟨hcall, hrest⟩ := List.forall_mem_cons.mp hmode
    have hdim := dimensions_blendAll t mode
      (call.settings.shadedFragments t.width t.height call.records)
    change (call.settings.draw t call.records).target.draws rest = _
    rw [DrawSettings.target_draw, hcall, ih hrest, hdim.1, hdim.2, shadedBy_cons, blendAll_append]

/-- An opaque target stays opaque under draws of fragments with channels
between zero and one: alpha is exactly one after any number of them, and a
pixel keeps its colour if all fragments that are blended into it have alpha
zero. -/
theorem draws_opaque {calls : List DrawCall} (ht : t.IsOpaque)
    (hmode : ∀ call ∈ calls, call.settings.blend = .sourceOver)
    (hunit : ∀ p ∈ shadedBy t.width t.height calls, p.2.InUnit) :
    (t.draws calls).IsOpaque ∧
      ∀ x y old, t.pixel x y = .ok old →
        (∀ p ∈ shadedBy t.width t.height calls,
          t.offset p.1.x p.1.y = t.offset x y → (p.2.a == 0.0) = true) →
        ∃ new, (t.draws calls).pixel x y = .ok new ∧ (new == old) = true := by
  rw [draws_eq_blendAll hmode]
  refine ⟨ht.blendAll hunit, ?_⟩
  intro x y old hold hclear
  exact exists_pixel_blendAll ht hunit hclear hold

/-- A white quad outside its clip region, twice over a red pixel. -/
theorem draws_clipped_layers :
    let calls : List DrawCall :=
      [⟨.onePixel, DrawSettings.twoLayers.map fun record => record.setColor Color.white⟩]
    ((filled 1 1 Color.red).draws calls).IsOpaque ∧
      ∃ new, ((filled 1 1 Color.red).draws calls).pixel 0 0 = .ok new ∧ (new == Color.red) = true := by
  intro calls
  have hred : (filled 1 1 Color.red).IsOpaque := by
    intro c hc
    obtain rfl : c = Color.red := (Array.mem_replicate.mp hc).2
    exact ⟨by decide +kernel, rfl⟩
  have hunit : ∀ p ∈ shadedBy 1 1 calls, p.2.InUnit := by decide +kernel
  have hclear : ∀ p ∈ shadedBy 1 1 calls, (p.2.a == 0.0) = true := by decide +kernel
  have hmode : ∀ call ∈ calls, call.settings.blend = .sourceOver := by decide
  have h := draws_opaque hred hmode hunit
  exact ⟨h.1, h.2 0 0 Color.red rfl fun p hp _ => hclear p hp⟩

end Target

end TileCompositor
