import TileCompositor.Coverage.Draw
import TileCompositor.Proofs.Coverage.Fragments
import TileCompositor.Proofs.Record.Lookup
/-!
# What a draw does to one pixel

A draw walks records, triangles, rows and columns and blends into one array.
Here the same is said pixel by pixel: a pixel takes the colours that the pass
gives to the fragments at its own place, one record after the other and in a
record the triangle at the top left first, and nothing else touches it.

Results:
* `pixel_drawInstance`: one instance, seen from a pixel.
* `pixel_drawFrom`, `stats_drawFrom`: a list of records.
* `draw_pixels`: the target and the counters after a draw.
-/
namespace TileCompositor
open Binary32

namespace DrawSettings

/-! ## The view from a pixel -/

/-- The instances that a draw does not skip. -/
def instances (s : DrawSettings) (records : List InstanceRecord) : List ResolvedInstance :=
  records.filterMap fun record => (s.accept record).toOption

/-- A record is taken if its table entries are there and the pass accepts them. -/
theorem accept_eq_ok_iff {s : DrawSettings} {record : InstanceRecord} {i : ResolvedInstance} :
    s.accept record = .ok i ↔ record.resolve s.tables = .ok i ∧ s.pass.validate i.flat = .ok () := by
  unfold accept
  cases hres : record.resolve s.tables with
  | error e => exact iff_of_false nofun nofun
  | ok j =>
    cases hval : s.pass.validate j.flat with
    | error e =>
      refine iff_of_false (by simp [hval, Except.mapError, bind, Except.bind]) fun h => ?_
      cases h.1
      exact nomatch hval.symm.trans h.2
    | ok u =>
      simp only [hval, Except.mapError, bind, Except.bind, pure, Except.pure, Except.ok.injEq]
      exact ⟨fun h => ⟨h, h ▸ hval⟩, fun h => h.1⟩

theorem mem_instances {s : DrawSettings} {records : List InstanceRecord} {i : ResolvedInstance} :
    i ∈ s.instances records ↔ ∃ record ∈ records, s.accept record = .ok i := by
  rw [instances, List.mem_filterMap]
  refine exists_congr fun record => and_congr_right fun _ => ?_
  cases s.accept record <;> simp [Except.toOption]

/-- What the pass makes of a fragment. -/
def outcome (s : DrawSettings) (flat : FlatVaryings) (f : Fragment) : Option Color :=
  s.pass.shade { coord := f.coord, varyings := f.varyings, flat }

/-- The colours that an instance gives to a pixel, the triangle at the top
left first. -/
def instanceColors (s : DrawSettings) (i : ResolvedInstance) (width height : UInt32) (x y : Nat) :
    List Color :=
  [Half.topLeft, .bottomRight].filterMap fun half =>
    (i.fragmentAt half s.frame width height x y).bind (s.outcome i.flat)

/-- The colours that a draw blends into a pixel, in this order. -/
def colorsAt (s : DrawSettings) (width height : UInt32) (records : List InstanceRecord) (x y : Nat) :
    List Color :=
  (s.instances records).flatMap fun i => s.instanceColors i width height x y

/-- What the pass makes of each pixel of the target that a triangle of the
instance covers. -/
def instanceOutcomes (s : DrawSettings) (i : ResolvedInstance) (width height : UInt32) :
    List (Option Color) :=
  [Half.topLeft, .bottomRight].flatMap fun half =>
    (PixelBox.mk 0 0 width.toNat height.toNat).pixels.filterMap fun (x, y) =>
      (i.fragmentAt half s.frame width height x y).map (s.outcome i.flat)

/-- The outcomes of all pairs of a triangle and a pixel that it covers. -/
def outcomes (s : DrawSettings) (width height : UInt32) (records : List InstanceRecord) :
    List (Option Color) :=
  (s.instances records).flatMap fun i => s.instanceOutcomes i width height

/-! ## One instance -/

/-- Blending a list of colours changes a pixel by those meant for it. -/
theorem pixel_foldl_blendPixel (mode : BlendMode) {l : List (Fragment × Color)} {t : Target}
    {x : Nat} (y : Nat) (hx : x < t.width.toNat) (hl : ∀ p ∈ l, p.1.x < t.width.toNat) :
    (l.foldl (fun t (f, color) => t.blendPixel f.x f.y color mode) t).pixel x y =
      (t.pixel x y).map fun old =>
        ((l.filter fun p => (p.1.x, p.1.y) = (x, y)).map Prod.snd).foldl
          (fun dst src => mode.blend src dst) old := by
  induction l generalizing t with
  | nil => cases h : t.pixel x y <;> simp [h, Except.map]
  | cons p rest ih =>
    obtain ⟨f, color⟩ := p
    have hf : f.x < t.width.toNat := hl (f, color) List.mem_cons_self
    have hrest : ∀ p ∈ rest, p.1.x < (t.blendPixel f.x f.y color mode).width.toNat :=
      fun p hp => hl p (List.mem_cons_of_mem _ hp)
    rw [List.foldl_cons]
    refine (ih (t := t.blendPixel f.x f.y color mode) hx hrest).trans ?_
    by_cases hp : (f.x, f.y) = (x, y)
    · obtain ⟨rfl, rfl⟩ := Prod.mk.inj hp
      rw [Target.pixel_blendPixel_self, List.filter_cons_of_pos (by simp)]
      cases t.pixel f.x f.y <;> simp [Except.map]
    · have hne : t.offset f.x f.y ≠ t.offset x y := by
        rw [Ne, t.offset_inj hf hx, ← Prod.mk.injEq]
        exact hp
      rw [Target.pixel_blendPixel_of_ne _ _ _ hne, List.filter_cons_of_neg (by simpa using hp)]

theorem shadeAll_cons (s : DrawSettings) (flat : FlatVaryings) (f : Fragment) (rest : List Fragment) :
    s.shadeAll flat (f :: rest) =
      ((s.outcome flat f).map fun color => (f, color)).toList ++ s.shadeAll flat rest := by
  simp only [shadeAll, List.filterMap_cons, outcome]
  cases s.pass.shade { coord := f.coord, varyings := f.varyings, flat } <;> rfl

/-- The colours at a pixel are those of the fragments at that pixel. -/
theorem filter_shadeAll (s : DrawSettings) (flat : FlatVaryings) (fragments : List Fragment)
    (x y : Nat) :
    ((s.shadeAll flat fragments).filter fun p => (p.1.x, p.1.y) = (x, y)).map Prod.snd =
      (fragments.filter fun f => (f.x, f.y) = (x, y)).filterMap (s.outcome flat) := by
  induction fragments with
  | nil => rfl
  | cons f rest ih =>
    rw [shadeAll_cons, List.filter_append, List.map_append, ih]
    by_cases hf : (f.x, f.y) = (x, y)
    · obtain ⟨rfl, rfl⟩ := Prod.mk.inj hf
      rw [List.filter_cons_of_pos (by simp), List.filterMap_cons]
      cases s.outcome flat f <;> simp
    · rw [List.filter_cons_of_neg (by simpa using hf)]
      cases s.outcome flat f with
      | none => rfl
      | some color =>
        rw [Option.map_some, Option.toList_some, List.filter_cons_of_neg (by simpa using hf)]
        rfl

theorem targetBox_eq {width height : UInt32} (hw : width.toNat ≤ 2 ^ 24)
    (hh : height.toNat ≤ 2 ^ 24) :
    targetBox width height = ⟨0, 0, width.toNat, height.toNat⟩ := by
  rw [targetBox, reach_eq hw, reach_eq hh]

end DrawSettings

/-- The fragments of a quad lie on the target. -/
theorem ResolvedInstance.lt_width_of_mem_fragments {i : ResolvedInstance} {frame : FrameUniforms}
    {width height : UInt32} (hw : width.toNat ≤ 2 ^ 24) {f : Fragment}
    (hf : f ∈ i.fragments frame width height) : f.x < width.toNat :=
  reach_eq hw ▸ (contains_of_mem_fragments hf).1.2

namespace DrawSettings

theorem width_foldl_blendPixel (mode : BlendMode) (l : List (Fragment × Color)) (t : Target) :
    (l.foldl (fun t (f, color) => t.blendPixel f.x f.y color mode) t).width = t.width ∧
      (l.foldl (fun t (f, color) => t.blendPixel f.x f.y color mode) t).height = t.height := by
  induction l generalizing t with
  | nil => exact ⟨rfl, rfl⟩
  | cons p rest ih => exact ih _

theorem filterMap_flatMap_toList {α β γ : Type} (g : α → Option β) (k : β → Option γ) (l : List α) :
    (l.flatMap fun a => (g a).toList).filterMap k = l.filterMap fun a => (g a).bind k := by
  induction l with
  | nil => rfl
  | cons a rest ih =>
    rw [List.flatMap_cons, List.filterMap_append, ih, List.filterMap_cons]
    cases g a with
    | none => rfl
    | some b => cases h : k b <;> simp [h]

/-- An instance blends its own colours into a pixel. -/
theorem pixel_drawInstance (s : DrawSettings) (d : Drawing) (i : ResolvedInstance)
    (hw : d.target.width.toNat ≤ 2 ^ 24) {x : Nat} (y : Nat) (hx : x < d.target.width.toNat) :
    (s.drawInstance d i).target.pixel x y = (d.target.pixel x y).map fun old =>
      (s.instanceColors i d.target.width d.target.height x y).foldl
        (fun dst src => s.blend.blend src dst) old := by
  have hmem : ∀ p ∈ s.shadeAll i.flat (i.fragments s.frame d.target.width d.target.height),
      p.1.x < d.target.width.toNat := by
    intro p hp
    obtain ⟨f, hf, hp⟩ := List.mem_filterMap.mp hp
    obtain ⟨color, -, rfl⟩ := Option.map_eq_some_iff.mp hp
    exact i.lt_width_of_mem_fragments hw hf
  have hcolors : s.instanceColors i d.target.width d.target.height x y =
      ((i.fragments s.frame d.target.width d.target.height).filter fun f =>
        (f.x, f.y) = (x, y)).filterMap (s.outcome i.flat) := by
    rw [i.filter_fragments, filterMap_flatMap_toList, instanceColors]
  rw [drawInstance, hcolors, ← filter_shadeAll]
  exact pixel_foldl_blendPixel s.blend y hx hmem

/-- What the pass makes of the fragments of an instance, in the order in which
they are drawn. -/
def fragmentOutcomes (s : DrawSettings) (i : ResolvedInstance) (width height : UInt32) :
    List (Option Color) :=
  (i.fragments s.frame width height).map (s.outcome i.flat)

theorem instanceOutcomes_eq (s : DrawSettings) (i : ResolvedInstance) {width height : UInt32}
    (hw : width.toNat ≤ 2 ^ 24) (hh : height.toNat ≤ 2 ^ 24) :
    s.instanceOutcomes i width height = s.fragmentOutcomes i width height := by
  rw [fragmentOutcomes, i.fragments_eq, targetBox_eq hw hh, List.map_flatMap]
  simp only [List.map_filterMap]
  rfl

/-- Each outcome is either a colour or none. -/
theorem countP_isSome_add_countP_isNone (l : List (Option Color)) :
    l.countP Option.isSome + l.countP Option.isNone = l.length := by
  rw [List.length_eq_countP_add_countP Option.isSome (l := l)]
  congr 2
  funext o
  cases o <;> rfl

/-- The counters of an instance are those of its outcomes. -/
theorem stats_drawInstance (s : DrawSettings) (d : Drawing) (i : ResolvedInstance) :
    (s.drawInstance d i).stats = d.stats +
      { drawn := 1
        shaded := (s.fragmentOutcomes i d.target.width d.target.height).countP Option.isSome
        discarded := (s.fragmentOutcomes i d.target.width d.target.height).countP Option.isNone } := by
  have hshaded : (s.shadeAll i.flat (i.fragments s.frame d.target.width d.target.height)).length =
      (s.fragmentOutcomes i d.target.width d.target.height).countP Option.isSome := by
    rw [fragmentOutcomes, shadeAll, List.length_filterMap_eq_countP, List.countP_map]
    congr 1
    funext f
    simp [outcome]
  have hdiscarded : (i.fragments s.frame d.target.width d.target.height).length -
      (s.shadeAll i.flat (i.fragments s.frame d.target.width d.target.height)).length =
        (s.fragmentOutcomes i d.target.width d.target.height).countP Option.isNone := by
    have htotal := countP_isSome_add_countP_isNone
      (s.fragmentOutcomes i d.target.width d.target.height)
    have hlength : (s.fragmentOutcomes i d.target.width d.target.height).length =
        (i.fragments s.frame d.target.width d.target.height).length := List.length_map _
    omega
  rw [drawInstance, ← hshaded, ← hdiscarded]

theorem dimensions_drawInstance (s : DrawSettings) (d : Drawing) (i : ResolvedInstance) :
    (s.drawInstance d i).target.width = d.target.width ∧
      (s.drawInstance d i).target.height = d.target.height :=
  width_foldl_blendPixel _ _ _

/-! ## Runs -/

theorem instances_cons (s : DrawSettings) (record : InstanceRecord) (rest : List InstanceRecord) :
    s.instances (record :: rest) = (s.accept record).toOption.toList ++ s.instances rest := by
  unfold instances
  rw [List.filterMap_cons]
  cases (s.accept record).toOption <;> rfl

theorem dimensions_drawFrom (s : DrawSettings) (d : Drawing) (index : Nat)
    (records : List InstanceRecord) :
    (s.drawFrom d index records).target.width = d.target.width ∧
      (s.drawFrom d index records).target.height = d.target.height := by
  induction records generalizing d index with
  | nil => exact ⟨rfl, rfl⟩
  | cons record rest ih =>
    rw [drawFrom, (ih _ _).1, (ih _ _).2, drawRecord]
    cases s.accept record with
    | ok i => exact dimensions_drawInstance s d i
    | error reason => exact ⟨rfl, rfl⟩

theorem pixel_drawFrom (s : DrawSettings) (d : Drawing) (index : Nat) (records : List InstanceRecord)
    (hw : d.target.width.toNat ≤ 2 ^ 24) {x : Nat} (y : Nat) (hx : x < d.target.width.toNat) :
    (s.drawFrom d index records).target.pixel x y = (d.target.pixel x y).map fun old =>
      (s.colorsAt d.target.width d.target.height records x y).foldl
        (fun dst src => s.blend.blend src dst) old := by
  induction records generalizing d index with
  | nil => cases h : d.target.pixel x y <;> simp [drawFrom, colorsAt, instances, h, Except.map]
  | cons record rest ih =>
    have hd := dimensions_drawFrom s d index [record]
    rw [drawFrom, drawFrom] at hd
    rw [drawFrom, ih _ _ (by rw [hd.1]; exact hw) (by rw [hd.1]; exact hx), hd.1, hd.2,
      colorsAt, colorsAt, instances_cons, drawRecord]
    cases hacc : s.accept record with
    | ok i =>
      simp only [Except.toOption, Option.toList_some, List.cons_append, List.nil_append,
        List.flatMap_cons]
      rw [pixel_drawInstance s d i hw y hx]
      cases d.target.pixel x y <;> simp [Except.map, List.foldl_append]
    | error reason => rfl

theorem stats_drawFrom (s : DrawSettings) (d : Drawing) (index : Nat)
    (records : List InstanceRecord) :
    (s.drawFrom d index records).stats.shaded = d.stats.shaded +
        ((s.instances records).flatMap fun i =>
          s.fragmentOutcomes i d.target.width d.target.height).countP Option.isSome ∧
      (s.drawFrom d index records).stats.discarded = d.stats.discarded +
        ((s.instances records).flatMap fun i =>
          s.fragmentOutcomes i d.target.width d.target.height).countP Option.isNone := by
  induction records generalizing d index with
  | nil => exact ⟨rfl, rfl⟩
  | cons record rest ih =>
    have hd := dimensions_drawFrom s d index [record]
    rw [drawFrom, drawFrom] at hd
    obtain ⟨h1, h2⟩ := ih (s.drawRecord d index record) (index + 1)
    rw [drawFrom, h1, h2, hd.1, hd.2, instances_cons, drawRecord]
    cases hacc : s.accept record with
    | ok i =>
      simp only [Except.toOption, Option.toList_some, List.cons_append, List.nil_append,
        List.flatMap_cons, List.countP_append, stats_drawInstance s d i]
      exact ⟨Nat.add_assoc _ _ _, Nat.add_assoc _ _ _⟩
    | error reason => exact ⟨rfl, rfl⟩

/-- The counters of a draw are those of the outcomes of all its fragments. -/
theorem stats_draw (s : DrawSettings) (t : Target) (records : List InstanceRecord) :
    (s.draw t records).stats.shaded =
        ((s.instances records).flatMap fun i =>
          s.fragmentOutcomes i t.width t.height).countP Option.isSome ∧
      (s.draw t records).stats.discarded =
        ((s.instances records).flatMap fun i =>
          s.fragmentOutcomes i t.width t.height).countP Option.isNone := by
  have h := stats_drawFrom s { target := t } 0 records
  exact ⟨h.1.trans (Nat.zero_add _), h.2.trans (Nat.zero_add _)⟩

/-- A draw counts every fragment once. -/
theorem shaded_add_discarded (s : DrawSettings) (t : Target) (records : List InstanceRecord) :
    (s.draw t records).stats.shaded + (s.draw t records).stats.discarded =
      ((s.instances records).flatMap fun i => i.fragments s.frame t.width t.height).length := by
  rw [(stats_draw s t records).1, (stats_draw s t records).2, countP_isSome_add_countP_isNone,
    List.length_flatMap, List.length_flatMap]
  simp only [fragmentOutcomes, List.length_map]

theorem exists_pixel (t : Target) {x y : Nat} (hx : x < t.width.toNat) (hy : y < t.height.toNat) :
    ∃ c, t.pixel x y = .ok c :=
  t.exists_pixel_iff.mpr (t.offset_lt hx hy)

/-- A pixel that no triangle covers gets no colours. -/
theorem colorsAt_eq_nil {s : DrawSettings} {width height : UInt32}
    {records : List InstanceRecord} {x y : Nat}
    (h : ∀ i ∈ s.instances records, ∀ half, i.fragmentAt half s.frame width height x y = none) :
    s.colorsAt width height records x y = [] := by
  rw [colorsAt, List.flatMap_eq_nil_iff]
  intro i hi
  rw [instanceColors, List.filterMap_eq_nil_iff]
  intro half _
  rw [h i hi half]
  rfl

/-- After a draw every pixel of the target has the colours meant for it
blended into its old value in order, a pixel without any keeps its value, the
size of the target is the old one, and the counters count the outcomes. -/
theorem draw_pixels (s : DrawSettings) (t : Target) (records : List InstanceRecord)
    (hw : t.width.toNat ≤ 2 ^ 24) (hh : t.height.toNat ≤ 2 ^ 24) :
    ((s.draw t records).target.width = t.width ∧ (s.draw t records).target.height = t.height ∧
        (s.draw t records).target.pixels.size = t.pixels.size) ∧
      (∀ x y, x < t.width.toNat → y < t.height.toNat → ∃ old, t.pixel x y = .ok old ∧
        (s.draw t records).target.pixel x y = .ok
          ((s.colorsAt t.width t.height records x y).foldl
            (fun dst src => s.blend.blend src dst) old)) ∧
      (∀ x y, x < t.width.toNat → y < t.height.toNat →
        (∀ i ∈ s.instances records, ∀ half, i.fragmentAt half s.frame t.width t.height x y = none) →
        (s.draw t records).target.pixel x y = t.pixel x y) ∧
      (s.draw t records).stats.shaded = (s.outcomes t.width t.height records).countP Option.isSome ∧
      (s.draw t records).stats.discarded =
        (s.outcomes t.width t.height records).countP Option.isNone := by
  have hdim := dimensions_drawFrom s { target := t } 0 records
  have hpixel (x y : Nat) (hx : x < t.width.toNat) :
      (s.draw t records).target.pixel x y = (t.pixel x y).map fun old =>
        (s.colorsAt t.width t.height records x y).foldl (fun dst src => s.blend.blend src dst) old :=
    pixel_drawFrom s { target := t } 0 records hw y hx
  have houtcomes : s.outcomes t.width t.height records =
      (s.instances records).flatMap fun i => s.fragmentOutcomes i t.width t.height := by
    simp only [outcomes, instanceOutcomes_eq s _ hw hh]
  refine ⟨⟨hdim.1, hdim.2, ?_⟩, ?_, ?_, ?_, ?_⟩
  · rw [Target.size_eq, Target.size_eq t]
    change (s.drawFrom { target := t } 0 records).target.width.toNat *
      (s.drawFrom { target := t } 0 records).target.height.toNat = _
    rw [hdim.1, hdim.2]
  · intro x y hx hy
    obtain ⟨old, hold⟩ := exists_pixel t hx hy
    refine ⟨old, hold, ?_⟩
    rw [hpixel x y hx, hold]
    rfl
  · intro x y hx hy hnone
    rw [hpixel x y hx, colorsAt_eq_nil hnone]
    cases t.pixel x y <;> rfl
  · rw [houtcomes, (stats_draw s t records).1]
  · rw [houtcomes, (stats_draw s t records).2]

/-- The colour pass over one pixel, with one entry in every table. -/
def onePixel : DrawSettings where
  tables :=
    { transforms := { kind := .transform, capacity := 1, entries := #[Mat4.identity] }
      clipRects := { kind := .clipRect, capacity := 1, entries := #[ClipRect.empty] }
      tileParams := { kind := .tileParams, capacity := 1, entries := #[TileParams.unbounded] } }
  frame := { globalTransform := (Viewport.mk 1.0 1.0).projection }
  pass := .color

/-- A quad over the pixel, twice. -/
def twoLayers : List InstanceRecord := List.replicate 2 (.ofRect (Rect.ofXYWH 0.0 0.0 1.0 1.0))

/-- Each layer is shaded once. -/
theorem shaded_twoLayers :
    (Target.new 1 1).width.toNat ≤ 2 ^ 24 ∧ (Target.new 1 1).height.toNat ≤ 2 ^ 24 ∧
    (onePixel.draw (Target.new 1 1) twoLayers).stats.shaded = 2 := by
  have hw : (Target.new 1 1).width.toNat ≤ 2 ^ 24 := by decide
  have hh : (Target.new 1 1).height.toNat ≤ 2 ^ 24 := by decide
  refine ⟨hw, hh, ?_⟩
  rw [(draw_pixels onePixel _ twoLayers hw hh).2.2.2.1]
  decide +kernel

end DrawSettings

end TileCompositor
