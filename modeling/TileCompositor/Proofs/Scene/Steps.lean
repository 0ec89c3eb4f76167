import Mathlib.Algebra.Group.Nat.Defs
import TileCompositor.Proofs.Gradient.Ramps
import TileCompositor.Proofs.Record.Lookup
import TileCompositor.Scene.Builder
/-!
# The steps by which a scene is built

A step of a builder fails if the table or the ramp store that it adds to has
no room. `Succeeds P Q x` says this exactly: `x` succeeds if and only if `P`,
and then with a result of which `Q` holds. Steps in sequence succeed under
the conditions of all of them, so the condition of a whole builder is read
off the numbers of entries that its steps find.

Results:
* `Succeeds.bind`: steps in sequence.
* `Stocked.pushTransform`, `Stocked.pushClip`, `Stocked.pushTile`,
  `Stocked.bakeRamp`: each step on a scene with known numbers of entries.
-/
namespace TileCompositor

/-! ## Exact conditions of success -/

/-- `x` succeeds exactly under `P`, and `Q` holds of its result. -/
structure Succeeds {ε α : Type} (P : Prop) (Q : α → Prop) (x : Except ε α) : Prop where
  exists_ok : P → ∃ a, x = .ok a
  of_ok : ∀ a, x = .ok a → P ∧ Q a

namespace Succeeds
variable {ε ε' α β : Type} {P P' : Prop} {Q Q' : α → Prop} {R : β → Prop} {x : Except ε α}

theorem exists_ok_iff (h : Succeeds P Q x) : (∃ a, x = .ok a) ↔ P := by
  constructor
  · rintro ⟨a, ha⟩
    exact (h.of_ok a ha).1
  · exact h.exists_ok

theorem mono (h : Succeeds P Q x) (hP : P ↔ P') (hQ : ∀ a, Q a → Q' a) : Succeeds P' Q' x := by
  constructor
  · intro hP'
    exact h.exists_ok (hP.mpr hP')
  · intro a ha
    obtain ⟨hcond, hres⟩ := h.of_ok a ha
    exact ⟨hP.mp hcond, hQ a hres⟩

theorem congr (h : Succeeds P Q x) (hP : P ↔ P') : Succeeds P' Q x :=
  h.mono hP fun _ hQ => hQ

theorem pure {a : α} (h : Q a) : Succeeds True Q (Pure.pure a : Except ε α) := by
  constructor
  · intro _
    exact ⟨a, rfl⟩
  · intro b hb
    cases hb
    exact ⟨trivial, h⟩

/-- Two steps in sequence succeed under both conditions, if that of the
second does not depend on what the first one gives. -/
theorem bind {f : α → Except ε β} (hx : Succeeds P Q x) (hf : ∀ a, Q a → Succeeds P' R (f a)) :
    Succeeds (P ∧ P') R (x >>= f) := by
  constructor
  · rintro ⟨hP, hP'⟩
    obtain ⟨a, ha⟩ := hx.exists_ok hP
    obtain ⟨b, hb⟩ := (hf a (hx.of_ok a ha).2).exists_ok hP'
    refine ⟨b, ?_⟩
    rw [ha]
    exact hb
  · intro b hb
    obtain ⟨a, ha, hfa⟩ := exists_of_bind_eq_ok hb
    obtain ⟨hP, hQ⟩ := hx.of_ok a ha
    obtain ⟨hP', hR⟩ := (hf a hQ).of_ok b hfa
    exact ⟨⟨hP, hP'⟩, hR⟩

theorem map {g : α → β} (hx : Succeeds P (fun a => R (g a)) x) : Succeeds P R (x.map g) := by
  constructor
  · intro hP
    obtain ⟨a, ha⟩ := hx.exists_ok hP
    exact ⟨g a, map_eq_ok_iff.mpr ⟨a, ha, rfl⟩⟩
  · intro b hb
    obtain ⟨a, ha, rfl⟩ := map_eq_ok_iff.mp hb
    exact hx.of_ok a ha

theorem mapError {g : ε → ε'} (hx : Succeeds P Q x) : Succeeds P Q (x.mapError g) := by
  constructor
  · intro hP
    obtain ⟨a, ha⟩ := hx.exists_ok hP
    exact ⟨a, mapError_eq_ok_iff.mpr ha⟩
  · intro a ha
    exact hx.of_ok a (mapError_eq_ok_iff.mp ha)

end Succeeds

/-! ## Tables and stores of known length -/

/-- The table has this capacity and this number of entries. -/
structure Table.Sized {α : Type} (t : Table α) (capacity length : Nat) : Prop where
  capacity_eq : t.capacity = capacity
  length_eq : t.length = length

theorem Table.Sized.le {α : Type} {t : Table α} {capacity length : Nat}
    (h : t.Sized capacity length) : length ≤ capacity := by
  rw [← h.length_eq, ← h.capacity_eq]
  exact t.length_le_capacity

/-- A push succeeds if there is room, and answers the length before it. -/
theorem Table.Sized.push {α : Type} {t : Table α} {capacity length : Nat}
    (h : t.Sized capacity length) (hcap : capacity ≤ 2 ^ 32) (entry : α) :
    Succeeds (length < capacity)
      (fun added => added.1.toNat = length ∧ added.2.Sized capacity (length + 1)) (t.push entry) := by
  obtain ⟨rfl, rfl⟩ := h
  by_cases hroom : t.length < t.capacity
  · obtain ⟨t', hpush, hlist, hcapacity, -⟩ := t.push_of_lt entry hroom
    rw [hpush]
    refine ⟨fun _ => ⟨_, rfl⟩, ?_⟩
    rintro _ ⟨⟩
    refine ⟨hroom, UInt32.toNat_ofNat_of_lt' (Nat.lt_of_lt_of_le hroom hcap), hcapacity, ?_⟩
    rw [← length_toList, hlist, List.length_append, length_toList, List.length_singleton]
  · rw [t.push_of_le entry (Nat.not_lt.mp hroom)]
    exact ⟨fun h => absurd h hroom, nofun⟩

/-- Every index into tables of these capacities can be packed. -/
structure TableLimits.Packable (limits : TableLimits) : Prop where
  transforms : limits.transforms ≤ 2 ^ 24
  clipRects : limits.clipRects ≤ 2 ^ 24
  tileParams : limits.tileParams ≤ 2 ^ 24

/-! ## Scenes under construction -/

namespace Scene

/-- Numbers of entries in the tables and of rows in the ramp store. -/
structure Usage where
  transforms : Nat
  clipRects : Nat
  tileParams : Nat
  rows : Nat

/-- A scene without batches whose tables and ramp store are as configured and
have these numbers of entries. -/
structure Stocked (config : PipelineConfig) (used : Usage) (scene : Scene) : Prop where
  packable : config.limits.Packable
  transforms : scene.tables.transforms.Sized config.limits.transforms used.transforms
  clipRects : scene.tables.clipRects.Sized config.limits.clipRects used.clipRects
  tileParams : scene.tables.tileParams.Sized config.limits.tileParams used.tileParams
  maxRows_eq : scene.ramps.maxRows = min config.rampRows GradientRamps.addressable
  rows_eq : scene.ramps.rows.size = used.rows
  batches_eq : scene.batches = []

namespace Stocked
variable {scene : Scene} {config : PipelineConfig} {used : Usage}

theorem pushTransform (h : scene.Stocked config used) (m : Mat4) :
    Succeeds (used.transforms < config.limits.transforms)
      (fun added => added.1.toNat = used.transforms ∧
        added.2.Stocked config { used with transforms := used.transforms + 1 })
      (scene.pushTransform m) := by
  have hcap := h.packable.transforms
  refine .mapError (.map (.map ((h.transforms.push (by omega) m).mono Iff.rfl ?_)))
  rintro ⟨i, table⟩ ⟨hi, htable⟩
  exact ⟨hi, { h with transforms := htable }⟩

theorem pushClip (h : scene.Stocked config used) (c : ClipRect) :
    Succeeds (used.clipRects < config.limits.clipRects)
      (fun added => added.1.toNat = used.clipRects ∧
        added.2.Stocked config { used with clipRects := used.clipRects + 1 })
      (scene.pushClip c) := by
  have hcap := h.packable.clipRects
  refine .mapError (.map (.map ((h.clipRects.push (by omega) c).mono Iff.rfl ?_)))
  rintro ⟨i, table⟩ ⟨hi, htable⟩
  exact ⟨hi, { h with clipRects := htable }⟩

theorem pushTile (h : scene.Stocked config used) (t : TileParams) :
    Succeeds (used.tileParams < config.limits.tileParams)
      (fun added => added.1.toNat = used.tileParams ∧
        added.2.Stocked config { used with tileParams := used.tileParams + 1 })
      (scene.pushTile t) := by
  have hcap := h.packable.tileParams
  refine .mapError (.map (.map ((h.tileParams.push (by omega) t).mono Iff.rfl ?_)))
  rintro ⟨i, table⟩ ⟨hi, htable⟩
  exact ⟨hi, { h with tileParams := htable }⟩

theorem bakeRamp (h : scene.Stocked config used) {stops : List ColorStop}
    (hstops : checkStops stops = .ok ()) :
    Succeeds (used.rows < min config.rampRows GradientRamps.addressable)
      (fun added => added.1.toNat = used.rows ∧
        added.2.Stocked config { used with rows := used.rows + 1 })
      (scene.bakeRamp stops) := by
  refine .mapError (.map ?_)
  rw [← h.rows_eq, ← h.maxRows_eq]
  constructor
  · intro hroom
    exact ⟨_, GradientRamps.add_eq_ok_iff.mpr ⟨hstops, hroom, rfl, rfl⟩⟩
  · rintro ⟨i, ramps⟩ hadd
    obtain ⟨-, hroom, rfl, rfl⟩ := GradientRamps.add_eq_ok_iff.mp hadd
    have hlt : scene.ramps.rows.size < 2 ^ 32 := by
      have := h.maxRows_eq
      unfold GradientRamps.addressable at this
      omega
    refine ⟨hroom, UInt32.toNat_ofNat_of_lt' hlt, { h with rows_eq := ?_ }⟩
    exact Array.size_push _

end Stocked
end Scene
end TileCompositor
