import TileCompositor.Proofs.Color.Lerp
import TileCompositor.Proofs.Gradient.Ramps
import TileCompositor.Proofs.Scalar.Whole
/-!
# Baking stops into a row

The stops of a ramp have offsets that ascend from zero to one, several of them
perhaps the same. The colour at an offset is that of the first stop that is not
below it, or lies on the way to that stop from the one before; beyond all stops
it is that of the last one.

Results:
* `ascending_of_checkStops`: the stops that are accepted.
* `colorAt_towards`: the colour at an offset.
* `inUnit_colorAt`, `colorAt_same`: the colours in a row.
* `colorAt_start`, `close_colorAt_end`: the colours at its ends.
-/
namespace TileCompositor
open Binary32

/-! ## Stops -/

/-- The offsets ascend from `lo` on within one, and the colours are finite. -/
inductive Ascending : ℚ → List ColorStop → Prop
  | nil {lo : ℚ} : Ascending lo []
  | cons {lo q : ℚ} {stop : ColorStop} {rest : List ColorStop} (offset : DenotesUnit stop.offset q)
    (le : lo ≤ q) (color : stop.color.isFinite = true) (tail : Ascending q rest) :
    Ascending lo (stop :: rest)

theorem ascending_of_findFault {previous : Float32} {lo : ℚ} {index : Nat} {stops : List ColorStop}
    (hlo : Denotes previous lo) (h0 : 0 ≤ lo) (h : findFault previous index stops = none) :
    Ascending lo stops := by
  induction stops generalizing previous lo index with
  | nil => exact .nil
  | cons stop rest ih =>
    rw [findFault] at h
    split at h
    · cases h
    · next hfin =>
      split at h
      · cases h
      · next hrange =>
        simp only [ColorStop.isFinite, Bool.not_eq_true', Bool.not_eq_false, Bool.and_eq_true] at hfin
        obtain ⟨q, hq⟩ := isFinite_iff.mp hfin.1
        simp only [Bool.or_eq_true, decide_eq_true_eq, not_or, hq.lt_iff hlo, denotes_one.lt_iff hq,
          not_lt] at hrange
        exact .cons ⟨hq, h0.trans hrange.1, hrange.2⟩ hrange.1 hfin.2 (ih hq (h0.trans hrange.1) h)

/-- Accepted stops ascend, and there are some. -/
theorem ascending_of_checkStops {stops : List ColorStop} (h : checkStops stops = .ok ()) :
    Ascending 0 stops ∧ stops ≠ [] := by
  unfold checkStops at h
  split at h
  · cases h
  · next hlen =>
    split at h
    · cases h
    · next hfault =>
      refine ⟨ascending_of_findFault denotes_zero le_rfl hfault, ?_⟩
      rintro rfl
      exact hlen (by decide)

/-- The first stop that is not below `u`, or else the last one. -/
def reachedStop (u : Float32) (stops : List ColorStop) : Option ColorStop :=
  (stops.find? fun stop => u <= stop.offset).or stops.getLast?

section Reached
variable {u : Float32} {a b : ColorStop} {rest stops : List ColorStop}

theorem reachedStop_singleton (u : Float32) (a : ColorStop) : reachedStop u [a] = some a := by
  by_cases h : u ≤ a.offset <;> simp [reachedStop, h]

theorem reachedStop_of_le (h : u ≤ a.offset) : reachedStop u (a :: rest) = some a := by
  simp [reachedStop, h]

theorem reachedStop_of_not_le (h : ¬ u ≤ a.offset) :
    reachedStop u (a :: b :: rest) = reachedStop u (b :: rest) := by
  simp [reachedStop, h]

/-- The last stop is reached if all before it are passed. -/
theorem reachedStop_eq_getLast (h : ∀ stop ∈ stops.dropLast, ¬ u ≤ stop.offset) :
    reachedStop u stops = stops.getLast? := by
  induction stops with
  | nil => rfl
  | cons a rest ih =>
    cases rest with
    | nil => exact reachedStop_singleton u a
    | cons b rest =>
      rw [List.dropLast_cons_cons, List.forall_mem_cons] at h
      rw [reachedStop_of_not_le h.1, ih h.2, List.getLast?_cons_cons]

theorem mem_of_reachedStop (h : reachedStop u stops = some a) : a ∈ stops := by
  rw [reachedStop, Option.or_eq_some_iff] at h
  rcases h with h | ⟨-, h⟩
  · exact List.mem_of_find?_eq_some h
  · exact List.mem_of_getLast? h

end Reached

/-! ## The colour at an offset -/

/-- How the colour at `v` comes about when `b` is the stop that is reached: it
is that of `b`, or on the way to `b` from another stop. At one the way is at
its end. -/
inductive Towards (stops : List ColorStop) (b : ColorStop) (v : ℚ) : Color → Prop
  | held : Towards stops b v b.color
  | way {a : ColorStop} {s : Float32} (mem : a ∈ stops) (inUnit : Scalar.InUnit s)
    (finish : v = 1 → Denotes s 1) : Towards stops b v (a.color.lerp b.color s)

section Colors
variable {stops rest : List ColorStop} {a b : ColorStop} {u : Float32} {v p lo : ℚ} {c : Color}

theorem Towards.cons (h : Towards stops b v c) (a : ColorStop) : Towards (a :: stops) b v c := by
  cases h with
  | held => exact .held
  | way mem inUnit finish => exact .way (List.mem_cons_of_mem a mem) inUnit finish

/-- The share that a part of a segment has in all of it. -/
theorem denotesUnit_share {x y z : Float32} {q : ℚ} (hx : DenotesUnit x v) (hy : DenotesUnit y p)
    (hz : DenotesUnit z q) (hpv : p < v) (hvq : v ≤ q) :
    DenotesUnit ((x - y) / (z - y)) (nearest (nearest (v - p) / nearest (q - p))) := by
  have hpos : 0 < nearest (q - p) :=
    (nearest_sub_pos hy.denotes.representable hz.denotes.representable).mpr (hpv.trans_le hvq)
  exact (hx.sub hy hpv.le).div (hz.sub hy (hpv.le.trans hvq)) hpos (nearest_mono (by linarith))

theorem colorBetween_towards (hu : DenotesUnit u v) (ha : DenotesUnit a.offset p) (hpv : p < v)
    (h : Ascending p rest) :
    ∃ b, reachedStop u (a :: rest) = some b ∧ Towards (a :: rest) b v (colorBetween a u rest) := by
  induction rest generalizing a p with
  | nil => exact ⟨a, reachedStop_singleton u a, .held⟩
  | cons b rest ih =>
    obtain _ | ⟨hb, -, -, hrest⟩ := h
    rename_i q
    rw [reachedStop_of_not_le (by rw [hu.denotes.le_iff ha.denotes]; exact hpv.not_ge), colorBetween]
    by_cases hle : u ≤ b.offset
    · rw [if_pos hle]
      refine ⟨b, reachedStop_of_le hle, ?_⟩
      have hvq : v ≤ q := (hu.denotes.le_iff hb.denotes).mp hle
      have hshare := denotesUnit_share hu ha hb hpv hvq
      simp only
      split
      · exact .held
      · refine .way List.mem_cons_self (inUnit_iff.mpr ⟨_, hshare⟩) fun hone => ?_
        -- at one the segment ends there, and the share is all of it
        obtain rfl : v = q := le_antisymm hvq (hone ▸ hb.le_one)
        have hpos := (nearest_sub_pos ha.denotes.representable hb.denotes.representable).mpr hpv
        have hdenotes := hshare.denotes
        rwa [div_self hpos.ne', nearest_of_representable representable_one] at hdenotes
    · rw [if_neg hle]
      rw [hu.denotes.le_iff hb.denotes, not_le] at hle
      obtain ⟨c, hc, htowards⟩ := ih hb hle hrest
      exact ⟨c, hc, htowards.cons a⟩

/-- The colour at an offset is that of the stop that is reached, or on the way to it. -/
theorem colorAt_towards (hu : DenotesUnit u v) (h : Ascending lo stops) (hne : stops ≠ []) :
    ∃ b, reachedStop u stops = some b ∧ Towards stops b v (colorAt u stops) := by
  cases h with
  | nil => exact absurd rfl hne
  | @cons _ q first rest hfirst _ _ hrest =>
    rw [colorAt]
    by_cases hle : u ≤ first.offset
    · rw [if_pos hle]
      exact ⟨first, reachedStop_of_le hle, .held⟩
    · rw [if_neg hle]
      rw [hu.denotes.le_iff hfirst.denotes, not_le] at hle
      exact colorBetween_towards hu hfirst hle hrest

/-- Stops with colours between zero and one make no others. -/
theorem inUnit_colorAt (hu : DenotesUnit u v) (h : Ascending lo stops) (hne : stops ≠ [])
    (hunit : ∀ stop ∈ stops, stop.color.InUnit) : (colorAt u stops).InUnit := by
  obtain ⟨b, hb, htowards⟩ := colorAt_towards hu h hne
  have hbunit := hunit b (mem_of_reachedStop hb)
  generalize colorAt u stops = d at htowards ⊢
  cases htowards with
  | held => exact hbunit
  | way mem inUnit => exact (hunit _ mem).lerp hbunit inUnit

/-- Stops of one colour make no other one. -/
theorem colorAt_same (hu : DenotesUnit u v) (h : Ascending lo stops) (hne : stops ≠ [])
    (hc : c.isFinite = true) (hsame : ∀ stop ∈ stops, (stop.color == c) = true) :
    (colorAt u stops == c) = true := by
  obtain ⟨b, hb, htowards⟩ := colorAt_towards hu h hne
  have hbsame := hsame b (mem_of_reachedStop hb)
  generalize colorAt u stops = d at htowards ⊢
  cases htowards with
  | held => exact hbsame
  | way mem inUnit =>
    obtain ⟨s, hs⟩ := inUnit_iff.mp inUnit
    exact Color.lerp_same hc (hsame _ mem) hbsame hs.denotes.isFinite

/-- The row begins with the colour of the first stop. -/
theorem colorAt_start (hu : Denotes u 0) (h : Ascending lo (a :: rest)) :
    colorAt u (a :: rest) = a.color := by
  obtain _ | ⟨ha, -, -, -⟩ := h
  exact if_pos ((hu.le_iff ha.denotes).mpr ha.nonneg)

/-- It ends next to that of the stop that is reached at one. -/
theorem close_colorAt_end (h : Ascending lo stops) (hne : stops ≠ [])
    (hunit : ∀ stop ∈ stops, stop.color.InUnit) :
    ∃ b, reachedStop 1.0 stops = some b ∧ (colorAt 1.0 stops).Close b.color (2 ^ (-23 : ℤ)) := by
  obtain ⟨b, hb, htowards⟩ := colorAt_towards denotesUnit_one h hne
  have hbunit := hunit b (mem_of_reachedStop hb)
  refine ⟨b, hb, ?_⟩
  generalize colorAt 1.0 stops = d at htowards ⊢
  cases htowards with
  | held => exact .refl hbunit.isFinite (two_zpow_pos _).le
  | way mem inUnit finish => exact Color.close_lerp_end (hunit _ mem) hbunit (finish rfl)

end Colors

end TileCompositor
