import TileCompositor.Proofs.Gradient.Sampling
/-!
# Which stops make a ramp

The stops of a list are looked at one after the other, each against the offset of the one before it.
So a list of at least two stops is accepted if all of them are finite and their offsets ascend from
zero to one. Otherwise the search ends at the first stop with a fault, and that fault is the one
that is reported: while no stop had one the offsets passed were not negative, so comparing with the
last of them is comparing with the larger of it and zero.

Results:
* `ascending_iff`, `checkStops_eq_ok_iff`: the lists that are accepted.
* `FaultAt`, `findFault_step`, `findFault_drop_eq_some_iff`: the fault that is reported.
* `add_accepts_ascending`: what a store with a free row answers.
-/
namespace TileCompositor
open Binary32

variable {stops : List ColorStop} {i : Nat} {e e' : RampError}

/-! ## Lists that are accepted -/

theorem ColorStop.isFinite_iff {stop : ColorStop} :
    stop.isFinite = true ↔ stop.offset.isFinite = true ∧ stop.color.isFinite = true := by
  rw [isFinite, Bool.and_eq_true]

theorem ascending_iff {lo : ℚ} :
    Ascending lo stops ↔
      (∀ stop ∈ stops, stop.color.isFinite = true ∧ ∃ q, DenotesUnit stop.offset q ∧ lo ≤ q) ∧
        stops.Pairwise fun a b => a.offset ≤ b.offset := by
  induction stops generalizing lo with
  | nil => exact iff_of_true .nil ⟨nofun, .nil⟩
  | cons stop rest ih =>
    rw [List.forall_mem_cons, List.pairwise_cons]
    constructor
    · rintro (_ | ⟨hstop, hle, hcolor, htail⟩)
      obtain ⟨hrest, hpairs⟩ := ih.mp htail
      refine ⟨⟨⟨hcolor, _, hstop, hle⟩, fun other hmem => ?_⟩, fun other hmem => ?_, hpairs⟩
      · obtain ⟨hfin, q, hq, hlq⟩ := hrest other hmem
        exact ⟨hfin, q, hq, hle.trans hlq⟩
      · obtain ⟨-, q, hq, hlq⟩ := hrest other hmem
        exact (hstop.denotes.le_iff hq.denotes).mpr hlq
    · rintro ⟨⟨⟨hcolor, p, hp, hle⟩, hrest⟩, hfirst, hpairs⟩
      refine .cons hp hle hcolor (ih.mpr ⟨fun other hmem => ?_, hpairs⟩)
      obtain ⟨hfin, q, hq, -⟩ := hrest other hmem
      exact ⟨hfin, q, hq, (hp.denotes.le_iff hq.denotes).mp (hfirst other hmem)⟩

theorem findFault_of_ascending {previous : Float32} {lo : ℚ} {index : Nat} (hlo : Denotes previous lo)
    (h : Ascending lo stops) : findFault previous index stops = none := by
  induction h generalizing previous index with
  | nil => rfl
  | cons hstop hle hcolor _ ih =>
    have hfin := ColorStop.isFinite_iff.mpr ⟨hstop.denotes.isFinite, hcolor⟩
    have hlow := (not_congr (hstop.denotes.lt_iff hlo)).mpr hle.not_gt
    have hhigh := (not_congr (denotes_one.lt_iff hstop.denotes)).mpr hstop.le_one.not_gt
    simp only [findFault, hfin, hlow, hhigh, Bool.not_true, Bool.false_eq_true, decide_false,
      Bool.or_self, if_false]
    exact ih hstop.denotes

/-- Two stops or more are accepted if they ascend from zero on. -/
theorem checkStops_eq_ok_iff : checkStops stops = .ok () ↔ 2 ≤ stops.length ∧ Ascending 0 stops := by
  constructor
  · intro h
    refine ⟨?_, (ascending_of_checkStops h).1⟩
    by_contra hlen
    rw [checkStops, if_pos (Nat.not_le.mp hlen)] at h
    cases h
  · rintro ⟨hlen, hascending⟩
    rw [checkStops, if_neg (Nat.not_lt.mpr hlen), findFault_of_ascending denotes_zero hascending]

/-- In such a list everything is finite, the offsets lie between zero and one and none is below an
earlier one. -/
theorem ascending_zero_iff :
    Ascending 0 stops ↔ (∀ stop ∈ stops, stop.isFinite = true ∧ Scalar.InUnit stop.offset) ∧
      stops.Pairwise fun a b => a.offset ≤ b.offset := by
  rw [ascending_iff]
  refine and_congr_left fun _ => forall₂_congr fun stop _ => ?_
  rw [ColorStop.isFinite_iff, inUnit_iff]
  constructor
  · rintro ⟨hcolor, q, hq, -⟩
    exact ⟨⟨hq.denotes.isFinite, hcolor⟩, q, hq⟩
  · rintro ⟨⟨-, hcolor⟩, q, hq⟩
    exact ⟨hcolor, q, hq, hq.nonneg⟩

/-- Of a gradient with such stops only the axis can be unusable. -/
theorem LinearGradient.isValid_of_checkStops {g : LinearGradient} (h : checkStops g.stops = .ok ()) :
    g.isValid = (g.start.isFinite && g.finish.isFinite && g.finish != g.start) := by
  obtain ⟨hlen, hascending⟩ := checkStops_eq_ok_iff.mp h
  have hfinite : g.stops.all ColorStop.isFinite = true :=
    List.all_eq_true.mpr fun stop hmem => ((ascending_zero_iff.mp hascending).1 stop hmem).1
  simp only [isValid, hlen, hfinite, decide_true, Bool.and_true]

/-! ## Faults -/

/-- The offset of the stop before number `i`, and zero before the first one. -/
def offsetBefore (stops : List ColorStop) : Nat → Float32
  | 0 => 0.0
  | k + 1 => stops[k]?.elim 0.0 ColorStop.offset

/-- What is wrong with stop number `i`: it is not finite, or it is and its offset is above one or
below zero or that of the stop before it. -/
inductive FaultAt (stops : List ColorStop) (i : Nat) : RampError → Prop
  | nonFinite {stop : ColorStop} (get : stops[i]? = some stop) (infinite : stop.isFinite = false) :
    FaultAt stops i (.nonFinite i)
  | badOffset {stop : ColorStop} (get : stops[i]? = some stop) (finite : stop.isFinite = true)
    (range : 1.0 < stop.offset ∨ stop.offset < Scalar.maxNum 0.0 (offsetBefore stops i)) :
    FaultAt stops i (.badStopOffset i)

/-- The fault of the first stop, from number `i` on, that has one. -/
def FirstFault (stops : List ColorStop) (i : Nat) (e : RampError) : Prop :=
  ∃ k, i ≤ k ∧ FaultAt stops k e ∧ ∀ j, i ≤ j → j < k → ∀ e', ¬ FaultAt stops j e'

theorem FaultAt.lt_length (h : FaultAt stops i e) : i < stops.length := by
  cases h with
  | nonFinite get => exact (List.getElem?_eq_some_iff.mp get).1
  | badOffset get => exact (List.getElem?_eq_some_iff.mp get).1

/-- Of a stop that is there: its fault is that it is not finite, or else its offset. -/
theorem faultAt_iff {stop : ColorStop} (get : stops[i]? = some stop) :
    FaultAt stops i e ↔ stop.isFinite = false ∧ e = .nonFinite i ∨
      stop.isFinite = true ∧ (1.0 < stop.offset ∨ stop.offset < Scalar.maxNum 0.0 (offsetBefore stops i)) ∧
        e = .badStopOffset i := by
  constructor
  · rintro (⟨get', infinite⟩ | ⟨get', finite, range⟩)
    · obtain rfl := Option.some.inj (get.symm.trans get')
      exact .inl ⟨infinite, rfl⟩
    · obtain rfl := Option.some.inj (get.symm.trans get')
      exact .inr ⟨finite, range, rfl⟩
  · rintro (⟨infinite, rfl⟩ | ⟨finite, range, rfl⟩)
    · exact .nonFinite get infinite
    · exact .badOffset get finite range

/-- A stop has one fault at most. -/
theorem FaultAt.unique (h : FaultAt stops i e) (h' : FaultAt stops i e') : e' = e := by
  have hget := List.getElem?_eq_getElem h.lt_length
  rw [faultAt_iff hget] at h h'
  rcases h with ⟨infinite, rfl⟩ | ⟨finite, -, rfl⟩
  · exact h'.elim And.right fun h => absurd (infinite.symm.trans h.1) Bool.false_ne_true
  · exact h'.elim (fun h => absurd (h.1.symm.trans finite) Bool.false_ne_true) fun h => h.2.2

theorem firstFault_of_faultAt (h : FaultAt stops i e) : FirstFault stops i e' ↔ e = e' := by
  constructor
  · rintro ⟨k, hik, hfault, hbefore⟩
    rcases hik.eq_or_lt with rfl | hlt
    · exact hfault.unique h
    · exact absurd h (hbefore i le_rfl hlt e)
  · rintro rfl
    exact ⟨i, le_rfl, h, fun j hij hji => absurd hji (Nat.not_lt.mpr hij)⟩

theorem firstFault_of_no_faultAt (h : ∀ e', ¬ FaultAt stops i e') :
    FirstFault stops i e ↔ FirstFault stops (i + 1) e := by
  constructor
  · rintro ⟨k, hik, hfault, hbefore⟩
    rcases hik.eq_or_lt with rfl | hlt
    · exact absurd hfault (h e)
    · exact ⟨k, hlt, hfault, fun j hij => hbefore j (Nat.le_of_succ_le hij)⟩
  · rintro ⟨k, hik, hfault, hbefore⟩
    refine ⟨k, Nat.le_of_succ_le hik, hfault, fun j hij hjk => ?_⟩
    rcases hij.eq_or_lt with rfl | hlt
    · exact h
    · exact hbefore j hlt hjk

theorem Scalar.maxNum_zero_of_nonneg {x : Float32} {q : ℚ} (hx : Denotes x q) (h0 : 0 ≤ q) :
    maxNum 0.0 x = x := by
  rw [maxNum, hx.isNaN, if_neg Bool.false_ne_true, if_neg]
  exact (not_congr (hx.lt_iff denotes_zero)).mpr h0.not_gt

/-- One step of the search: a stop with a fault ends it, and any other one hands on its offset, which
is not negative if the one before it is not. -/
theorem findFault_step (rest : List ColorStop) {stop : ColorStop} {q : ℚ} (get : stops[i]? = some stop)
    (hq : Denotes (offsetBefore stops i) q) (h0 : 0 ≤ q) :
    (∃ fault, FaultAt stops i fault ∧ findFault (offsetBefore stops i) i (stop :: rest) = some fault) ∨
      (∀ e, ¬ FaultAt stops i e) ∧ (∃ p, Denotes stop.offset p ∧ 0 ≤ p) ∧
        findFault (offsetBefore stops i) i (stop :: rest) = findFault stop.offset (i + 1) rest := by
  have hmax := Scalar.maxNum_zero_of_nonneg hq h0
  rw [findFault]
  by_cases hfin : stop.isFinite = true
  · rw [if_neg (by rw [hfin]; exact Bool.false_ne_true)]
    by_cases hrange : stop.offset < offsetBefore stops i ∨ 1.0 < stop.offset
    · refine .inl ⟨_, .badOffset get hfin (by rw [hmax]; exact hrange.symm), ?_⟩
      rw [if_pos (by simpa using hrange)]
    · refine .inr ⟨fun e => ?_, ?_, ?_⟩
      · rw [faultAt_iff get, hmax]
        rintro (⟨hinf, -⟩ | ⟨-, hbad, -⟩)
        · exact absurd (hinf.symm.trans hfin) Bool.false_ne_true
        · exact hrange hbad.symm
      · obtain ⟨p, hp⟩ := isFinite_iff.mp (ColorStop.isFinite_iff.mp hfin).1
        exact ⟨p, hp, h0.trans (not_lt.mp fun hlt => hrange (.inl ((hp.lt_iff hq).mpr hlt)))⟩
      · rw [if_neg (by simpa using hrange)]
  · rw [Bool.not_eq_true] at hfin
    exact .inl ⟨_, .nonFinite get hfin, if_pos (by rw [hfin]; rfl)⟩

/-- From stop number `i` on, the search finds the first fault. The invariant is that the offset that
it carries is that of the stop before, and is not negative. -/
theorem findFault_drop_eq_some_iff {q : ℚ} (hq : Denotes (offsetBefore stops i) q) (h0 : 0 ≤ q) :
    findFault (offsetBefore stops i) i (stops.drop i) = some e ↔ FirstFault stops i e := by
  generalize hrest : stops.drop i = rest
  induction rest generalizing i q with
  | nil =>
    refine iff_of_false nofun ?_
    rintro ⟨k, hik, hfault, -⟩
    exact absurd (hfault.lt_length.trans_le (List.drop_eq_nil_iff.mp hrest)) (Nat.not_lt.mpr hik)
  | cons stop rest ih =>
    have hget : stops[i]? = some stop := by
      rw [← Nat.add_zero i, ← List.getElem?_drop, hrest]
      rfl
    have htail : stops.drop (i + 1) = rest := by rw [← List.tail_drop, hrest, List.tail_cons]
    have hnext : offsetBefore stops (i + 1) = stop.offset := by rw [offsetBefore, hget, Option.elim_some]
    rcases findFault_step rest hget hq h0 with
      ⟨fault, hfault, hstep⟩ | ⟨hnone, ⟨p, hp, hp0⟩, hstep⟩
    · rw [hstep, firstFault_of_faultAt hfault, Option.some_inj]
    · rw [hstep, firstFault_of_no_faultAt hnone, ← ih (i := i + 1) (hnext ▸ hp) hp0 htail, hnext]

/-- What is reported of a list of at least two stops is its first fault. -/
theorem checkStops_eq_error_iff (hlen : 2 ≤ stops.length) :
    checkStops stops = .error e ↔ ∃ i, FaultAt stops i e ∧ ∀ j < i, ∀ e', ¬ FaultAt stops j e' := by
  have hfirst : findFault 0.0 0 stops = some e ↔ FirstFault stops 0 e :=
    findFault_drop_eq_some_iff (i := 0) denotes_zero le_rfl
  have hzero : FirstFault stops 0 e ↔
      ∃ i, FaultAt stops i e ∧ ∀ j < i, ∀ e', ¬ FaultAt stops j e' := by
    simp only [FirstFault, Nat.zero_le, true_and, forall_true_left]
  rw [← hzero, ← hfirst, checkStops, if_neg (Nat.not_lt.mpr hlen)]
  cases findFault 0.0 0 stops with
  | none => exact iff_of_false nofun nofun
  | some fault => rw [Except.error.injEq, Option.some_inj]

/-! ## Stores -/

namespace GradientRamps
variable {r : GradientRamps}

/-- With a free row the stops decide alone. -/
theorem add_of_room (hroom : r.rows.size < r.maxRows) (stops : List ColorStop) :
    r.add stops = (checkStops stops).map fun _ =>
      (r.rows.size.toUInt32, { r with rows := r.rows.push (r.bake stops) }) := by
  rw [add, if_pos hroom]
  cases checkStops stops <;> rfl

/-- A store with a free row accepts exactly the lists of two stops or more that are finite and
ascend from zero to one. Of shorter ones it reports the length, and of all others the fault of the
first stop that has one. A gradient with accepted stops can be painted if its axis allows it. -/
theorem add_accepts_ascending (hroom : r.rows.size < r.maxRows) (stops : List ColorStop) :
    ((∃ added, r.add stops = .ok added) ↔
      2 ≤ stops.length ∧ (∀ stop ∈ stops, stop.isFinite = true ∧ Scalar.InUnit stop.offset) ∧
        stops.Pairwise fun a b => a.offset ≤ b.offset) ∧
    (stops.length < 2 → r.add stops = .error (.tooFewStops stops.length)) ∧
    (2 ≤ stops.length → ∀ e, r.add stops = .error e ↔
      ∃ i, FaultAt stops i e ∧ ∀ j < i, ∀ e', ¬ FaultAt stops j e') ∧
    ((∃ added, r.add stops = .ok added) → ∀ start finish extend,
      (LinearGradient.mk start finish stops extend).isValid =
        (start.isFinite && finish.isFinite && finish != start)) := by
  have hok : (∃ added, r.add stops = .ok added) ↔ checkStops stops = .ok () := by
    rw [add_of_room hroom]
    cases checkStops stops with
    | ok u => exact iff_of_true ⟨_, rfl⟩ rfl
    | error e => exact iff_of_false nofun nofun
  have herror (e : RampError) : r.add stops = .error e ↔ checkStops stops = .error e := by
    rw [add_of_room hroom]
    cases checkStops stops with
    | ok u => exact iff_of_false nofun nofun
    | error fault => rw [Except.map, Except.error.injEq, Except.error.injEq]
  refine ⟨?_, ?_, ?_, ?_⟩
  · rw [hok, checkStops_eq_ok_iff, ascending_zero_iff]
  · intro hlen
    rw [herror, checkStops, if_pos hlen]
  · intro hlen e
    rw [herror, checkStops_eq_error_iff hlen]
  · intro haccepted start finish extend
    exact LinearGradient.isValid_of_checkStops (hok.mp haccepted)

/-- Stops that go back after the second one. -/
def turningStops : List ColorStop := [⟨-0.0, Color.black⟩, ⟨0.75, Color.white⟩, ⟨0.5, Color.red⟩]

/-- The two stops that ascend are accepted, negative zero included, and the third one is reported. -/
theorem add_turningStops :
    twoColumns.rows.size < twoColumns.maxRows ∧ (∃ added, twoColumns.add (turningStops.take 2) = .ok added) ∧
      twoColumns.add turningStops = .error (.badStopOffset 2) := by
  have hroom : twoColumns.rows.size < twoColumns.maxRows := by decide
  refine ⟨hroom, ?_, ?_⟩
  · exact (add_accepts_ascending hroom (turningStops.take 2)).1.mpr (by decide +kernel)
  · refine ((add_accepts_ascending hroom turningStops).2.2.1 (by decide) _).mpr ⟨2, ?_, ?_⟩
    · exact .badOffset rfl (by decide +kernel) (.inr (by decide +kernel))
    · intro j hj e hfault
      obtain rfl | rfl : j = 0 ∨ j = 1 := by omega
      all_goals
        obtain ⟨get, infinite⟩ | ⟨get, -, range⟩ := hfault
        · cases get
          exact absurd infinite (by decide +kernel)
        · cases get
          exact absurd range (by decide +kernel)

end GradientRamps

end TileCompositor
