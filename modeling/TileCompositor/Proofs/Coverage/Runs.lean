import TileCompositor.Proofs.Coverage.PixelSemantics
/-!
# A draw as a run of blends

A draw looks up, skips, shades and blends record by record. Taken apart, it
is the list of the fragments that it shades, blended into the target from
left to right, together with four counts and the records that it skips. Each
of these is put together from the records one by one, so a draw can be cut
anywhere, and what is skipped can be left out beforehand.

Results:
* `Target.AllPixels.blendAll`: a property of all pixels that each blend keeps.
* `accept_eq_error_iff`: when a record is skipped.
* `target_draw`, `counts_draw`, `skips_draw`: the three parts of a draw.
* `draw_splits`: draws of two lists one after the other, and of a list
  without the records that are skipped.
-/
namespace TileCompositor

/-- The target with colours blended into it one after the other. -/
def Target.blendAll (t : Target) (mode : BlendMode) (colored : List (Fragment × Color)) : Target :=
  colored.foldl (fun t (f, color) => t.blendPixel f.x f.y color mode) t

theorem Target.blendAll_cons (t : Target) (mode : BlendMode) (p : Fragment × Color)
    (rest : List (Fragment × Color)) :
    t.blendAll mode (p :: rest) = (t.blendPixel p.1.x p.1.y p.2 mode).blendAll mode rest := rfl

theorem Target.blendAll_append (t : Target) (mode : BlendMode) (xs ys : List (Fragment × Color)) :
    t.blendAll mode (xs ++ ys) = (t.blendAll mode xs).blendAll mode ys := by
  unfold blendAll
  rw [List.foldl_append]

/-! ## What all pixels have in common -/

/-- Every pixel has the property. -/
def Target.AllPixels (P : Color → Prop) (t : Target) : Prop := ∀ c ∈ t.pixels, P c

section AllPixels
variable {P Q : Color → Prop} {mode : BlendMode}

/-- A blend that keeps the property of a pixel keeps that of all of them. -/
theorem Target.AllPixels.blendPixel {t : Target} (ht : t.AllPixels P)
    (hmode : ∀ src dst, Q src → P dst → P (mode.blend src dst)) (x y : Nat) {color : Color}
    (hc : Q color) : (t.blendPixel x y color mode).AllPixels P := by
  intro c hmem
  obtain ⟨i, hi, rfl⟩ := Array.mem_iff_getElem.mp hmem
  simp only [Target.blendPixel, Array.size_modify] at hi
  simp only [Target.blendPixel, Array.getElem_modify]
  split
  · exact hmode _ _ hc (ht _ (Array.getElem_mem hi))
  · exact ht _ (Array.getElem_mem hi)

theorem Target.AllPixels.blendAll {t : Target} (ht : t.AllPixels P)
    (hmode : ∀ src dst, Q src → P dst → P (mode.blend src dst)) {colored : List (Fragment × Color)}
    (hcolored : ∀ p ∈ colored, Q p.2) : (t.blendAll mode colored).AllPixels P := by
  induction colored generalizing t with
  | nil => exact ht
  | cons p rest ih =>
    obtain ⟨hp, hrest⟩ := List.forall_mem_cons.mp hcolored
    exact ih (ht.blendPixel hmode p.1.x p.1.y hp) hrest

end AllPixels

/-! ## Skipped records -/

namespace DrawSettings

/-- A record that a draw leaves out: a table entry of it is missing, or all
are there and the pass does not accept them. -/
def Skips (s : DrawSettings) (record : InstanceRecord) : Prop :=
  record.MissesTable s.tables ∨
    ∃ i e, record.resolve s.tables = .ok i ∧ s.pass.validate i.flat = .error e

theorem accept_eq_error_iff {s : DrawSettings} {record : InstanceRecord} :
    (∃ reason, s.accept record = .error reason) ↔ s.Skips record := by
  unfold Skips
  rw [← InstanceRecord.resolve_eq_error_iff]
  unfold accept
  cases hres : record.resolve s.tables with
  | error e => exact iff_of_true ⟨_, rfl⟩ (.inl ⟨e, rfl⟩)
  | ok i =>
    cases hval : s.pass.validate i.flat with
    | error e =>
      refine iff_of_true ⟨.rejected s.pass.name e, ?_⟩ (.inr ⟨i, e, rfl, hval⟩)
      simp [hval, Except.mapError, bind, Except.bind]
    | ok u =>
      refine iff_of_false ?_ ?_
      · simp [hval, Except.mapError, bind, Except.bind, pure, Except.pure]
      · rintro (⟨e, he⟩ | ⟨j, e, hj, he⟩)
        · cases he
        · cases hj
          exact nomatch hval.symm.trans he

theorem not_skips_of_accept {s : DrawSettings} {record : InstanceRecord} {i : ResolvedInstance}
    (h : s.accept record = .ok i) : ¬ s.Skips record := by
  rw [← accept_eq_error_iff]
  rintro ⟨reason, he⟩
  exact nomatch h.symm.trans he

instance (s : DrawSettings) : DecidablePred s.Skips := fun record =>
  match h : s.accept record with
  | .ok _ => .isFalse (not_skips_of_accept h)
  | .error reason => .isTrue (accept_eq_error_iff.mp ⟨reason, h⟩)

/-- The records that are not skipped. -/
def kept (s : DrawSettings) (records : List InstanceRecord) : List InstanceRecord :=
  records.filter fun record => ¬ s.Skips record

/-! ## The parts of a draw -/

/-- The fragments that a draw shades, with their colours, in the order in
which they are blended. -/
def shadedFragments (s : DrawSettings) (width height : UInt32) (records : List InstanceRecord) :
    List (Fragment × Color) :=
  (s.instances records).flatMap fun i => s.shadeAll i.flat (i.fragments s.frame width height)

/-- The counters of a draw on a target of the given size. -/
def counts (s : DrawSettings) (width height : UInt32) (records : List InstanceRecord) : DrawStats where
  drawn := (s.instances records).length
  skipped := records.countP fun record => s.Skips record
  shaded := ((s.instances records).flatMap fun i =>
    s.fragmentOutcomes i width height).countP Option.isSome
  discarded := ((s.instances records).flatMap fun i =>
    s.fragmentOutcomes i width height).countP Option.isNone

/-- The skipped records with their numbers, the first record having the number `index`. -/
def failures (s : DrawSettings) (index : Nat) (records : List InstanceRecord) :
    List (Nat × SkipReason) :=
  (records.zipIdx index).filterMap fun (record, k) =>
    match s.accept record with
    | .ok _ => none
    | .error reason => some (k, reason)

theorem instances_append (s : DrawSettings) (xs ys : List InstanceRecord) :
    s.instances (xs ++ ys) = s.instances xs ++ s.instances ys := List.filterMap_append

/-- Records that are skipped add no instance. -/
theorem instances_kept (s : DrawSettings) (records : List InstanceRecord) :
    s.instances (s.kept records) = s.instances records := by
  unfold instances kept
  rw [List.filterMap_filter]
  refine List.filterMap_congr fun record _ => ?_
  cases hacc : s.accept record with
  | ok i => simp [not_skips_of_accept hacc]
  | error reason => simp [accept_eq_error_iff.mp ⟨reason, hacc⟩, Except.toOption]

theorem shadedFragments_append (s : DrawSettings) (width height : UInt32)
    (xs ys : List InstanceRecord) :
    s.shadedFragments width height (xs ++ ys) =
      s.shadedFragments width height xs ++ s.shadedFragments width height ys := by
  unfold shadedFragments
  rw [instances_append, List.flatMap_append]

theorem counts_append (s : DrawSettings) (width height : UInt32) (xs ys : List InstanceRecord) :
    s.counts width height (xs ++ ys) = s.counts width height xs + s.counts width height ys := by
  unfold counts
  rw [instances_append, List.flatMap_append, List.length_append, List.countP_append,
    List.countP_append, List.countP_append]
  rfl

theorem target_drawFrom (s : DrawSettings) (d : Drawing) (index : Nat)
    (records : List InstanceRecord) :
    (s.drawFrom d index records).target =
      d.target.blendAll s.blend (s.shadedFragments d.target.width d.target.height records) := by
  induction records generalizing d index with
  | nil => rfl
  | cons record rest ih =>
    have hd := dimensions_drawFrom s d index [record]
    rw [drawFrom, drawFrom] at hd
    rw [drawFrom, ih, hd.1, hd.2, shadedFragments, shadedFragments, instances_cons, drawRecord]
    cases hacc : s.accept record with
    | ok i =>
      simp only [Except.toOption, Option.toList_some, List.cons_append, List.nil_append,
        List.flatMap_cons]
      rw [Target.blendAll_append]
      rfl
    | error reason => rfl

/-- A draw leaves the target with the shaded fragments blended into it in order. -/
theorem target_draw (s : DrawSettings) (t : Target) (records : List InstanceRecord) :
    (s.draw t records).target = t.blendAll s.blend (s.shadedFragments t.width t.height records) :=
  target_drawFrom s { target := t } 0 records

theorem instanceCounts_drawFrom (s : DrawSettings) (d : Drawing) (index : Nat)
    (records : List InstanceRecord) :
    (s.drawFrom d index records).stats.drawn = d.stats.drawn + (s.instances records).length ∧
      (s.drawFrom d index records).stats.skipped =
        d.stats.skipped + records.countP fun record => s.Skips record := by
  induction records generalizing d index with
  | nil => exact ⟨rfl, rfl⟩
  | cons record rest ih =>
    obtain ⟨h1, h2⟩ := ih (s.drawRecord d index record) (index + 1)
    rw [drawFrom, h1, h2, instances_cons, drawRecord]
    cases hacc : s.accept record with
    | ok i =>
      rw [List.countP_cons_of_neg (by simpa using not_skips_of_accept hacc)]
      simp only [Except.toOption, Option.toList_some, List.cons_append, List.nil_append,
        List.length_cons, stats_drawInstance s d i]
      exact ⟨by rw [Nat.add_comm _ 1]; exact Nat.add_assoc _ _ _, rfl⟩
    | error reason =>
      rw [List.countP_cons_of_pos (by simpa using accept_eq_error_iff.mp ⟨reason, hacc⟩),
        Nat.add_comm _ 1]
      exact ⟨rfl, Nat.add_assoc _ _ _⟩

theorem counts_draw (s : DrawSettings) (t : Target) (records : List InstanceRecord) :
    (s.draw t records).stats = s.counts t.width t.height records := by
  obtain ⟨h1, h2⟩ := instanceCounts_drawFrom s { target := t } 0 records
  obtain ⟨h3, h4⟩ := stats_draw s t records
  have e : ∀ a b : DrawStats, a.drawn = b.drawn → a.skipped = b.skipped → a.shaded = b.shaded →
      a.discarded = b.discarded → a = b := by
    rintro ⟨⟩ ⟨⟩ rfl rfl rfl rfl
    rfl
  exact e _ _ (h1.trans (Nat.zero_add _)) (h2.trans (Nat.zero_add _)) h3 h4

theorem skips_drawFrom (s : DrawSettings) (d : Drawing) (index : Nat)
    (records : List InstanceRecord) :
    (s.drawFrom d index records).skips = (s.failures index records).reverse ++ d.skips := by
  induction records generalizing d index with
  | nil => rfl
  | cons record rest ih =>
    rw [drawFrom, ih, failures, failures, List.zipIdx_cons, List.filterMap_cons, drawRecord]
    cases hacc : s.accept record with
    | ok i => simp [hacc, drawInstance]
    | error reason => simp [hacc]

theorem skips_draw (s : DrawSettings) (t : Target) (records : List InstanceRecord) :
    (s.draw t records).skips = s.failures 0 records := by
  have h := skips_drawFrom s { target := t } 0 records
  simp only [List.append_nil] at h
  rw [draw, h, List.reverse_reverse]

/-- The warnings of a draw name the records that it does not accept, each by its place. -/
theorem mem_skips_draw {s : DrawSettings} {t : Target} {records : List InstanceRecord} {k : Nat}
    {reason : SkipReason} :
    (k, reason) ∈ (s.draw t records).skips ↔
      ∃ record, records[k]? = some record ∧ s.accept record = .error reason := by
  rw [skips_draw, failures, List.mem_filterMap]
  constructor
  · rintro ⟨⟨record, j⟩, hmem, h⟩
    cases hacc : s.accept record with
    | ok i => simp [hacc] at h
    | error e =>
      simp only [hacc, Option.some.injEq, Prod.mk.injEq] at h
      obtain ⟨rfl, rfl⟩ := h
      exact ⟨record, List.mk_mem_zipIdx_iff_getElem?.mp hmem, hacc⟩
  · rintro ⟨record, hget, hacc⟩
    exact ⟨(record, k), List.mk_mem_zipIdx_iff_getElem?.mpr hget, by simp [hacc]⟩

/-- Each record is drawn or skipped. -/
theorem length_instances_add_countP (s : DrawSettings) (records : List InstanceRecord) :
    (s.instances records).length + (records.countP fun record => s.Skips record) =
      records.length := by
  unfold instances
  rw [List.length_filterMap_eq_countP, List.length_eq_countP_add_countP _ (l := records)]
  congr 1
  refine List.countP_congr fun record _ => ?_
  cases hacc : s.accept record with
  | ok i => simp [not_skips_of_accept hacc, Except.toOption]
  | error reason => simp [accept_eq_error_iff.mp ⟨reason, hacc⟩, Except.toOption]

/-- Without the records that are skipped nothing but their number changes. -/
theorem counts_kept (s : DrawSettings) (width height : UInt32) (records : List InstanceRecord) :
    s.counts width height (s.kept records) =
      { s.counts width height records with skipped := 0 } := by
  have hnone : ((s.kept records).countP fun record => s.Skips record) = 0 := by
    rw [List.countP_eq_zero]
    intro record hrecord
    simpa using (List.mem_filter.mp hrecord).2
  rw [counts, counts, instances_kept, hnone]

/-- A draw of two lists is a draw of the one and then of the other, counters
added. A record is skipped exactly if one of its indices misses its table or
the pass does not accept what it refers to; leaving out the skipped records
changes neither the target nor the counters of what is drawn, shaded and
discarded; and each record is either drawn or skipped. -/
theorem draw_splits (s : DrawSettings) (t : Target) (xs ys : List InstanceRecord) :
    ((s.draw t (xs ++ ys)).target = (s.draw (s.draw t xs).target ys).target ∧
      (s.draw t (xs ++ ys)).stats = (s.draw t xs).stats + (s.draw (s.draw t xs).target ys).stats) ∧
    ((∀ k, (∃ reason, (k, reason) ∈ (s.draw t xs).skips) ↔
        ∃ record, xs[k]? = some record ∧ s.Skips record) ∧
      (s.draw t xs).stats.skipped = xs.countP fun record => s.Skips record) ∧
    ((s.draw t (s.kept xs)).target = (s.draw t xs).target ∧
      (s.draw t (s.kept xs)).stats = { (s.draw t xs).stats with skipped := 0 }) ∧
    (s.draw t xs).stats.drawn + (s.draw t xs).stats.skipped = xs.length := by
  have hsize : (s.draw t xs).target.width = t.width ∧ (s.draw t xs).target.height = t.height :=
    dimensions_drawFrom s { target := t } 0 xs
  refine ⟨⟨?_, ?_⟩, ⟨?_, ?_⟩, ⟨?_, ?_⟩, ?_⟩
  · rw [target_draw, target_draw s (s.draw t xs).target, hsize.1, hsize.2, shadedFragments_append,
      Target.blendAll_append, target_draw]
  · rw [counts_draw, counts_draw, counts_draw, hsize.1, hsize.2, counts_append]
  · intro k
    simp only [mem_skips_draw, ← accept_eq_error_iff]
    constructor
    · rintro ⟨reason, record, hget, hacc⟩
      exact ⟨record, hget, reason, hacc⟩
    · rintro ⟨record, hget, reason, hacc⟩
      exact ⟨reason, record, hget, hacc⟩
  · rw [counts_draw, counts]
  · rw [target_draw, target_draw, shadedFragments, instances_kept, shadedFragments]
  · rw [counts_draw, counts_draw, counts_kept]
  · rw [counts_draw, counts, length_instances_add_countP]

end DrawSettings

end TileCompositor
