import Mathlib.Algebra.Group.Nat.Defs
import TileCompositor.Proofs.Record.Lookup
/-!
# The tables of a frame as independent lists

A producer works on three tables in any order. Seen by itself, each of them is
a list that takes entries at its end up to its capacity and can be emptied;
`Part` says which steps concern a table, and the other steps leave it alone.
An index that was handed out stays good until its table is emptied, and what
was in a table before that is gone, from its block too.

Results:
* `Part.Holds.edit`, `Part.holds_edits`: the contents of a table after one
  step and after a sequence of them.
* `Part.bounded_of_le`: what follows for one table.
* `tables_are_bounded_lists`: for all three.
-/
namespace TileCompositor

/-! ## One list of bounded length -/

namespace Table
variable {α : Type}

/-- A step that concerns one table. -/
inductive Step (α : Type) where
  | push (entry : α)
  | clear

/-- The contents of a table of the given capacity after a step. A push beyond
the capacity changes nothing. -/
def Step.apply (capacity : Nat) (entries : List α) : Step α → List α
  | .push entry => if entries.length < capacity then entries ++ [entry] else entries
  | .clear => []

/-- The contents after a sequence of steps. -/
def Step.run (capacity : Nat) (entries : List α) (steps : List (Step α)) : List α :=
  steps.foldl (Step.apply capacity) entries

variable {capacity : Nat} {entries : List α}

/-- Emptying forgets everything before it. -/
theorem Step.run_clear (before after : List (Step α)) :
    run capacity entries (before ++ .clear :: after) = run capacity [] after := by
  simp [run, Step.apply]

theorem Step.prefix_apply {step : Step α} (h : step ≠ .clear) :
    entries <+: step.apply capacity entries := by
  cases step with
  | clear => exact absurd rfl h
  | push entry =>
    simp only [Step.apply]
    split
    · exact List.prefix_append _ _
    · exact List.prefix_rfl

/-- As long as the list is not emptied it only grows at its end. -/
theorem Step.prefix_run {steps : List (Step α)} (h : ∀ step ∈ steps, step ≠ .clear) :
    entries <+: run capacity entries steps := by
  induction steps generalizing entries with
  | nil => exact List.prefix_rfl
  | cons step rest ih =>
    obtain ⟨hstep, hrest⟩ := List.forall_mem_cons.mp h
    exact (prefix_apply hstep).trans (ih hrest)

/-- The block of a table is determined by its contents and its capacity. -/
theorem toBlock_congr {t t' : Table α} (hlist : t.toList = t'.toList)
    (hcapacity : t.capacity = t'.capacity) (slot : Nat) (numbers : α → List Float32) :
    t.toBlock slot numbers = t'.toBlock slot numbers := by
  unfold toBlock
  rw [← length_toList, ← length_toList, hlist, hcapacity]

end Table

namespace UniformTables
open Table (Step)

/-! ## The three tables -/

section Settle
variable {α β : Type} (t : UniformTables) (r : Except TableFull (UInt32 × Table β))
  {put : UInt32 × Table β → UInt32 × UniformTables}

/-- A push into one table leaves the others alone. -/
theorem settle_other {table : UniformTables → Table α} (h : ∀ added, table (put added).2 = table t) :
    table (t.settle (r.map put)).2 = table t := by
  cases r with
  | ok added => exact h added
  | error e => rfl

/-- A push is answered by its table. -/
theorem settle_own {table : UniformTables → Table β} (hindex : ∀ added, (put added).1 = added.1)
    (htable : ∀ added, table (put added).2 = added.2) :
    match r with
    | .ok (i, new) =>
      (t.settle (r.map put)).1 = .index i ∧ table (t.settle (r.map put)).2 = new
    | .error err => t.settle (r.map put) = (.full err, t) := by
  cases r with
  | ok added => exact ⟨congrArg Answer.index (hindex added), htable added⟩
  | error e => rfl

end Settle

/-- One of the three tables: where it is, which steps concern it, and how its
entries look in its block. A step that does not concern it leaves it alone, and
one that does is answered by it. -/
structure Part (α : Type) where
  table : UniformTables → Table α
  kind : TableKind
  capacity : TableLimits → Nat
  slot : Nat
  numbers : α → List Float32
  step? : Edit → Option (Step α)
  table_empty : ∀ limits, table (empty limits) = Table.empty kind (capacity limits)
  length_numbers : ∀ entry, (numbers entry).length = slot
  edit_eq : ∀ t e,
    match step? e with
    | none => table (t.edit e).2 = table t
    | some .clear => (t.edit e).1 = .cleared ∧ table (t.edit e).2 = (table t).clear
    | some (.push entry) =>
      match (table t).push entry with
      | .ok (i, new) => (t.edit e).1 = .index i ∧ table (t.edit e).2 = new
      | .error err => t.edit e = (.full err, t)

namespace Part

/-- The transforms. -/
def transforms : Part Mat4 where
  table := UniformTables.transforms
  kind := .transform
  capacity := TableLimits.transforms
  slot := 16
  numbers := Mat4.numbers
  step?
    | .pushTransform m => some (.push m)
    | .clearTransforms | .clear => some .clear
    | _ => none
  table_empty _ := rfl
  length_numbers _ := rfl
  edit_eq t e := by
    cases e with
    | pushTransform m => exact settle_own t _ (fun _ => rfl) fun _ => rfl
    | pushClip c => exact settle_other t _ fun _ => rfl
    | pushTile p => exact settle_other t _ fun _ => rfl
    | clearTransforms | clear => exact ⟨rfl, rfl⟩
    | clearClips | clearTiles => rfl

/-- The clip regions. -/
def clipRects : Part ClipRect where
  table := UniformTables.clipRects
  kind := .clipRect
  capacity := TableLimits.clipRects
  slot := 8
  numbers := ClipRect.numbers
  step?
    | .pushClip c => some (.push c)
    | .clearClips | .clear => some .clear
    | _ => none
  table_empty _ := rfl
  length_numbers _ := rfl
  edit_eq t e := by
    cases e with
    | pushTransform m => exact settle_other t _ fun _ => rfl
    | pushClip c => exact settle_own t _ (fun _ => rfl) fun _ => rfl
    | pushTile p => exact settle_other t _ fun _ => rfl
    | clearClips | clear => exact ⟨rfl, rfl⟩
    | clearTransforms | clearTiles => rfl

/-- The tiles. -/
def tileParams : Part TileParams where
  table := UniformTables.tileParams
  kind := .tileParams
  capacity := TableLimits.tileParams
  slot := 4
  numbers := TileParams.numbers
  step?
    | .pushTile p => some (.push p)
    | .clearTiles | .clear => some .clear
    | _ => none
  table_empty _ := rfl
  length_numbers _ := rfl
  edit_eq t e := by
    cases e with
    | pushTransform m => exact settle_other t _ fun _ => rfl
    | pushClip c => exact settle_other t _ fun _ => rfl
    | pushTile p => exact settle_own t _ (fun _ => rfl) fun _ => rfl
    | clearTiles | clear => exact ⟨rfl, rfl⟩
    | clearTransforms | clearClips => rfl

variable {α : Type} {p : Part α} {limits : TableLimits} {t : UniformTables} {e : Edit}
  {entries : List α} {entry : α}

/-! ## What a step does -/

/-- A table without room for its entry answers the push of one that it is full,
and nothing changes. -/
theorem edit_of_full (hstep : p.step? e = some (.push entry))
    (h : (p.table t).capacity ≤ (p.table t).length) :
    t.edit e = (.full ⟨(p.table t).kind, (p.table t).capacity⟩, t) := by
  have hedit := p.edit_eq t e
  simpa only [hstep, Table.push_of_le _ entry h] using hedit

/-- A table with room answers with its length. -/
theorem edit_of_room (hstep : p.step? e = some (.push entry))
    (h : (p.table t).length < (p.table t).capacity) :
    (t.edit e).1 = .index (p.table t).length.toUInt32 ∧
      (p.table (t.edit e).2).toList = (p.table t).toList ++ [entry] ∧
      (p.table (t.edit e).2).capacity = (p.table t).capacity ∧
      (p.table (t.edit e).2).kind = (p.table t).kind := by
  have hedit := p.edit_eq t e
  obtain ⟨new, hpush, hlist, hcapacity, hkind⟩ := Table.push_of_lt _ entry h
  simp only [hstep, hpush] at hedit
  rw [hedit.2]
  exact ⟨hedit.1, hlist, hcapacity, hkind⟩

/-- The table has its kind, its capacity and these entries. -/
structure Holds (p : Part α) (limits : TableLimits) (t : UniformTables) (entries : List α) : Prop where
  kind_eq : (p.table t).kind = p.kind
  capacity_eq : (p.table t).capacity = p.capacity limits
  toList_eq : (p.table t).toList = entries

theorem Holds.length_eq (h : p.Holds limits t entries) : (p.table t).length = entries.length := by
  rw [← Table.length_toList, h.toList_eq]

theorem Holds.length_le (h : p.Holds limits t entries) : entries.length ≤ p.capacity limits := by
  rw [← h.length_eq, ← h.capacity_eq]
  exact (p.table t).length_le_capacity

/-- The contents that the steps which concern the table make of its entries. -/
def entriesAfter (p : Part α) (limits : TableLimits) (entries : List α) (steps : List Edit) : List α :=
  Step.run (p.capacity limits) entries (steps.filterMap p.step?)

theorem Holds.edit (h : p.Holds limits t entries) (e : Edit) :
    p.Holds limits (t.edit e).2 (p.entriesAfter limits entries [e]) := by
  have hedit := p.edit_eq t e
  cases hstep : p.step? e with
  | none =>
    simp only [hstep] at hedit
    have hlist : p.entriesAfter limits entries [e] = entries := by simp [entriesAfter, hstep, Step.run]
    rw [hlist]
    exact ⟨by rw [hedit, h.kind_eq], by rw [hedit, h.capacity_eq], by rw [hedit, h.toList_eq]⟩
  | some step =>
    cases step with
    | clear =>
      simp only [hstep] at hedit
      have hlist : p.entriesAfter limits entries [e] = [] := by
        simp [entriesAfter, hstep, Step.run, Step.apply]
      rw [hlist]
      exact ⟨by rw [hedit.2]; exact h.kind_eq, by rw [hedit.2]; exact h.capacity_eq, by rw [hedit.2]; rfl⟩
    | push entry =>
      by_cases hroom : entries.length < p.capacity limits
      · have hlist : p.entriesAfter limits entries [e] = entries ++ [entry] := by
          simp [entriesAfter, hstep, Step.run, Step.apply, hroom]
        rw [← h.length_eq, ← h.capacity_eq] at hroom
        obtain ⟨-, hnew, hcapacity, hkind⟩ := edit_of_room hstep hroom
        rw [hlist]
        exact ⟨hkind.trans h.kind_eq, hcapacity.trans h.capacity_eq, by rw [hnew, h.toList_eq]⟩
      · have hlist : p.entriesAfter limits entries [e] = entries := by
          simp [entriesAfter, hstep, Step.run, Step.apply, hroom]
        rw [← h.length_eq, ← h.capacity_eq, Nat.not_lt] at hroom
        rw [hlist, edit_of_full hstep hroom]
        exact h

/-! ## Sequences of steps -/

theorem Holds.edits (h : p.Holds limits t entries) (steps : List Edit) :
    p.Holds limits (t.edits steps) (p.entriesAfter limits entries steps) := by
  induction steps generalizing t entries with
  | nil => exact h
  | cons e rest ih =>
    have hrest := ih (h.edit e)
    have hrun : p.entriesAfter limits entries (e :: rest) =
        p.entriesAfter limits (p.entriesAfter limits entries [e]) rest := by
      simp only [entriesAfter, Step.run, ← List.foldl_append, ← List.filterMap_append,
        List.singleton_append]
    rw [hrun]
    exact hrest

/-- From empty tables on, the contents of a table are what its own steps make
of the empty list. -/
theorem holds_edits (p : Part α) (limits : TableLimits) (steps : List Edit) :
    p.Holds limits ((empty limits).edits steps) (p.entriesAfter limits [] steps) := by
  have hempty : p.Holds limits (empty limits) [] := by
    constructor <;> rw [p.table_empty] <;> rfl
  exact hempty.edits steps

theorem Holds.get_eq_ok_iff (h : p.Holds limits t entries) {i : UInt32} :
    (p.table t).get i = .ok entry ↔ entries[i.toNat]? = some entry := by
  rw [Table.get_eq_ok_iff, h.toList_eq]

theorem Holds.get_eq_error_iff (h : p.Holds limits t entries) {i : UInt32} {err : OutOfRange} :
    (p.table t).get i = .error err ↔ entries.length ≤ i.toNat ∧ err = ⟨p.kind, i, entries.length⟩ := by
  rw [Table.get_eq_error_iff, h.length_eq, h.kind_eq]

/-- An entry is found under its index as long as its table is not emptied. -/
theorem Holds.get_edits (h : p.Holds limits t entries) {i : UInt32} (hi : entries[i.toNat]? = some entry)
    {more : List Edit} (hmore : ∀ e ∈ more, p.step? e ≠ some .clear) :
    (p.table (t.edits more)).get i = .ok entry := by
  have hkept : ∀ step ∈ more.filterMap p.step?, step ≠ .clear := by
    intro step hstep
    obtain ⟨e, he, hstep⟩ := List.mem_filterMap.mp hstep
    rintro rfl
    exact hmore e he hstep
  have hprefix : entries <+: p.entriesAfter limits entries more := Step.prefix_run hkept
  obtain ⟨rest, hrest⟩ := hprefix
  have hlt : i.toNat < entries.length := (List.getElem?_eq_some_iff.mp hi).1
  rw [(h.edits more).get_eq_ok_iff, ← hrest, List.getElem?_append_left hlt]
  exact hi

/-! ## A table by itself -/

/-- What the table shows of the tables `t`, reached by `steps` from empty ones. -/
structure Bounded (p : Part α) (limits : TableLimits) (steps : List Edit) (t : UniformTables) :
    Prop where
  /-- Steps that concern other tables make no difference. -/
  contents : (p.table t).toList = p.entriesAfter limits [] steps
  length_le : (p.table t).length ≤ p.capacity limits
  push_full (e : Edit) (entry : α) (hstep : p.step? e = some (.push entry))
    (hfull : (p.table t).length = p.capacity limits) :
    t.edit e = (.full ⟨p.kind, p.capacity limits⟩, t)
  /-- An entry keeps its index until the table is emptied. -/
  push_room (e : Edit) (entry : α) (hstep : p.step? e = some (.push entry))
    (hroom : (p.table t).length < p.capacity limits) :
    ∃ i t', t.edit e = (.index i, t') ∧ i.toNat = (p.table t).length ∧
      ∀ more : List Edit, (∀ e' ∈ more, p.step? e' ≠ some .clear) →
        (p.table (t'.edits more)).get i = .ok entry
  get_fails (i : UInt32) (err : OutOfRange) :
    (p.table t).get i = .error err ↔
      (p.table t).length ≤ i.toNat ∧ err = ⟨p.kind, i, (p.table t).length⟩
  length_block : ((p.table t).toBlock p.slot p.numbers).length = p.capacity limits
  length_slot (numbers : List Float32) (h : numbers ∈ (p.table t).toBlock p.slot p.numbers) :
    numbers.length = p.slot
  block_eq : (p.table t).toBlock p.slot p.numbers =
    (p.table t).toList.map p.numbers ++
      List.replicate (p.capacity limits - (p.table t).length) (List.replicate p.slot 0.0)
  /-- Nothing is left in the block of what was there before the table was
  emptied. -/
  block_clear (before after : List Edit) (e : Edit) (hsteps : steps = before ++ e :: after)
    (hstep : p.step? e = some .clear) :
    (p.table t).toBlock p.slot p.numbers =
      (p.table ((empty limits).edits after)).toBlock p.slot p.numbers

theorem entriesAfter_clear (p : Part α) (limits : TableLimits) (before after : List Edit)
    (hstep : p.step? e = some .clear) :
    p.entriesAfter limits [] (before ++ e :: after) = p.entriesAfter limits [] after := by
  simp only [entriesAfter, List.filterMap_append, List.filterMap_cons, hstep, Step.run_clear]

/-- The index of a pushed entry is the length before it, as long as lengths
fit into an index. -/
theorem Holds.push_of_room (h : p.Holds limits t entries) (hcap : p.capacity limits ≤ 2 ^ 32)
    (hstep : p.step? e = some (.push entry)) (hroom : entries.length < p.capacity limits) :
    ∃ i t', t.edit e = (.index i, t') ∧ i.toNat = entries.length ∧
      p.Holds limits t' (entries ++ [entry]) := by
  have hlt : (p.table t).length < (p.table t).capacity := by rwa [h.length_eq, h.capacity_eq]
  obtain ⟨hanswer, hlist, hcapacity, hkind⟩ := edit_of_room hstep hlt
  refine ⟨(p.table t).length.toUInt32, (t.edit e).2, Prod.ext hanswer rfl, ?_, ?_⟩
  · rw [h.length_eq]
    exact UInt32.toNat_ofNat_of_lt' (Nat.lt_of_lt_of_le hroom hcap)
  · exact ⟨hkind.trans h.kind_eq, hcapacity.trans h.capacity_eq, by rw [hlist, h.toList_eq]⟩

theorem bounded_of_le (p : Part α) (limits : TableLimits) (hcap : p.capacity limits ≤ 2 ^ 32)
    (steps : List Edit) : p.Bounded limits steps ((empty limits).edits steps) := by
  have h := p.holds_edits limits steps
  refine ⟨h.toList_eq, ?length_le, ?push_full, ?push_room, ?get_fails, ?length_block, ?length_slot,
    ?block_eq, ?block_clear⟩
  case length_le =>
    rw [h.length_eq]
    exact h.length_le
  case push_full =>
    intro e entry hstep hfull
    have hedit := edit_of_full hstep (Nat.le_of_eq (h.capacity_eq.trans hfull.symm))
    rwa [h.kind_eq, h.capacity_eq] at hedit
  case push_room =>
    intro e entry hstep hroom
    rw [h.length_eq] at hroom
    obtain ⟨i, t', hedit, hi, hnew⟩ := h.push_of_room hcap hstep hroom
    refine ⟨i, t', hedit, hi.trans h.length_eq.symm, ?_⟩
    intro more hmore
    refine hnew.get_edits ?_ hmore
    rw [hi, List.getElem?_concat_length]
  case get_fails =>
    intro i err
    rw [h.get_eq_error_iff, h.length_eq]
  case length_block => rw [Table.length_toBlock, h.capacity_eq]
  case length_slot =>
    intro numbers hmem
    simp only [Table.toBlock, List.mem_append, List.mem_map, List.mem_replicate] at hmem
    obtain ⟨entry, -, rfl⟩ | ⟨-, rfl⟩ := hmem
    · exact p.length_numbers entry
    · exact List.length_replicate
  case block_eq => rw [Table.toBlock, h.capacity_eq]
  case block_clear =>
    intro before after e hsteps hstep
    have hafter := p.holds_edits limits after
    apply Table.toBlock_congr
    · rw [h.toList_eq, hafter.toList_eq, hsteps, entriesAfter_clear p limits before after hstep]
    · rw [h.capacity_eq, hafter.capacity_eq]

end Part

/-! ## All three tables -/

/-- Each of the three tables of a frame is a list of bounded length that the
steps on the other two do not reach. -/
theorem tables_are_bounded_lists (limits : TableLimits) (htransforms : limits.transforms ≤ 2 ^ 32)
    (hclips : limits.clipRects ≤ 2 ^ 32) (htiles : limits.tileParams ≤ 2 ^ 32)
    (steps : List Edit) :
    Part.transforms.Bounded limits steps ((empty limits).edits steps) ∧
      Part.clipRects.Bounded limits steps ((empty limits).edits steps) ∧
      Part.tileParams.Bounded limits steps ((empty limits).edits steps) := by
  refine ⟨?_, ?_, ?_⟩
  · exact Part.transforms.bounded_of_le limits htransforms steps
  · exact Part.clipRects.bounded_of_le limits hclips steps
  · exact Part.tileParams.bounded_of_le limits htiles steps

/-- Room for one transform and two clip regions, none for tiles. -/
def narrowLimits : TableLimits := ⟨1, 2, 0⟩

/-- A transform is found under the index it was given, although its table
turned another one away and the clip regions were emptied since. -/
theorem narrow_transform_found :
    ∃ i t', ((empty narrowLimits).edits [.pushClip .empty]).edit (.pushTransform Mat4.identity) =
        (.index i, t') ∧
      i.toNat = 0 ∧
      (t'.edits [.pushClip .empty, .pushTransform default, .clearClips]).transforms.get i =
        .ok Mat4.identity := by
  obtain ⟨htransforms, -, -⟩ := tables_are_bounded_lists narrowLimits (by decide) (by decide)
    (by decide) [.pushClip .empty]
  obtain ⟨i, t', hedit, hi, hget⟩ := htransforms.push_room (.pushTransform Mat4.identity)
    Mat4.identity rfl (by decide)
  refine ⟨i, t', hedit, hi, ?_⟩
  refine hget [.pushClip .empty, .pushTransform default, .clearClips] ?_
  simp [Part.transforms]

end UniformTables
end TileCompositor
