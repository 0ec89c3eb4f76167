import TileCompositor.Coverage.Triangle
import TileCompositor.Proofs.Scalar.Whole
/-!
# The fragments of a triangle, pixel by pixel

A draw lists the fragments of a triangle by walking its box. Seen from a
pixel there is at most one of them, `triangleFragmentAt`, and the list is that
of these fragments over the whole target, row by row.

The size of the target is taken as a float, which rounds it from 2^24 on; the
columns and rows that a box can contain are those below `reach`.

Results:
* `triangleFragments_eq`, `fragments_eq`: the fragments of a triangle and of a quad.
* `triangle_of_fragmentAt`: what a fragment says of its triangle.
* `filter_fragments`: those at one pixel.
* `count_fragments`: how many there are.
-/
namespace TileCompositor
open Binary32

/-! ## Pixels in row order -/

namespace PixelBox

def Contains (b : PixelBox) (x y : Nat) : Prop :=
  (b.left ≤ x ∧ x < b.right) ∧ b.top ≤ y ∧ y < b.bottom

instance (b : PixelBox) (x y : Nat) : Decidable (b.Contains x y) :=
  inferInstanceAs (Decidable (_ ∧ _))

/-- The order in which pixels are visited. -/
def RowOrder (p q : Nat × Nat) : Prop := p.2 < q.2 ∨ p.2 = q.2 ∧ p.1 < q.1

theorem pairwise_pixels (b : PixelBox) : b.pixels.Pairwise RowOrder := by
  rw [pixels, List.pairwise_flatMap]
  constructor
  · intro y _
    exact List.pairwise_map.mpr ((List.pairwise_lt_range' 1).imp fun h => .inr ⟨rfl, h⟩)
  · refine (List.pairwise_lt_range' 1).imp fun {y y'} h => ?_
    simp only [List.mem_map]
    rintro _ ⟨x, -, rfl⟩ _ ⟨x', -, rfl⟩
    exact .inl h

theorem nodup_of_rowOrder {l : List (Nat × Nat)} (h : l.Pairwise RowOrder) : l.Nodup :=
  h.imp fun {p q} hpq he => by
    subst he
    rcases hpq with h | ⟨-, h⟩ <;> exact absurd h (Nat.lt_irrefl _)

theorem nodup_pixels (b : PixelBox) : b.pixels.Nodup := nodup_of_rowOrder b.pairwise_pixels

/-- Lists of the same pixels in row order are equal. -/
theorem eq_of_rowOrder {l l' : List (Nat × Nat)} (h : l.Pairwise RowOrder) (h' : l'.Pairwise RowOrder)
    (hmem : ∀ p, p ∈ l ↔ p ∈ l') : l = l' := by
  refine List.Perm.eq_of_pairwise ?_ h h'
    ((List.perm_ext_iff_of_nodup (nodup_of_rowOrder h) (nodup_of_rowOrder h')).mpr hmem)
  intro p q _ _ hpq hqp
  unfold RowOrder at hpq hqp
  omega

/-- The pixels of a box are found by visiting those of a larger one. -/
theorem pixels_eq_filter {b c : PixelBox} (h : ∀ x y, b.Contains x y → c.Contains x y) :
    b.pixels = c.pixels.filter fun p => b.Contains p.1 p.2 := by
  refine eq_of_rowOrder b.pairwise_pixels (c.pairwise_pixels.filter _) fun ⟨x, y⟩ => ?_
  rw [List.mem_filter, decide_eq_true_eq]
  exact ⟨fun hp => ⟨mem_pixels.mpr (h x y (mem_pixels.mp hp)), mem_pixels.mp hp⟩,
    fun hp => mem_pixels.mpr hp.2⟩

end PixelBox

/-! ## The target -/

/-- The number of columns or rows that a draw reaches, of a side of `n` pixels. -/
def reach (n : UInt32) : Nat := n.toFloat32.toUInt32.toNat

theorem reach_eq_min (n : UInt32) : reach n = min ⌊nearest n.toNat⌋₊ (2 ^ 32 - 1) :=
  (denotes_toFloat32 n).toNat_toUInt32

/-- Sides that a float holds exactly are reached to their end. -/
theorem reach_of_exact {n : UInt32} (h : Denotes n.toFloat32 n.toNat) : reach n = n.toNat := by
  have hlt := n.toNat_lt
  rw [reach, h.toNat_toUInt32, Nat.floor_natCast]
  omega

theorem reach_eq {n : UInt32} (h : n.toNat ≤ 2 ^ 24) : reach n = n.toNat :=
  reach_of_exact (denotes_toFloat32_of_le h)

/-- The pixels that a draw reaches. -/
def targetBox (width height : UInt32) : PixelBox := ⟨0, 0, reach width, reach height⟩

/-! ## Fragments at a pixel -/

/-- The fragment that three vertices have at a pixel of a target, if they
cover it. -/
def triangleFragmentAt (a b c : Vertex) (width height : UInt32) (x y : Nat) : Option Fragment := do
  let w := width.toFloat32
  let h := height.toFloat32
  let t ← Triangle.wind? (a.place w h) (b.place w h) (c.place w h)
  let box ← t.box? w h
  if box.Contains x y then t.fragmentAt x y else none

/-- The fragment that one half of a quad has at a pixel, if it covers it. -/
def ResolvedInstance.fragmentAt (i : ResolvedInstance) (half : Half) (frame : FrameUniforms)
    (width height : UInt32) (x y : Nat) : Option Fragment :=
  let (a, b, c) := i.triangle half frame
  triangleFragmentAt a b c width height x y

/-- No box leaves the target. -/
theorem Triangle.box_subset {t : Triangle} {width height : UInt32} {box : PixelBox}
    (h : t.box? width.toFloat32 height.toFloat32 = some box) (x y : Nat) (hb : box.Contains x y) :
    (targetBox width height).Contains x y := by
  unfold Triangle.box? at h
  simp only at h
  split at h
  · cases h
  · cases h
    obtain ⟨⟨-, hx⟩, -, hy⟩ := hb
    exact ⟨⟨Nat.zero_le x, hx.trans_le (Scalar.toNat_toUInt32_minNum_le _ (denotes_toFloat32 width))⟩,
      Nat.zero_le y, hy.trans_le (Scalar.toNat_toUInt32_minNum_le _ (denotes_toFloat32 height))⟩

theorem triangleFragments_eq (a b c : Vertex) (width height : UInt32) :
    triangleFragments a b c width height =
      (targetBox width height).pixels.filterMap fun (x, y) =>
        triangleFragmentAt a b c width height x y := by
  simp only [triangleFragments, triangleFragmentAt]
  cases hwind : Triangle.wind? (a.place width.toFloat32 height.toFloat32)
      (b.place width.toFloat32 height.toFloat32) (c.place width.toFloat32 height.toFloat32) with
  | none => simp
  | some t =>
    simp only [Triangle.fragments, Option.bind_eq_bind, Option.bind_some]
    cases hbox : t.box? width.toFloat32 height.toFloat32 with
    | none => simp
    | some box =>
      simp only [Option.bind_some]
      rw [PixelBox.pixels_eq_filter (Triangle.box_subset hbox), List.filterMap_filter]
      simp only [decide_eq_true_eq]

theorem ResolvedInstance.fragments_eq (i : ResolvedInstance) (frame : FrameUniforms)
    (width height : UInt32) :
    i.fragments frame width height = [Half.topLeft, .bottomRight].flatMap fun half =>
      (targetBox width height).pixels.filterMap fun (x, y) =>
        i.fragmentAt half frame width height x y := by
  unfold ResolvedInstance.fragments ResolvedInstance.fragmentAt
  simp only [triangleFragments_eq]

/-! ## The fragments at one pixel -/

theorem Triangle.fragmentAt_place {t : Triangle} {x y : Nat} {f : Fragment} (h : t.fragmentAt x y = some f) :
    f.x = x ∧ f.y = y := by
  unfold Triangle.fragmentAt at h
  obtain ⟨w, -, rfl⟩ := Option.map_eq_some_iff.mp h
  exact ⟨rfl, rfl⟩

/-- A fragment that three vertices have is that of the triangle they wind to,
at a pixel in its box. -/
theorem triangle_of_fragmentAt {a b c : Vertex} {width height : UInt32} {x y : Nat} {f : Fragment}
    (h : triangleFragmentAt a b c width height x y = some f) :
    ∃ t, Triangle.wind? (a.place width.toFloat32 height.toFloat32)
        (b.place width.toFloat32 height.toFloat32) (c.place width.toFloat32 height.toFloat32) = some t ∧
      (∃ box, t.box? width.toFloat32 height.toFloat32 = some box ∧ box.Contains x y) ∧
      t.fragmentAt x y = some f := by
  simp only [triangleFragmentAt, Option.bind_eq_bind, Option.bind_eq_some_iff] at h
  obtain ⟨t, ht, box, hbox, hf⟩ := h
  split at hf
  · next hc => exact ⟨t, ht, ⟨box, hbox, hc⟩, hf⟩
  · cases hf

/-- Of the values that a function has along a list of pixels, those that belong to one pixel. -/
theorem filter_filterMap_place {g : Nat × Nat → Option Fragment}
    (hg : ∀ p f, g p = some f → (f.x, f.y) = p) {l : List (Nat × Nat)} (hl : l.Nodup)
    (p : Nat × Nat) :
    (l.filterMap g).filter (fun f => (f.x, f.y) = p) = if p ∈ l then (g p).toList else [] := by
  induction l with
  | nil => rfl
  | cons q rest ih =>
    obtain ⟨hq, hrest⟩ := List.nodup_cons.mp hl
    have ih := ih hrest
    rw [List.filterMap_cons]
    by_cases hpq : p = q
    · subst hpq
      rw [if_neg hq] at ih
      rw [if_pos List.mem_cons_self]
      cases hp : g p with
      | none => simpa using ih
      | some f =>
        rw [List.filter_cons_of_pos (by simpa using hg p f hp), ih]
        rfl
    · have hmem : (p ∈ q :: rest) ↔ p ∈ rest := by simp [hpq]
      simp only [hmem]
      cases hf : g q with
      | none => exact ih
      | some f =>
        rw [List.filter_cons_of_neg (by rw [hg q f hf]; simpa using Ne.symm hpq)]
        exact ih

theorem ResolvedInstance.fragmentAt_place {i : ResolvedInstance} {half : Half} {frame : FrameUniforms}
    {width height : UInt32} {x y : Nat} {f : Fragment}
    (h : i.fragmentAt half frame width height x y = some f) :
    (f.x, f.y) = (x, y) := by
  obtain ⟨t, -, -, hf⟩ := triangle_of_fragmentAt h
  obtain ⟨hx, hy⟩ := t.fragmentAt_place hf
  rw [hx, hy]

/-- No fragment lies outside the part of the target that a draw reaches. -/
theorem ResolvedInstance.fragmentAt_contains {i : ResolvedInstance} {half : Half}
    {frame : FrameUniforms} {width height : UInt32} {x y : Nat} {f : Fragment}
    (h : i.fragmentAt half frame width height x y = some f) :
    (targetBox width height).Contains x y := by
  obtain ⟨t, -, ⟨box, hbox, hc⟩, -⟩ := triangle_of_fragmentAt h
  exact Triangle.box_subset hbox x y hc

/-- Every fragment of a quad is that of one of its triangles. -/
theorem ResolvedInstance.exists_fragmentAt {i : ResolvedInstance} {frame : FrameUniforms}
    {width height : UInt32} {f : Fragment} (hf : f ∈ i.fragments frame width height) :
    ∃ half, i.fragmentAt half frame width height f.x f.y = some f := by
  rw [fragments_eq, List.mem_flatMap] at hf
  obtain ⟨half, -, hf⟩ := hf
  obtain ⟨⟨x, y⟩, -, hf⟩ := List.mem_filterMap.mp hf
  obtain ⟨rfl, rfl⟩ := Prod.mk.inj (fragmentAt_place hf)
  exact ⟨half, hf⟩

/-- The fragments of a quad lie within reach. -/
theorem ResolvedInstance.contains_of_mem_fragments {i : ResolvedInstance} {frame : FrameUniforms}
    {width height : UInt32} {f : Fragment} (hf : f ∈ i.fragments frame width height) :
    (targetBox width height).Contains f.x f.y := by
  obtain ⟨half, hf⟩ := exists_fragmentAt hf
  exact fragmentAt_contains hf

/-- The fragments of a quad at a pixel are those of its halves. -/
theorem ResolvedInstance.filter_fragments (i : ResolvedInstance) (frame : FrameUniforms)
    (width height : UInt32) (x y : Nat) :
    (i.fragments frame width height).filter (fun f => (f.x, f.y) = (x, y)) =
      [Half.topLeft, .bottomRight].flatMap fun half =>
        (i.fragmentAt half frame width height x y).toList := by
  have hhalf (half : Half) :
      ((targetBox width height).pixels.filterMap fun (x, y) =>
          i.fragmentAt half frame width height x y).filter (fun f => (f.x, f.y) = (x, y)) =
        (i.fragmentAt half frame width height x y).toList := by
    rw [filter_filterMap_place (fun _ _ h => fragmentAt_place h) (PixelBox.nodup_pixels _)]
    split
    · rfl
    · next hout =>
      cases hf : i.fragmentAt half frame width height x y with
      | none => rfl
      | some f => exact absurd (PixelBox.mem_pixels.mpr (fragmentAt_contains hf)) hout
  rw [fragments_eq]
  simp only [List.flatMap_cons, List.flatMap_nil, List.filter_append, hhalf, List.append_nil]

/-- A quad has as many fragments at a pixel as it has triangles that cover it. -/
theorem ResolvedInstance.count_fragments (i : ResolvedInstance) (frame : FrameUniforms)
    (width height : UInt32) (x y : Nat) :
    (i.fragments frame width height).countP (fun f => (f.x, f.y) = (x, y)) =
      (i.fragmentAt .topLeft frame width height x y).isSome.toNat +
        (i.fragmentAt .bottomRight frame width height x y).isSome.toNat := by
  rw [List.countP_eq_length_filter, i.filter_fragments, List.flatMap_cons, List.flatMap_singleton]
  cases i.fragmentAt .topLeft frame width height x y <;>
    cases i.fragmentAt .bottomRight frame width height x y <;> rfl

end TileCompositor
