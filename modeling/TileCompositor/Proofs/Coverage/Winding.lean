import TileCompositor.Proofs.Coverage.Runs
import TileCompositor.Proofs.Coverage.Weights
/-!
# Triangles in either sense

A mirrored quad hands over its triangles counter-clockwise, and they are turned
round before they are covered. The area of the turned vertices is the difference
of the same two products the other way round, so after all roundings it is
exactly the negative of the area before, or not finite like it. Both senses
therefore wind to one triangle, and what is made of the triangle is the same.

Results:
* `denotes_edge_turned`, `isFinite_edge_turned`: the area of the turned vertices.
* `Triangle.wind?_turned`: both senses wind to one triangle.
* `drawInstance_eq`: an instance is drawn triangle by triangle.
* `drawTriangle_turned`: coverage, weights and what a draw adds, in either sense.
-/
namespace TileCompositor
open Binary32

/-! ## The area -/

theorem edge_turned (a b c : Vec2) :
    edge a c b = (b.y - a.y) * (c.x - a.x) - (b.x - a.x) * (c.y - a.y) := by
  rw [edge, mul_comm_eq (c.x - a.x), mul_comm_eq (c.y - a.y)]

section Area
variable {a b c : Vec2}

/-- Turning a triangle round changes the sign of its area and nothing else. -/
theorem denotes_edge_turned {area : ℚ} (h : Denotes (edge a b c) area) :
    Denotes (edge a c b) (-area) := by
  rw [edge_turned]
  exact h.sub_swap

theorem isFinite_edge_turned : (edge a c b).isFinite = (edge a b c).isFinite := by
  have hturn {u v : Vec2} (h : (edge a u v).isFinite = true) : (edge a v u).isFinite = true := by
    obtain ⟨area, harea⟩ := isFinite_iff.mp h
    exact (denotes_edge_turned harea).isFinite
  exact Bool.eq_iff_iff.mpr ⟨hturn, hturn⟩

end Area

/-! ## One triangle for both senses -/

namespace Triangle

theorem wind?_of_zero {a b c : PlacedVertex} (h : Denotes (edge a.position b.position c.position) 0) :
    wind? a b c = none := by
  have hzero : (edge a.position b.position c.position == 0.0) = true := h.beq denotes_zero
  simp [wind?, hzero]

/-- Vertices with a positive area are left as they are, and turned vertices are turned back. -/
theorem wind?_turned_of_pos {a b c : PlacedVertex} {area : ℚ}
    (h : Denotes (edge a.position b.position c.position) area) (hpos : 0 < area) :
    wind? a c b = wind? a b c := by
  have hturned := denotes_edge_turned h
  have harea : -edge a.position c.position b.position = edge a.position b.position c.position := by
    have hback := hturned.neg
    rw [neg_neg] at hback
    exact hback.eq h hpos.ne'
  rw [wind?_of_pos h hpos, wind?_of_neg hturned (neg_neg_of_pos hpos), harea]

theorem wind?_turned (a b c : PlacedVertex) : wind? a c b = wind? a b c := by
  cases hfin : (edge a.position b.position c.position).isFinite with
  | false => rw [wind?_of_not_finite hfin, wind?_of_not_finite (isFinite_edge_turned.trans hfin)]
  | true =>
    obtain ⟨area, h⟩ := isFinite_iff.mp hfin
    have hturned := denotes_edge_turned h
    rcases lt_trichotomy area 0 with hneg | rfl | hpos
    · exact (wind?_turned_of_pos hturned (neg_pos_of_neg hneg)).symm
    · rw [neg_zero] at hturned
      rw [wind?_of_zero h, wind?_of_zero hturned]
    · exact wind?_turned_of_pos h hpos

end Triangle

theorem triangleFragments_turned (a b c : Vertex) (width height : UInt32) :
    triangleFragments a c b width height = triangleFragments a b c width height := by
  simp only [triangleFragments, Triangle.wind?_turned _ (b.place _ _)]

theorem triangleWeightsAt_turned (a b c : Vertex) (width height : UInt32) (x y : Nat) :
    triangleWeightsAt a c b width height x y = triangleWeightsAt a b c width height x y := by
  simp only [triangleWeightsAt, Triangle.wind?_turned _ (b.place _ _)]

/-! ## Drawing one triangle -/

namespace DrawSettings

/-- The drawing with fragments shaded and blended in. -/
def addFragments (s : DrawSettings) (flat : FlatVaryings) (d : Drawing) (fragments : List Fragment) :
    Drawing :=
  let shaded := s.shadeAll flat fragments
  { target := d.target.blendAll s.blend shaded
    stats := d.stats + { shaded := shaded.length, discarded := fragments.length - shaded.length }
    skips := d.skips }

/-- The drawing with the triangle of three vertices added.
mirrors `raster_triangle`, raster/mod:99-159 -/
def drawTriangle (s : DrawSettings) (flat : FlatVaryings) (d : Drawing) (a b c : Vertex) : Drawing :=
  s.addFragments flat d (triangleFragments a b c d.target.width d.target.height)

/-- The drawing with one half of a quad added. -/
def drawHalf (s : DrawSettings) (d : Drawing) (i : ResolvedInstance) (half : Half) : Drawing :=
  let (a, b, c) := i.triangle half s.frame
  s.drawTriangle i.flat d a b c

theorem addFragments_append (s : DrawSettings) (flat : FlatVaryings) (d : Drawing)
    (xs ys : List Fragment) :
    s.addFragments flat d (xs ++ ys) = s.addFragments flat (s.addFragments flat d xs) ys := by
  have hle (l : List Fragment) : (s.shadeAll flat l).length ≤ l.length := List.length_filterMap_le _ _
  have hshaded : s.shadeAll flat (xs ++ ys) = s.shadeAll flat xs ++ s.shadeAll flat ys :=
    List.filterMap_append
  have hcounts (n k k' m m' : Nat) (h : k ≤ m) (h' : k' ≤ m') :
      n + (m + m' - (k + k')) = n + (m - k) + (m' - k') := by omega
  rw [addFragments, hshaded, Target.blendAll_append, List.length_append, List.length_append]
  simp only [addFragments, Drawing.mk.injEq, true_and, and_true]
  change DrawStats.mk _ _ _ _ = DrawStats.mk _ _ _ _
  rw [DrawStats.mk.injEq]
  exact ⟨rfl, rfl, (Nat.add_assoc _ _ _).symm, hcounts _ _ _ _ _ (hle xs) (hle ys)⟩

/-- An instance is drawn by drawing its triangles, the one at the top left first, and is counted
once. -/
theorem drawInstance_eq (s : DrawSettings) (d : Drawing) (i : ResolvedInstance) :
    s.drawInstance d i =
      let drawn := s.drawHalf (s.drawHalf d i .topLeft) i .bottomRight
      { drawn with stats := drawn.stats + { drawn := 1 } } := by
  have hdim : (s.drawHalf d i .topLeft).target.width = d.target.width ∧
      (s.drawHalf d i .topLeft).target.height = d.target.height := width_foldl_blendPixel _ _ _
  have hsecond : s.drawHalf (s.drawHalf d i .topLeft) i .bottomRight =
      s.addFragments i.flat (s.drawHalf d i .topLeft)
        (let (a, b, c) := i.triangle .bottomRight s.frame
         triangleFragments a b c d.target.width d.target.height) := by
    rw [← hdim.1, ← hdim.2]
    rfl
  have hhalves : s.addFragments i.flat d (i.fragments s.frame d.target.width d.target.height) =
      s.drawHalf (s.drawHalf d i .topLeft) i .bottomRight := by
    rw [ResolvedInstance.fragments, List.flatMap_cons, List.flatMap_singleton, addFragments_append,
      hsecond]
    rfl
  rw [← hhalves]
  rfl

/-- Three vertices are drawn alike in either sense: they have the same weights at every pixel, the same
fragments, and what a draw makes of them is the same in the target and in the counters. -/
theorem drawTriangle_turned (a b c : Vertex) :
    (∀ width height x y,
        triangleWeightsAt a c b width height x y = triangleWeightsAt a b c width height x y) ∧
      (∀ width height, triangleFragments a c b width height = triangleFragments a b c width height) ∧
      ∀ (s : DrawSettings) (flat : FlatVaryings) (d : Drawing),
        s.drawTriangle flat d a c b = s.drawTriangle flat d a b c := by
  refine ⟨triangleWeightsAt_turned a b c, triangleFragments_turned a b c, fun s flat d => ?_⟩
  rw [drawTriangle, drawTriangle, triangleFragments_turned]

end DrawSettings

end TileCompositor
