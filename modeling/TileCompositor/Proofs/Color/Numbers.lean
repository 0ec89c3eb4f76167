import TileCompositor.Color.Basic
import TileCompositor.Proofs.Binary32.Error
import TileCompositor.Proofs.Binary32.UnitInterval
/-!
# Colours as numbers

A colour compares, is finite and lies between zero and one channel by channel,
and so what its channels stand for is said channel by channel too.

Results:
* `beq_iff`, `isFinite_iff`: comparison and finiteness.
* `exists_denotes`, `Denotes.beq`, `Denotes.of_beq`: the numbers of a colour.
* `InUnit.isFinite`: colours between zero and one.
* `Close.refl`, `Close.of_beq`: colours that differ by an error.
-/
namespace TileCompositor
open Binary32

namespace Color

/-- Every channel lies between zero and one. -/
structure InUnit (c : Color) : Prop where
  r : Scalar.InUnit c.r
  g : Scalar.InUnit c.g
  b : Scalar.InUnit c.b
  a : Scalar.InUnit c.a

instance (c : Color) : Decidable c.InUnit :=
  decidable_of_iff (Scalar.InUnit c.r ∧ Scalar.InUnit c.g ∧ Scalar.InUnit c.b ∧ Scalar.InUnit c.a)
    ⟨fun ⟨r, g, b, a⟩ => ⟨r, g, b, a⟩, fun ⟨r, g, b, a⟩ => ⟨r, g, b, a⟩⟩

theorem beq_iff {c d : Color} :
    (c == d) = true ↔
      (c.r == d.r) = true ∧ (c.g == d.g) = true ∧ (c.b == d.b) = true ∧ (c.a == d.a) = true := by
  show (c.r == d.r && (c.g == d.g && (c.b == d.b && c.a == d.a))) = true ↔ _
  simp only [Bool.and_eq_true]

theorem isFinite_iff {c : Color} :
    c.isFinite = true ↔
      c.r.isFinite = true ∧ c.g.isFinite = true ∧ c.b.isFinite = true ∧ c.a.isFinite = true := by
  simp only [Color.isFinite, Bool.and_eq_true, and_assoc]

theorem InUnit.isFinite {c : Color} (h : c.InUnit) : c.isFinite = true := by
  have hfinite {x : Float32} (hx : Scalar.InUnit x) : x.isFinite = true := by
    obtain ⟨q, hq⟩ := inUnit_iff.mp hx
    exact hq.denotes.isFinite
  exact isFinite_iff.mpr ⟨hfinite h.r, hfinite h.g, hfinite h.b, hfinite h.a⟩

theorem InUnit.beq_self {c : Color} (h : c.InUnit) : (c == c) = true := by
  have hself {x : Float32} (hx : Scalar.InUnit x) : (x == x) = true := by
    obtain ⟨q, hq⟩ := inUnit_iff.mp hx
    exact hq.denotes.beq hq.denotes
  exact beq_iff.mpr ⟨hself h.r, hself h.g, hself h.b, hself h.a⟩

/-! ## The numbers of a colour -/

/-- The channels of `c` are finite and stand for these numbers. -/
structure Denotes (c : Color) (r g b a : ℚ) : Prop where
  r : Binary32.Denotes c.r r
  g : Binary32.Denotes c.g g
  b : Binary32.Denotes c.b b
  a : Binary32.Denotes c.a a

/-- Every channel of `c` is finite and within `ε` of that of `d`. -/
structure Close (c d : Color) (ε : ℚ) : Prop where
  r : ∃ q, Binary32.Denotes d.r q ∧ Near c.r q ε
  g : ∃ q, Binary32.Denotes d.g q ∧ Near c.g q ε
  b : ∃ q, Binary32.Denotes d.b q ∧ Near c.b q ε
  a : ∃ q, Binary32.Denotes d.a q ∧ Near c.a q ε

section Denotes
variable {c d : Color} {r g b a : ℚ}

theorem exists_denotes (h : c.isFinite = true) : ∃ r g b a, c.Denotes r g b a := by
  obtain ⟨hr, hg, hb, ha⟩ := isFinite_iff.mp h
  obtain ⟨r, hr⟩ := Binary32.isFinite_iff.mp hr
  obtain ⟨g, hg⟩ := Binary32.isFinite_iff.mp hg
  obtain ⟨b, hb⟩ := Binary32.isFinite_iff.mp hb
  obtain ⟨a, ha⟩ := Binary32.isFinite_iff.mp ha
  exact ⟨r, g, b, a, hr, hg, hb, ha⟩

theorem Denotes.of_beq (hd : d.Denotes r g b a) (h : (c == d) = true) : c.Denotes r g b a := by
  obtain ⟨hr, hg, hb, ha⟩ := beq_iff.mp h
  exact ⟨.of_beq hd.r hr, .of_beq hd.g hg, .of_beq hd.b hb, .of_beq hd.a ha⟩

theorem Denotes.beq (hc : c.Denotes r g b a) (hd : d.Denotes r g b a) : (c == d) = true :=
  beq_iff.mpr ⟨hc.r.beq hd.r, hc.g.beq hd.g, hc.b.beq hd.b, hc.a.beq hd.a⟩

end Denotes

section Close
variable {c d e : Color} {ε δ : ℚ}

theorem Close.refl (h : c.isFinite = true) (hε : 0 ≤ ε) : c.Close c ε := by
  obtain ⟨r, g, b, a, hc⟩ := exists_denotes h
  exact ⟨⟨r, hc.r, hc.r.near.mono hε⟩, ⟨g, hc.g, hc.g.near.mono hε⟩, ⟨b, hc.b, hc.b.near.mono hε⟩,
    ⟨a, hc.a, hc.a.near.mono hε⟩⟩

theorem Close.mono (h : c.Close d ε) (hle : ε ≤ δ) : c.Close d δ := by
  obtain ⟨⟨r, hr, hnr⟩, ⟨g, hg, hng⟩, ⟨b, hb, hnb⟩, ⟨a, ha, hna⟩⟩ := h
  exact ⟨⟨r, hr, hnr.mono hle⟩, ⟨g, hg, hng.mono hle⟩, ⟨b, hb, hnb.mono hle⟩, ⟨a, ha, hna.mono hle⟩⟩

/-- Colours that compare as equal are equally close. -/
theorem Close.of_beq (h : d.Close e ε) (hc : (c == d) = true) : c.Close e ε := by
  obtain ⟨⟨r, hr, hnr⟩, ⟨g, hg, hng⟩, ⟨b, hb, hnb⟩, ⟨a, ha, hna⟩⟩ := h
  obtain ⟨er, eg, eb, ea⟩ := beq_iff.mp hc
  exact ⟨⟨r, hr, hnr.of_beq er⟩, ⟨g, hg, hng.of_beq eg⟩, ⟨b, hb, hnb.of_beq eb⟩, ⟨a, ha, hna.of_beq ea⟩⟩

end Close

end Color

end TileCompositor
