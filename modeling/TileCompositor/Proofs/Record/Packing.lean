import TileCompositor.Proofs.Scalar.Whole
import TileCompositor.Record.Misc
/-!
# Table indices packed as floats

An index is packed by rounding it to a float and unpacked by cutting the
fraction off, saturating at both ends. The whole numbers up to 2^24 are floats,
so they come back; above, only those do that are floats themselves, and the
largest word, which is rounded up to 2^32 and cut down again. What
unpacking gives is always stable, so packing loses nothing of it. The flag has
the sign bit of the fourth number to itself, since no index is negative: it is
kept on zero and told from NaN too.

Results:
* `stable_of_le`, `stable_toUInt32`: the indices that come back.
* `MiscIndices.unpack_pack`: what is packed is unpacked again.
* `PackedIndices.SameIndices.unpack`: words that differ in the flag alone.
* `PackedIndices.codec_lossless`: both ways through the codec.
-/
namespace TileCompositor
open Binary32
open Float.Model (Format)
open Float.Model.UnpackedFloat

/-! ## Stable indices -/

/-- An index that is unpacked as it was packed. -/
def StableIndex (n : UInt32) : Prop := indexOfWord (wordOfIndex n) = n

/-- Values of the same number are unpacked alike. -/
theorem toUInt32_congr {x y : Float32} {q : ℚ} (hx : Denotes x q) (hy : Denotes y q) :
    x.toUInt32 = y.toUInt32 := by
  apply UInt32.toNat_inj.mp
  rw [hx.toNat_toUInt32, hy.toNat_toUInt32]

theorem stable_iff {n : UInt32} : StableIndex n ↔ n.toFloat32.toUInt32 = n := by
  rw [StableIndex, indexOfWord, wordOfIndex, Float32.ofBits_toBits]

/-- An index that is a float is stable. -/
theorem stable_of_representable {n : UInt32} (h : Representable n.toNat) : StableIndex n := by
  rw [stable_iff]
  have hn : Denotes n.toFloat32 n.toNat := by
    have := denotes_toFloat32 n
    rwa [nearest_of_representable h] at this
  have hlt := n.toNat_lt
  apply UInt32.toNat_inj.mp
  rw [hn.toNat_toUInt32, Nat.floor_natCast]
  omega

theorem stable_of_le {n : UInt32} (h : n.toNat ≤ 2 ^ 24) : StableIndex n :=
  stable_of_representable (denotes_toFloat32_of_le h).representable

/-- The largest word is no float; it is rounded up, and saturation brings it back. -/
theorem stable_greatest : StableIndex 0xFFFFFFFF := by
  rw [stable_iff]
  decide +kernel

/-- Whatever a float is cut to is stable: a whole part is a float again. -/
theorem stable_toUInt32 (x : Float32) : StableIndex x.toUInt32 := by
  rcases kind_cases x with ⟨q, hx⟩ | ⟨s, hx⟩ | hx
  · rcases Nat.lt_or_ge ⌊q⌋₊ (2 ^ 32 - 1) with h | h
    · have hn : x.toUInt32.toNat = ⌊q⌋₊ := hx.toNat_toUInt32.trans (min_eq_left h.le)
      apply stable_of_representable
      rw [hn]
      rcases le_total 0 q with hq | hq
      · rw [natCast_floor_eq_intCast_floor hq]
        exact (Scalar.denotes_floor hx).representable
      · rw [Nat.floor_of_nonpos hq, Nat.cast_zero]
        exact denotes_zero.representable
    · have hn : x.toUInt32 = 0xFFFFFFFF :=
        UInt32.toNat_inj.mp (hx.toNat_toUInt32.trans (min_eq_right h))
      rw [hn]
      exact stable_greatest
  · have hn : x.toUInt32 = UInt32.ofNatClamp ((view x).toInt 0 (UInt32.size - 1)).toNat := rfl
    rw [hn, hx]
    cases s
    · exact stable_of_le (by decide)
    · exact stable_greatest
  · have hn : x.toUInt32 = UInt32.ofNatClamp ((view x).toInt 0 (UInt32.size - 1)).toNat := rfl
    rw [hn, hx]
    exact stable_of_le (by decide)

/-! ## The fourth number -/

/-- A word that is not zero is rounded to a number that is not zero. -/
theorem nearest_toNat_pos {n : UInt32} (h : n ≠ 0) : 0 < nearest n.toNat := by
  have hn : n.toNat ≠ 0 := fun h0 => h (UInt32.toNat_inj.mp h0)
  have h1 : (1 : ℚ) ≤ n.toNat := by exact_mod_cast Nat.pos_of_ne_zero hn
  exact one_pos.trans_le (le_nearest denotes_one.representable h1)

/-- The sign of a packed index, zero included, is that of the flag. -/
theorem signBit_toFloat32 (n : UInt32) :
    Scalar.signBit n.toFloat32 = false ∧ Scalar.signBit (-n.toFloat32) = true := by
  have hn := denotes_toFloat32 n
  by_cases h0 : n = 0
  · subst h0
    decide +kernel
  · have hpos := nearest_toNat_pos h0
    constructor
    · rw [← Bool.not_eq_true, hn.signBit hpos.ne']
      exact hpos.le.not_gt
    · rw [hn.neg.signBit (neg_ne_zero.mpr hpos.ne')]
      exact neg_neg_of_pos hpos

/-- Without its sign, the fourth number is the index that it was packed from. -/
theorem toUInt32_abs_of_stable {n : UInt32} (h : StableIndex n) :
    n.toFloat32.abs.toUInt32 = n ∧ (-n.toFloat32).abs.toUInt32 = n := by
  have hn := denotes_toFloat32 n
  have hnonneg : |nearest n.toNat| = nearest n.toNat :=
    abs_of_nonneg (nearest_nonneg (Nat.cast_nonneg _))
  have habs := hn.abs
  have hneg := hn.neg.abs
  rw [hnonneg] at habs
  rw [abs_neg, hnonneg] at hneg
  rw [toUInt32_congr habs hn, toUInt32_congr hneg hn]
  exact ⟨stable_iff.mp h, stable_iff.mp h⟩

/-- The part of a binary32 word that its magnitude is read from. -/
theorem abs_unpack_eq {b b' : BitVec 32} (h : b.toNat % 2 ^ 31 = b'.toNat % 2 ^ 31) :
    (unpack Format.binary32 b).abs = (unpack Format.binary32 b').abs := by
  have hmantissa : @unpackMantissa Format.binary32 b = @unpackMantissa Format.binary32 b' := by
    apply BitVec.eq_of_toNat_eq
    change (b.extractLsb' 0 23).toNat = (b'.extractLsb' 0 23).toNat
    simp only [BitVec.extractLsb'_toNat, Nat.shiftRight_zero]
    omega
  have hexponent : @unpackExponent Format.binary32 b = @unpackExponent Format.binary32 b' := by
    apply BitVec.eq_of_toNat_eq
    change (b.extractLsb' 23 8).toNat = (b'.extractLsb' 23 8).toNat
    simp only [BitVec.extractLsb'_toNat, Nat.shiftRight_eq_div_pow]
    omega
  unfold unpack
  simp only [hmantissa, hexponent]
  split_ifs <;> rfl

/-- Without its sign bit, a word gives the same magnitude. -/
theorem abs_ofBits_eq {word word' : UInt32} (h : word &&& 0x7fffffff = word' &&& 0x7fffffff) :
    (Float32.ofBits word).abs = (Float32.ofBits word').abs := by
  have hmask : (0x7fffffff : UInt32).toNat = 2 ^ 31 - 1 := rfl
  have hlow : word.toBitVec.toNat % 2 ^ 31 = word'.toBitVec.toNat % 2 ^ 31 := by
    have := congrArg UInt32.toNat h
    rwa [UInt32.toNat_and, UInt32.toNat_and, hmask, Nat.and_two_pow_sub_one_eq_mod,
      Nat.and_two_pow_sub_one_eq_mod] at this
  have hview (w : UInt32) : view (Float32.ofBits w) = unpack Format.binary32 w.toBitVec :=
    (view_pack (canonical_unpack _).1).trans (canonical_unpack _).2
  change Float32.ofModel (.pack (view (Float32.ofBits word)).abs) =
    Float32.ofModel (.pack (view (Float32.ofBits word')).abs)
  rw [hview, hview, abs_unpack_eq hlow]

/-! ## The four indices -/

namespace MiscIndices

/-- Every index is unpacked as it was packed. -/
structure Stable (m : MiscIndices) : Prop where
  transform : StableIndex m.transform
  clipIn : StableIndex m.clipIn
  clipOut : StableIndex m.clipOut
  tile : StableIndex m.tile

/-- Every index is at most 2^24, and so a float. -/
structure Packable (m : MiscIndices) : Prop where
  transform : m.transform.toNat ≤ 2 ^ 24
  clipIn : m.clipIn.toNat ≤ 2 ^ 24
  clipOut : m.clipOut.toNat ≤ 2 ^ 24
  tile : m.tile.toNat ≤ 2 ^ 24

theorem Packable.stable {m : MiscIndices} (h : m.Packable) : m.Stable :=
  ⟨stable_of_le h.transform, stable_of_le h.clipIn, stable_of_le h.clipOut, stable_of_le h.tile⟩

theorem Stable.unpack_pack {m : MiscIndices} (h : m.Stable) : m.pack.unpack = m := by
  obtain ⟨transform, clipIn, clipOut, tile, mode⟩ := m
  obtain ⟨ht, hin, hout, htile⟩ := h
  obtain ⟨hplus, hminus⟩ := signBit_toFloat32 tile
  obtain ⟨habs, hneg⟩ := toUInt32_abs_of_stable htile
  unfold StableIndex at ht hin hout
  simp only [pack, PackedIndices.unpack, ht, hin, hout]
  cases mode with
  | false =>
    have hflag : (wordOfIndex tile >>> 31 == 1) = false := hplus
    have hword : (Float32.ofBits (wordOfIndex tile)).abs.toUInt32 = tile := by
      rw [wordOfIndex, Float32.ofBits_toBits, habs]
    simp only [Bool.false_eq_true, if_false, hword, hflag]
  | true =>
    have hflag : ((-tile.toFloat32).toBits >>> 31 == 1) = true := hminus
    simp only [if_true, Float32.ofBits_toBits, hneg, hflag]

/-- Indices and flag come back as they were packed. -/
theorem unpack_pack {m : MiscIndices} (h : m.Packable) : m.pack.unpack = m := h.stable.unpack_pack

end MiscIndices

namespace PackedIndices

/-- Unpacking gives indices that packing keeps. -/
theorem stable_unpack (p : PackedIndices) : p.unpack.Stable :=
  ⟨stable_toUInt32 _, stable_toUInt32 _, stable_toUInt32 _, stable_toUInt32 _⟩

/-- The flag is the top bit of the fourth word. -/
theorem borderCornerMode_unpack (p : PackedIndices) :
    p.unpack.borderCornerMode = true ↔ p.tile.toBitVec.msb = true := by
  have hlt := p.tile.toNat_lt
  have hshift : (p.tile >>> 31).toNat = p.tile.toNat / 2 ^ 31 := by
    rw [UInt32.toNat_shiftRight, Nat.shiftRight_eq_div_pow]
    rfl
  have hone : (1 : UInt32).toNat = 1 := rfl
  rw [unpack, beq_iff_eq, ← UInt32.toNat_inj, hshift, hone, BitVec.msb_eq_decide, decide_eq_true_eq,
    UInt32.toNat_toBitVec]
  omega

/-- Packed indices that differ in nothing but the flag. -/
structure SameIndices (p p' : PackedIndices) : Prop where
  transform : p.transform = p'.transform
  clipIn : p.clipIn = p'.clipIn
  clipOut : p.clipOut = p'.clipOut
  tile : p.tile &&& 0x7fffffff = p'.tile &&& 0x7fffffff

/-- Packed indices that differ in the flag alone address the same entries. -/
theorem SameIndices.unpack {p p' : PackedIndices} (h : p.SameIndices p') :
    p'.unpack = { p.unpack with borderCornerMode := p'.unpack.borderCornerMode } := by
  simp only [PackedIndices.unpack, h.transform, h.clipIn, h.clipOut, abs_ofBits_eq h.tile]

/-- Nothing is lost on the way through the packed form: indices up to 2^24 and
the flag come back as they were, and of arbitrary words, NaN, infinities,
negative and fractional numbers among them, what unpacking makes of them comes
back. The flag is set exactly if the sign bit of the fourth word is. -/
theorem codec_lossless :
    (∀ m : MiscIndices, m.Packable → m.pack.unpack = m) ∧
      ∀ p : PackedIndices, p.unpack.pack.unpack = p.unpack ∧
        (p.unpack.borderCornerMode = true ↔ p.tile.toBitVec.msb = true) :=
  ⟨fun _ h => MiscIndices.unpack_pack h, fun p => ⟨p.stable_unpack.unpack_pack, p.borderCornerMode_unpack⟩⟩

/-- The largest index that is sure to come back, and the flag on a negative NaN. -/
theorem codec_at_limits :
    (MiscIndices.mk 0 7 0x1000000 0 true).pack.unpack = ⟨0, 7, 0x1000000, 0, true⟩ ∧
      (PackedIndices.mk 0x7f800000 0xbf800000 0x40600000 0xffc00000).unpack.pack.unpack =
        ⟨0xffffffff, 0, 3, 0, true⟩ := by
  have hpack : (MiscIndices.mk 0 7 0x1000000 0 true).Packable := by constructor <;> decide
  refine ⟨codec_lossless.1 _ hpack, ?_⟩
  rw [(codec_lossless.2 _).1]
  decide +kernel

end PackedIndices

end TileCompositor
