import TileCompositor.Proofs.Binary32.Value
import TileCompositor.Scalar.Integral
/-!
# Infinities and NaN

A result that is finite has finite operands, so a computation whose result is
known to be finite can be followed backwards. Comparison with a number decides
on which side of it an infinity lies, and a NaN is on neither. A NaN stays
through sums and products, and zero times anything that is not finite is one.
What is too large becomes an infinity, which a number leaves as it is and which
divides a number to zero.

Results:
* `operands_of_add`, `operands_of_sub`, `operands_of_mul`: what the operands
  denote if the result is finite.
* `Denotes.sub_swap`: a difference with its operands exchanged.
* `isNaN_zero_mul`, `isNaN_add_left` and so on: where NaN comes from and goes.
* `lt_cases`, `gt_cases`: what is less and what is greater than a number.
* `Rounded.infinity_of_large`, `Rounded.denotes_or_infinity`, `add_infinity`, `infinity_div`,
  `denotes_div_infinity`: where infinities come from and go.
* `toNat_toUInt32_mono`: conversion to a word keeps order.
* `Denotes.signBit`: the sign bit is that of the number.
-/
namespace TileCompositor.Binary32
open Float.Model (Format UnpackedFloat)
open Float.Model.UnpackedFloat

/-! ## Operands of finite results -/

theorem isFinite_pack_of_not {u : UnpackedFloat} (h : u.isFinite = false) :
    (Float32.ofModel (Float32.Model.pack u)).isFinite = false := by
  cases u with
  | finite s m e hm => exact absurd h (by simp [UnpackedFloat.isFinite])
  | zero s => exact absurd h (by simp [UnpackedFloat.isFinite])
  | infinity s =>
    rw [isFinite_eq, view_pack (u := .infinity s) trivial]
    rfl
  | notANumber =>
    rw [isFinite_eq, view_pack (u := .notANumber) trivial]
    rfl

theorem isFinite_of_pack {u : UnpackedFloat}
    (h : (Float32.ofModel (Float32.Model.pack u)).isFinite = true) : u.isFinite = true := by
  by_contra hu
  rw [isFinite_pack_of_not (by simpa using hu)] at h
  cases h

theorem operands_of_add {x y : Float32} (h : (x + y).isFinite = true) :
    ∃ p q, Denotes x p ∧ Denotes y q ∧ Denotes (x + y) (nearest (p + q)) := by
  have hu : (UnpackedFloat.add Format.binary32 (view x) (view y)).isFinite = true :=
    isFinite_of_pack h
  have hxy : (view x).isFinite = true ∧ (view y).isFinite = true := by
    cases hx : view x <;> cases hy : view y <;> rw [hx, hy] at hu <;> first
      | exact ⟨rfl, rfl⟩
      | (simp only [UnpackedFloat.add] at hu; split at hu <;> cases hu)
      | cases hu
  have hx : Denotes x _ := ⟨hxy.1, rfl⟩
  have hy : Denotes y _ := ⟨hxy.2, rfl⟩
  exact ⟨_, _, hx, hy, hx.add hy ((isFinite_add hx hy).mp h)⟩

theorem operands_of_sub {x y : Float32} (h : (x - y).isFinite = true) :
    ∃ p q, Denotes x p ∧ Denotes y q ∧ Denotes (x - y) (nearest (p - q)) := by
  have hu : (UnpackedFloat.sub Format.binary32 (view x) (view y)).isFinite = true :=
    isFinite_of_pack h
  have hxy : (view x).isFinite = true ∧ (view y).isFinite = true := by
    cases hx : view x <;> cases hy : view y <;> rw [hx, hy] at hu <;> first
      | exact ⟨rfl, rfl⟩
      | (simp only [UnpackedFloat.sub] at hu; split at hu <;> cases hu)
      | cases hu
  have hx : Denotes x _ := ⟨hxy.1, rfl⟩
  have hy : Denotes y _ := ⟨hxy.2, rfl⟩
  exact ⟨_, _, hx, hy, hx.sub hy ((isFinite_sub hx hy).mp h)⟩

/-- Exchanging the operands of a difference changes its sign. -/
theorem Denotes.sub_swap {x y : Float32} {q : ℚ} (h : Denotes (x - y) q) : Denotes (y - x) (-q) := by
  obtain ⟨p, r, hp, hr, hsub⟩ := operands_of_sub h.isFinite
  have hswap : nearest (r - p) = -q := by rw [← neg_sub, nearest_neg, h.unique hsub]
  have hlt : |nearest (r - p)| < 2 ^ 128 := by rw [hswap, abs_neg]; exact h.abs_lt
  exact hswap ▸ hr.sub hp hlt

theorem operands_of_mul {x y : Float32} (h : (x * y).isFinite = true) :
    ∃ p q, Denotes x p ∧ Denotes y q ∧ Denotes (x * y) (nearest (p * q)) := by
  have hu : (UnpackedFloat.mul Format.binary32 (view x) (view y)).isFinite = true :=
    isFinite_of_pack h
  have hxy : (view x).isFinite = true ∧ (view y).isFinite = true := by
    cases hx : view x <;> cases hy : view y <;> rw [hx, hy] at hu <;> first
      | exact ⟨rfl, rfl⟩
      | cases hu
  have hx : Denotes x _ := ⟨hxy.1, rfl⟩
  have hy : Denotes y _ := ⟨hxy.2, rfl⟩
  exact ⟨_, _, hx, hy, hx.mul hy ((isFinite_mul hx hy).mp h)⟩

/-- A quotient is finite only if what is divided is; the divisor may be an infinity. -/
theorem isFinite_of_div {x y : Float32} (h : (x / y).isFinite = true) : x.isFinite = true := by
  have hu : (UnpackedFloat.div Format.binary32 (view x) (view y)).isFinite = true :=
    isFinite_of_pack h
  rw [isFinite_eq]
  cases hx : view x <;> cases hy : view y <;> rw [hx, hy] at hu <;> first
    | rfl
    | cases hu

/-! ## NaN -/

section NaN
variable {x y : Float32}

theorem isNaN_iff : x.isNaN = true ↔ view x = .notANumber := by
  show (view x).isNaN = true ↔ _
  cases view x <;> simp [UnpackedFloat.isNaN]

/-- A result that is not a number before it is packed is none after it. -/
theorem isNaN_pack {u : UnpackedFloat} (h : u = .notANumber) :
    (Float32.ofModel (Float32.Model.pack u)).isNaN = true := by
  subst h
  exact isNaN_iff.mpr (view_pack (u := .notANumber) trivial)

/-- The fields of a zero are not those of another number. -/
theorem view_of_zero (hx : Denotes x 0) : ∃ s, view x = .zero s := by
  obtain ⟨s, hs⟩ | ⟨s, m, e, hm, hs⟩ := isFinite_cases hx.finite
  · exact ⟨s, hs⟩
  · have hpos : (0 : ℚ) < m * 2 ^ e := mul_pos (by exact_mod_cast hm) (two_zpow_pos e)
    have hzero := hx.value
    rw [hs, valueOf, mul_eq_zero] at hzero
    cases s <;> simp [hpos.ne'] at hzero

/-- Zero times an infinity or a NaN is NaN. -/
theorem isNaN_zero_mul (hx : Denotes x 0) (hy : y.isFinite = false) : (x * y).isNaN = true := by
  have hu : UnpackedFloat.mul Format.binary32 (view x) (view y) = .notANumber := by
    obtain ⟨s, hs⟩ := view_of_zero hx
    rw [isFinite_eq] at hy
    rw [hs]
    cases hv : view y <;> rw [hv] at hy <;> first | rfl | cases hy
  exact isNaN_pack hu

theorem isNaN_add_left (y : Float32) (h : x.isNaN = true) : (x + y).isNaN = true := by
  have hu : UnpackedFloat.add Format.binary32 (view x) (view y) = .notANumber := by
    rw [isNaN_iff.mp h]
    rfl
  exact isNaN_pack hu

theorem isNaN_add_right (x : Float32) (h : y.isNaN = true) : (x + y).isNaN = true := by
  have hu : UnpackedFloat.add Format.binary32 (view x) (view y) = .notANumber := by
    rw [isNaN_iff.mp h]
    cases view x <;> rfl
  exact isNaN_pack hu

theorem isNaN_mul_left (y : Float32) (h : x.isNaN = true) : (x * y).isNaN = true := by
  have hu : UnpackedFloat.mul Format.binary32 (view x) (view y) = .notANumber := by
    rw [isNaN_iff.mp h]
    rfl
  exact isNaN_pack hu

end NaN

/-! ## Order -/

theorem Denotes.isNaN {x : Float32} {q : ℚ} (h : Denotes x q) : x.isNaN = false := by
  show (view x).isNaN = false
  have hf := h.finite
  cases hx : view x <;> rw [hx] at hf <;> first | rfl | cases hf

/-- Below a number are the smaller ones and the negative infinity. -/
theorem lt_cases {x y : Float32} {q : ℚ} (hy : Denotes y q) (h : x < y) :
    (∃ p, Denotes x p ∧ p < q) ∨ view x = .infinity .negative := by
  rcases kind_cases x with ⟨p, hx⟩ | ⟨s, hx⟩ | hx
  · exact .inl ⟨p, hx, (hx.lt_iff hy).mp h⟩
  · refine .inr ?_
    rw [lt_eq, hx] at h
    have hf := hy.finite
    cases s
    · exact hx
    · cases hv : view y <;> rw [hv] at h hf <;> cases hf <;> cases h
  · rw [lt_eq, hx] at h
    cases h

/-- Above a number are the larger ones and the upper infinity. -/
theorem gt_cases {x y : Float32} {q : ℚ} (hx : Denotes x q) (h : x < y) :
    (∃ p, Denotes y p ∧ q < p) ∨ view y = .infinity .positive := by
  rcases kind_cases y with ⟨p, hy⟩ | ⟨s, hy⟩ | hy
  · exact .inl ⟨p, hy, (hx.lt_iff hy).mp h⟩
  · refine .inr ?_
    rw [lt_eq, hy] at h
    have hf := hx.finite
    cases s
    · cases hv : view x <;> rw [hv] at h hf <;> cases hf <;> cases h
    · exact hy
  · rw [lt_eq, hy] at h
    cases hv : view x <;> rw [hv] at h <;> cases h

/-- Conversion to a word keeps order. -/
theorem toNat_toUInt32_mono {x y : Float32} {q : ℚ} (hy : Denotes y q) (h : x < y) :
    x.toUInt32.toNat ≤ y.toUInt32.toNat := by
  rcases lt_cases hy h with ⟨p, hx, hpq⟩ | hx
  · rw [hx.toNat_toUInt32, hy.toNat_toUInt32]
    exact min_le_min_right _ (Nat.floor_mono hpq.le)
  · have : x.toUInt32 = 0 := by
      show UInt32.ofNatClamp ((view x).toInt 0 (UInt32.size - 1)).toNat = 0
      rw [hx]
      rfl
    rw [this]
    exact Nat.zero_le _

/-! ## Infinities -/

section Infinity
variable {x y : Float32} {q : ℚ}

/-- A result that is an infinity before it is packed is the same one after it. -/
theorem infinity_pack {u : UnpackedFloat} {s : Sign} (h : u = .infinity s) :
    view (Float32.ofModel (Float32.Model.pack u)) = .infinity s := by
  subst h
  exact view_pack (u := .infinity s) trivial

/-- A result that is too large is packed as the infinity on its side of zero. -/
theorem Rounded.infinity_of_large {u : UnpackedFloat} (h : Rounded u q) (hlarge : 2 ^ 128 ≤ |nearest q|) :
    ∃ s, view (Float32.ofModel (Float32.Model.pack u)) = .infinity s ∧ 0 < signValue s * nearest q := by
  have hbig := mt (isFinite_overflow h.canonical h.finite).mp (by rw [h.value]; exact hlarge.not_gt)
  have hvalue := h.value
  rw [view_pack h.canonical]
  obtain ⟨s, rfl⟩ | ⟨s, m, e, hm, rfl⟩ := isFinite_cases h.finite
  · exact absurd rfl hbig
  have hexp : 105 ≤ e := by
    by_contra hsmall
    exact hbig (by rw [overflow, if_neg hsmall]; rfl)
  rw [overflow, if_pos hexp]
  have hpos : (0 : ℚ) < m * 2 ^ e := mul_pos (by exact_mod_cast hm) (two_zpow_pos e)
  refine ⟨s, rfl, ?_⟩
  rw [← hvalue, valueOf]
  cases s with
  | positive => simpa using hpos
  | negative => simpa using hpos

/-- A result that is not negative is a number or the upper infinity. -/
theorem Rounded.denotes_or_infinity {u : UnpackedFloat} (h : Rounded u q) (h0 : 0 ≤ q) :
    Denotes (Float32.ofModel (Float32.Model.pack u)) (nearest q) ∨
      view (Float32.ofModel (Float32.Model.pack u)) = .infinity .positive := by
  by_cases hlt : |nearest q| < 2 ^ 128
  · exact .inl (h.denotes hlt)
  obtain ⟨s, hs, hside⟩ := h.infinity_of_large (not_lt.mp hlt)
  cases s with
  | positive => exact .inr hs
  | negative =>
    rw [signValue_negative] at hside
    linarith [nearest_nonneg h0]

theorem lt_infinity (hx : Denotes x q) (hy : view y = .infinity .positive) : x < y := by
  rw [lt_eq, hy]
  obtain ⟨s, hs⟩ | ⟨s, m, e, hm, hs⟩ := isFinite_cases hx.finite <;> rw [hs] <;> rfl

theorem not_infinity_lt (hx : Denotes x q) (hy : view y = .infinity .positive) : ¬ y < x := by
  rw [lt_eq, hy]
  obtain ⟨s, hs⟩ | ⟨s, m, e, hm, hs⟩ := isFinite_cases hx.finite <;> rw [hs] <;> exact nofun

theorem isNaN_of_infinity {s : Sign} (hy : view y = .infinity s) : y.isNaN = false := by
  show (view y).isNaN = false
  rw [hy]
  rfl

theorem add_infinity (hx : Denotes x q) (hy : view y = .infinity .positive) :
    view (x + y) = .infinity .positive := by
  have hsum : UnpackedFloat.add Format.binary32 (view x) (view y) = .infinity .positive := by
    rw [hy]
    obtain ⟨s, hs⟩ | ⟨s, m, e, hm, hs⟩ := isFinite_cases hx.finite <;> rw [hs] <;> rfl
  exact infinity_pack hsum

/-- A number that is added changes neither an infinity nor NaN. -/
theorem add_of_not_isFinite (hx : x.isFinite = false) (hy : Denotes y q) : x + y = x := by
  apply eq_of_view
  rcases kind_cases x with ⟨p, hp⟩ | ⟨s, hs⟩ | hnan
  · exact absurd (hx.symm.trans hp.isFinite) Bool.false_ne_true
  · have hsum : UnpackedFloat.add Format.binary32 (view x) (view y) = .infinity s := by
      rw [hs]
      obtain ⟨t, ht⟩ | ⟨t, m, e, hm, ht⟩ := isFinite_cases hy.finite <;> rw [ht] <;> rfl
    exact (infinity_pack hsum).trans hs.symm
  · rw [isNaN_iff.mp (isNaN_add_left y (isNaN_iff.mpr hnan)), hnan]

/-- An infinity divides a number to zero. -/
theorem denotes_div_infinity {s : Sign} (hx : Denotes x q) (hy : view y = .infinity s) :
    Denotes (x / y) 0 := by
  obtain ⟨t, ht⟩ : ∃ t, UnpackedFloat.div Format.binary32 (view x) (view y) = .zero t := by
    rw [hy]
    obtain ⟨r, hr⟩ | ⟨r, m, e, hm, hr⟩ := isFinite_cases hx.finite <;> rw [hr] <;> exact ⟨_, rfl⟩
  have hrounded : Rounded (UnpackedFloat.div Format.binary32 (view x) (view y)) 0 :=
    ht ▸ ⟨trivial, rfl, nearest_zero.symm⟩
  have := hrounded.denotes (by rw [nearest_zero, abs_zero]; norm_num)
  rwa [nearest_zero] at this

/-- What a positive number divides stays infinite on the same side. -/
theorem infinity_div {s : Sign} (hx : view x = .infinity s) (hy : Denotes y q) (hq : 0 < q) :
    view (x / y) = .infinity s := by
  have hquotient : UnpackedFloat.div Format.binary32 (view x) (view y) = .infinity s := by
    have hvalue := hy.value
    rw [hx]
    obtain ⟨t, ht⟩ | ⟨t, m, e, hm, ht⟩ := isFinite_cases hy.finite <;> rw [ht] at hvalue ⊢
    · exact absurd hvalue hq.ne
    · have hpos : (0 : ℚ) < m * 2 ^ e := mul_pos (by exact_mod_cast hm) (two_zpow_pos e)
      rw [valueOf] at hvalue
      cases t with
      | positive => cases s <;> rfl
      | negative =>
        rw [signValue_negative] at hvalue
        linarith
  exact infinity_pack hquotient

end Infinity

/-! ## The sign bit -/

theorem sign_of_unpack {b : BitVec Format.binary32.numBits} {s : Sign} {m : ℕ} {e : ℤ} {hm : 0 < m}
    (h : unpack Format.binary32 b = .finite s m e hm) : s = Sign.ofBitVec (unpackSign b) := by
  unfold unpack at h
  simp only at h
  split_ifs at h <;> cases h <;> rfl

theorem toNat_unpackSign (b : BitVec Format.binary32.numBits) :
    (unpackSign b).toNat = b.toNat / 2 ^ 31 := by
  have hb : b.toNat < 2 ^ 32 := b.isLt
  change (b.extractLsb' 31 1).toNat = _
  rw [BitVec.extractLsb'_toNat, Nat.shiftRight_eq_div_pow]
  omega

theorem ofBitVec_eq_negative (b : BitVec 1) : Sign.ofBitVec b = .negative ↔ b = 1#1 := by
  rcases (by decide : ∀ b : BitVec 1, b = 0#1 ∨ b = 1#1) b with rfl | rfl
  · exact iff_of_false nofun (by decide)
  · exact iff_of_true rfl rfl

theorem signBit_iff {x : Float32} :
    Scalar.signBit x = true ↔ @unpackSign Format.binary32 x.toBits.toBitVec = 1#1 := by
  unfold Scalar.signBit
  rw [beq_iff_eq, ← UInt32.toNat_inj, ← BitVec.toNat_inj, toNat_unpackSign, UInt32.toNat_shiftRight,
    Nat.shiftRight_eq_div_pow]
  rfl

/-- Of a number that is not zero the sign bit tells the sign. -/
theorem Denotes.signBit {x : Float32} {q : ℚ} (h : Denotes x q) (hq : q ≠ 0) :
    Scalar.signBit x = true ↔ q < 0 := by
  have hv := h.value
  obtain ⟨s, hs⟩ | ⟨s, m, e, hm, hs⟩ := isFinite_cases h.finite
  · rw [hs] at hv
    exact absurd hv.symm hq
  · have hpos : (0 : ℚ) < m * 2 ^ e := mul_pos (by exact_mod_cast hm) (two_zpow_pos e)
    rw [hs, valueOf] at hv
    rw [signBit_iff, ← ofBitVec_eq_negative, ← hv]
    change Sign.ofBitVec (@unpackSign Format.binary32 x.toModel.toBits.toBitVec) = _ ↔ _
    rw [← sign_of_unpack hs]
    cases s
    · exact iff_of_true rfl (by rw [signValue_negative]; linarith)
    · exact iff_of_false Sign.noConfusion (by rw [signValue_positive]; linarith)

end TileCompositor.Binary32
