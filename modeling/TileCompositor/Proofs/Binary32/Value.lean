import TileCompositor.Proofs.Binary32.Arithmetic
/-!
# The numbers that binary32 values denote

`Denotes x q`: the value `x` is finite and stands for the rational number `q`.
Each operation is described by what its result denotes, so that a computation
is followed with numbers alone.

Results:
* `Denotes.add`, `Denotes.sub`, `Denotes.mul`, `Denotes.div`: the exact result
  rounded by `nearest`, unless that is too large (`isFinite_add` and so on).
* `Denotes.add_exact` and its like: no rounding where the exact result is a value.
* `Denotes.lt_iff`, `Denotes.le_iff`, `Denotes.beq_iff`: comparisons are those
  of the numbers.
* `denotes_toFloat32`, `Denotes.toNat_toUInt32`, `Denotes.toNat_toUInt64`: conversion of whole numbers.
* `kind_cases`: a value is finite, infinite or NaN; `exists_of_le_of_le`: what
  lies between two numbers is one.
* `Denotes.eq`: only zero is denoted by two values; `mul_one_eq`, `mul_comm_eq`: multiplying
  by one changes nothing, and neither does exchanging the factors.
-/
namespace TileCompositor.Binary32
open Float.Model (Format UnpackedFloat)
open Float.Model.UnpackedFloat

/-- The fields of a value. -/
def view (x : Float32) : UnpackedFloat := x.toModel.unpack

/-- `x` is finite and stands for `q`. -/
structure Denotes (x : Float32) (q : ℚ) : Prop where
  finite : (view x).isFinite = true
  value : valueOf (view x) = q

theorem canonical_view (x : Float32) : Canonical (view x) := (canonical_unpack _).1

theorem overflow_view (x : Float32) : overflow (view x) = view x := (canonical_unpack _).2

theorem view_pack {u : UnpackedFloat} (h : Canonical u) :
    view (Float32.ofModel (Float32.Model.pack u)) = overflow u := unpack_pack h

theorem isFinite_eq (x : Float32) : x.isFinite = (view x).isFinite := rfl

theorem isFinite_iff {x : Float32} : x.isFinite = true ↔ ∃ q, Denotes x q :=
  ⟨fun h => ⟨_, h, rfl⟩, fun ⟨_, h⟩ => h.finite⟩

theorem Denotes.isFinite {x : Float32} {q : ℚ} (h : Denotes x q) : x.isFinite = true := h.finite

theorem Denotes.unique {x : Float32} {p q : ℚ} (h : Denotes x p) (h' : Denotes x q) : p = q :=
  h.value.symm.trans h'.value

theorem Denotes.representable {x : Float32} {q : ℚ} (h : Denotes x q) : Representable q :=
  h.value ▸ (canonical_view x).representable

/-! ## Overflow -/

/-- Canonical floats overflow from 2^128 on. -/
theorem isFinite_overflow {u : UnpackedFloat} (hc : Canonical u) (hf : u.isFinite = true) :
    (overflow u).isFinite = true ↔ |valueOf u| < 2 ^ 128 := by
  obtain ⟨s, rfl⟩ | ⟨s, m, e, hm, rfl⟩ := isFinite_cases hf
  · simp [overflow, UnpackedFloat.isFinite, valueOf]
  obtain ⟨hlt, -, hn⟩ := hc
  have habs : |valueOf (.finite s m e hm)| = m * 2 ^ e := by
    rw [valueOf, abs_mul, abs_signValue, one_mul,
      abs_of_pos (mul_pos (by exact_mod_cast hm) (two_zpow_pos e))]
  rw [habs, overflow]
  split
  · next hbig =>
    have h1 : (2 : ℚ) ^ 23 ≤ m := by exact_mod_cast hn.resolve_right (by omega)
    have h2 : (2 : ℚ) ^ 105 ≤ 2 ^ e := by
      rw [← zpow_natCast]
      exact zpow_le_zpow_right₀ (by norm_num) hbig
    have h3 := mul_le_mul h1 h2 (by norm_num) (by positivity)
    refine iff_of_false (by simp [UnpackedFloat.isFinite]) (not_lt.mpr ?_)
    calc (2 : ℚ) ^ 128 = 2 ^ 23 * 2 ^ 105 := by norm_num
      _ ≤ (m : ℚ) * 2 ^ e := h3
  · have h1 : (m : ℚ) < 2 ^ 24 := by exact_mod_cast hlt
    have h2 : (2 : ℚ) ^ e ≤ 2 ^ 104 := by
      rw [← zpow_natCast]
      exact zpow_le_zpow_right₀ (by norm_num) (by omega)
    refine iff_of_true rfl ?_
    calc (m : ℚ) * 2 ^ e < 2 ^ 24 * 2 ^ e := mul_lt_mul_of_pos_right h1 (two_zpow_pos e)
      _ ≤ 2 ^ 24 * 2 ^ 104 := mul_le_mul_of_nonneg_left h2 (by norm_num)
      _ = 2 ^ 128 := by norm_num

theorem Denotes.abs_lt {x : Float32} {q : ℚ} (h : Denotes x q) : |q| < 2 ^ 128 := by
  rw [← h.value, ← isFinite_overflow (canonical_view x) h.finite, overflow_view]
  exact h.finite

theorem valueOf_overflow {u : UnpackedFloat} (h : (overflow u).isFinite = true) :
    valueOf (overflow u) = valueOf u := by
  cases u with
  | finite s m e hm =>
    by_cases hs : 105 ≤ e
    · rw [overflow, if_pos hs] at h
      simp [UnpackedFloat.isFinite] at h
    · rw [overflow, if_neg hs]
  | _ => rfl

/-- A rounded result that is not too large is packed as it is. -/
theorem Rounded.denotes {u : UnpackedFloat} {q : ℚ} (h : Rounded u q) (hq : |nearest q| < 2 ^ 128) :
    Denotes (Float32.ofModel (Float32.Model.pack u)) (nearest q) := by
  have hf : (overflow u).isFinite = true := by
    rw [isFinite_overflow h.canonical h.finite, h.value]
    exact hq
  constructor
  · rw [view_pack h.canonical]
    exact hf
  · rw [view_pack h.canonical, valueOf_overflow hf, h.value]

theorem Rounded.isFinite_pack {u : UnpackedFloat} {q : ℚ} (h : Rounded u q) :
    (Float32.ofModel (Float32.Model.pack u)).isFinite = true ↔ |nearest q| < 2 ^ 128 := by
  rw [isFinite_eq, view_pack h.canonical, isFinite_overflow h.canonical h.finite, h.value]

/-! ## Arithmetic -/

section Arithmetic
variable {x y : Float32} {p q : ℚ}

theorem Denotes.rounded_add (hx : Denotes x p) (hy : Denotes y q) :
    Rounded (UnpackedFloat.add Format.binary32 (view x) (view y)) (p + q) := by
  have := add_rounded (canonical_view x) (canonical_view y) hx.finite hy.finite
  rwa [hx.value, hy.value] at this

theorem Denotes.rounded_sub (hx : Denotes x p) (hy : Denotes y q) :
    Rounded (UnpackedFloat.sub Format.binary32 (view x) (view y)) (p - q) := by
  have := sub_rounded (canonical_view x) (canonical_view y) hx.finite hy.finite
  rwa [hx.value, hy.value] at this

theorem Denotes.rounded_mul (hx : Denotes x p) (hy : Denotes y q) :
    Rounded (UnpackedFloat.mul Format.binary32 (view x) (view y)) (p * q) := by
  have := mul_rounded (canonical_view x) (canonical_view y) hx.finite hy.finite
  rwa [hx.value, hy.value] at this

theorem Denotes.rounded_div (hx : Denotes x p) (hy : Denotes y q) (h0 : q ≠ 0) :
    Rounded (UnpackedFloat.div Format.binary32 (view x) (view y)) (p / q) := by
  have := div_rounded hx.finite hy.finite (by rwa [hy.value])
  rwa [hx.value, hy.value] at this

theorem Denotes.add (hx : Denotes x p) (hy : Denotes y q) (h : |nearest (p + q)| < 2 ^ 128) :
    Denotes (x + y) (nearest (p + q)) := (hx.rounded_add hy).denotes h

theorem Denotes.sub (hx : Denotes x p) (hy : Denotes y q) (h : |nearest (p - q)| < 2 ^ 128) :
    Denotes (x - y) (nearest (p - q)) := (hx.rounded_sub hy).denotes h

theorem Denotes.mul (hx : Denotes x p) (hy : Denotes y q) (h : |nearest (p * q)| < 2 ^ 128) :
    Denotes (x * y) (nearest (p * q)) := (hx.rounded_mul hy).denotes h

theorem Denotes.div (hx : Denotes x p) (hy : Denotes y q) (h0 : q ≠ 0)
    (h : |nearest (p / q)| < 2 ^ 128) : Denotes (x / y) (nearest (p / q)) :=
  (hx.rounded_div hy h0).denotes h

theorem isFinite_add (hx : Denotes x p) (hy : Denotes y q) :
    (x + y).isFinite = true ↔ |nearest (p + q)| < 2 ^ 128 := (hx.rounded_add hy).isFinite_pack

theorem isFinite_sub (hx : Denotes x p) (hy : Denotes y q) :
    (x - y).isFinite = true ↔ |nearest (p - q)| < 2 ^ 128 := (hx.rounded_sub hy).isFinite_pack

theorem isFinite_mul (hx : Denotes x p) (hy : Denotes y q) :
    (x * y).isFinite = true ↔ |nearest (p * q)| < 2 ^ 128 := (hx.rounded_mul hy).isFinite_pack

theorem Denotes.neg (hx : Denotes x p) : Denotes (-x) (-p) := by
  have hr := neg_rounded (canonical_view x) hx.finite
  have hn : nearest (-p) = -p := nearest_of_representable hx.representable.neg
  rw [hx.value] at hr
  have h := hr.denotes (by rw [hn, abs_neg]; exact hx.abs_lt)
  rwa [hn] at h

theorem Representable.abs (h : Representable p) : Representable |p| := by
  rcases abs_choice p with hp | hp <;> rw [hp]
  · exact h
  · exact h.neg

theorem Denotes.abs (hx : Denotes x p) : Denotes x.abs |p| := by
  have hr := abs_rounded (canonical_view x) hx.finite
  have hn : nearest |p| = |p| := nearest_of_representable hx.representable.abs
  rw [hx.value] at hr
  have h := hr.denotes (by rw [hn, abs_abs]; exact hx.abs_lt)
  rwa [hn] at h

end Arithmetic

/-! ## Exact results -/

/-- `q` is a binary32 value. -/
structure IsValue (q : ℚ) : Prop where
  representable : Representable q
  abs_lt : |q| < 2 ^ 128

/-- Whole numbers of at most 24 bits, divided by a power of two, are values. -/
theorem isValue_div_two_pow (m : ℤ) {k : ℕ} (hm : |m| ≤ 2 ^ 24) (hk : k ≤ 149) :
    IsValue (m / 2 ^ k) where
  representable := representable_div_two_pow m hm hk
  abs_lt := by
    have h1 : |(m : ℚ)| ≤ 2 ^ 24 := by exact_mod_cast hm
    have h2 : (1 : ℚ) ≤ 2 ^ k := one_le_pow₀ (by norm_num)
    rw [abs_div, abs_of_pos (by positivity : (0 : ℚ) < 2 ^ k), div_lt_iff₀ (by positivity)]
    nlinarith

theorem isValue_intCast {m : ℤ} (hm : |m| ≤ 2 ^ 24) : IsValue m := by
  simpa using isValue_div_two_pow m hm (Nat.zero_le 149)

theorem isValue_of_eq {q : ℚ} (m : ℤ) (k : ℕ) (h : q = m / 2 ^ k) (hm : |m| ≤ 2 ^ 24) (hk : k ≤ 149) :
    IsValue q :=
  h ▸ isValue_div_two_pow m hm hk

theorem Denotes.isValue {x : Float32} {q : ℚ} (h : Denotes x q) : IsValue q :=
  ⟨h.representable, h.abs_lt⟩

section Exact
variable {x y : Float32} {p q : ℚ}

theorem IsValue.abs_nearest_lt (h : IsValue q) : |nearest q| < 2 ^ 128 := by
  rw [nearest_of_representable h.representable]
  exact h.abs_lt

theorem Denotes.add_exact (hx : Denotes x p) (hy : Denotes y q) (h : IsValue (p + q)) :
    Denotes (x + y) (p + q) := by
  have := hx.add hy h.abs_nearest_lt
  rwa [nearest_of_representable h.representable] at this

theorem Denotes.sub_exact (hx : Denotes x p) (hy : Denotes y q) (h : IsValue (p - q)) :
    Denotes (x - y) (p - q) := by
  have := hx.sub hy h.abs_nearest_lt
  rwa [nearest_of_representable h.representable] at this

theorem Denotes.mul_exact (hx : Denotes x p) (hy : Denotes y q) (h : IsValue (p * q)) :
    Denotes (x * y) (p * q) := by
  have := hx.mul hy h.abs_nearest_lt
  rwa [nearest_of_representable h.representable] at this

theorem Denotes.div_exact (hx : Denotes x p) (hy : Denotes y q) (h0 : q ≠ 0) (h : IsValue (p / q)) :
    Denotes (x / y) (p / q) := by
  have := hx.div hy h0 h.abs_nearest_lt
  rwa [nearest_of_representable h.representable] at this

/-- Arithmetic on whole numbers is exact up to 2^24. -/
theorem Denotes.add_intCast {m n : ℤ} (hx : Denotes x m) (hy : Denotes y n) (h : |m + n| ≤ 2 ^ 24) :
    Denotes (x + y) (m + n : ℤ) := by
  have := isValue_intCast h
  push_cast at this ⊢
  exact hx.add_exact hy this

theorem Denotes.sub_intCast {m n : ℤ} (hx : Denotes x m) (hy : Denotes y n) (h : |m - n| ≤ 2 ^ 24) :
    Denotes (x - y) (m - n : ℤ) := by
  have := isValue_intCast h
  push_cast at this ⊢
  exact hx.sub_exact hy this

theorem Denotes.mul_intCast {m n : ℤ} (hx : Denotes x m) (hy : Denotes y n) (h : |m * n| ≤ 2 ^ 24) :
    Denotes (x * y) (m * n : ℤ) := by
  have := isValue_intCast h
  push_cast at this ⊢
  exact hx.mul_exact hy this

end Exact

/-! ## Comparison -/

section Comparison
variable {x y : Float32} {p q : ℚ}

theorem Denotes.compare (hx : Denotes x p) (hy : Denotes y q) :
    UnpackedFloat.compare (view x) (view y) = some (Ord.compare p q) := by
  rw [compare_eq (canonical_view x) (canonical_view y) hx.finite hy.finite, hx.value, hy.value]

theorem lt_eq (x y : Float32) : x < y ↔ UnpackedFloat.compare (view x) (view y) = some .lt := by
  show (decide (x.toModel < y.toModel) = true) ↔ _
  rw [decide_eq_true_eq]
  exact beq_iff_eq

theorem le_eq (x y : Float32) :
    x ≤ y ↔ (UnpackedFloat.compare (view x) (view y)).any (·.isLE) = true := by
  show (decide (x.toModel ≤ y.toModel) = true) ↔ _
  rw [decide_eq_true_eq]
  exact Iff.rfl

theorem beq_eq (x y : Float32) :
    (x == y) = true ↔ UnpackedFloat.compare (view x) (view y) = some .eq := by
  show (UnpackedFloat.compare (view x) (view y) == some .eq) = true ↔ _
  exact beq_iff_eq

theorem lt_iff_of_compare (h : UnpackedFloat.compare (view x) (view y) = some (Ord.compare p q)) :
    x < y ↔ p < q := by
  rw [lt_eq, h, Option.some.injEq, compare_lt_iff_lt]

theorem le_iff_of_compare (h : UnpackedFloat.compare (view x) (view y) = some (Ord.compare p q)) :
    x ≤ y ↔ p ≤ q := by
  rw [le_eq, h, Option.any_some, Ordering.isLE_iff_ne_gt, ← not_lt]
  exact not_congr compare_gt_iff_gt

theorem Denotes.lt_iff (hx : Denotes x p) (hy : Denotes y q) : x < y ↔ p < q :=
  lt_iff_of_compare (hx.compare hy)

theorem Denotes.le_iff (hx : Denotes x p) (hy : Denotes y q) : x ≤ y ↔ p ≤ q :=
  le_iff_of_compare (hx.compare hy)

theorem Denotes.beq_iff (hx : Denotes x p) (hy : Denotes y q) : (x == y) = true ↔ p = q := by
  rw [beq_eq, hx.compare hy, Option.some.injEq, compare_eq_iff_eq]

/-- Values that denote the same number compare as equal. -/
theorem Denotes.beq (hx : Denotes x p) (hy : Denotes y p) : (x == y) = true := (hx.beq_iff hy).mpr rfl

end Comparison

/-- A value is finite, infinite or NaN. -/
theorem kind_cases (x : Float32) :
    (∃ q, Denotes x q) ∨ (∃ s, view x = .infinity s) ∨ view x = .notANumber := by
  cases h : view x with
  | infinity s => exact .inr (.inl ⟨s, rfl⟩)
  | notANumber => exact .inr (.inr rfl)
  | zero s => exact .inl ⟨_, by rw [h]; rfl, rfl⟩
  | finite s m e hm => exact .inl ⟨_, by rw [h]; rfl, rfl⟩

/-- Between two numbers there are numbers only. -/
theorem exists_of_le_of_le {x y z : Float32} {p q : ℚ} (hx : Denotes x p) (hz : Denotes z q)
    (hxy : x ≤ y) (hyz : y ≤ z) : ∃ r, Denotes y r ∧ p ≤ r ∧ r ≤ q := by
  rcases kind_cases y with ⟨r, hy⟩ | ⟨s, hs⟩ | hs
  · exact ⟨r, hy, (hx.le_iff hy).mp hxy, (hy.le_iff hz).mp hyz⟩
  · rw [le_eq, hs] at hxy hyz
    cases s with
    | negative =>
      obtain ⟨s, hv⟩ | ⟨s, m, e, hm, hv⟩ := isFinite_cases hx.finite <;>
        simp [hv, UnpackedFloat.compare, Ordering.isLE] at hxy
    | positive =>
      obtain ⟨s, hv⟩ | ⟨s, m, e, hm, hv⟩ := isFinite_cases hz.finite <;>
        simp [hv, UnpackedFloat.compare, Ordering.isLE] at hyz
  · rw [le_eq, hs] at hyz
    exact absurd hyz Bool.false_ne_true

/-! ## Whole numbers -/

theorem denotes_normalize {n : ℕ} (h : n ≤ 2 ^ 64) :
    Denotes (.ofModel (.pack (UnpackedFloat.normalize Format.binary32 n 0 .positive)))
      (nearest n) := by
  have hr := normalize_rounded n 0 .positive
  rw [zpow_zero, mul_one, Int.cast_natCast] at hr
  apply hr.denotes
  rw [abs_of_nonneg (nearest_nonneg (by positivity))]
  calc nearest (n : ℚ) ≤ 2 ^ (64 : ℤ) :=
      nearest_le (representable_zpow (by norm_num)) (by exact_mod_cast h)
    _ < 2 ^ 128 := by norm_num

theorem denotes_toFloat32 (n : UInt32) : Denotes n.toFloat32 (nearest n.toNat) :=
  denotes_normalize (by have := n.toNat_lt; omega)

theorem denotes_toFloat32_of_le {n : UInt32} (h : n.toNat ≤ 2 ^ 24) :
    Denotes n.toFloat32 n.toNat := by
  have := denotes_toFloat32 n
  rwa [nearest_natCast h] at this

theorem denotes_ofUInt64 (n : UInt64) : Denotes n.toFloat32 (nearest n.toNat) :=
  denotes_normalize (by have := n.toNat_lt; omega)

/-- A byte converts without rounding. -/
theorem denotes_ofUInt8 (n : UInt8) : Denotes n.toFloat32 n.toNat := by
  have hlt := n.toNat_lt
  have h : Denotes n.toFloat32 (nearest n.toNat) := denotes_normalize (by omega)
  rwa [nearest_natCast (by omega)] at h

/-- The whole part of a magnitude, read off the bits. -/
theorem roundToInt_eq (s : Sign) {m : ℕ} {e : ℤ} :
    UnpackedFloat.roundToInt s m e = s.apply ⌊(m : ℚ) * 2 ^ e⌋ := by
  have hval : ((m <<< (e - 0).toNat : ℕ) : ℚ) / 2 ^ (0 - (e - ((e - 0).toNat : ℤ))).toNat =
      m * 2 ^ e := by
    rw [Nat.shiftLeft_eq]
    push_cast
    rcases le_total 0 e with h | h
    · obtain ⟨k, rfl⟩ := Int.eq_ofNat_of_zero_le h
      simp
    · obtain ⟨k, rfl⟩ : ∃ k : ℕ, e = -k := ⟨(-e).toNat, by omega⟩
      have h1 : (-(k : ℤ) - 0).toNat = 0 := by omega
      have h2 : (0 - (-(k : ℤ) - ((0 : ℕ) : ℤ))).toNat = k := by omega
      rw [h1, h2, zpow_neg, zpow_natCast, pow_zero, mul_one]
      rfl
  have h := ((residue_exact (m <<< (e - 0).toNat)).shiftRight
    (0 - (e - ((e - 0).toNat : ℤ))).toNat).floor
  rw [hval] at h
  simp only [roundToInt, decreaseExponent, shiftToExponent, h]

/-- Conversion to a whole number cuts the fraction off; what is below zero gives none. -/
theorem Denotes.toNat_toInt {x : Float32} {q : ℚ} (h : Denotes x q) (limit : ℤ) :
    ((view x).toInt 0 limit).toNat = ⌊q⌋₊ := by
  rw [← h.value]
  obtain ⟨s, hs⟩ | ⟨s, m, e, hm, hs⟩ := isFinite_cases h.finite <;> rw [hs]
  · simp [UnpackedFloat.toInt, valueOf]
  · have hpos : (0 : ℚ) < m * 2 ^ e := mul_pos (by exact_mod_cast hm) (two_zpow_pos e)
    rw [UnpackedFloat.toInt, roundToInt_eq, valueOf]
    cases s
    · have : 0 ≤ ⌊(m : ℚ) * 2 ^ e⌋ := Int.floor_nonneg.mpr hpos.le
      rw [signValue_negative, Nat.floor_of_nonpos (by linarith), Sign.apply]
      omega
    · rw [signValue_positive, one_mul, Sign.apply, Int.floor_toNat]

/-- Conversion to a byte or a word cuts the fraction off and saturates. -/
theorem Denotes.toNat_toUInt8 {x : Float32} {q : ℚ} (h : Denotes x q) :
    x.toUInt8.toNat = min ⌊q⌋₊ (2 ^ 8 - 1) := by
  show (UInt8.ofNatClamp ((view x).toInt 0 (UInt8.size - 1)).toNat).toNat = _
  rw [h.toNat_toInt]
  rcases Nat.lt_or_ge ⌊q⌋₊ UInt8.size with hlt | hge
  · rw [UInt8.toNat_ofNatClamp_of_lt hlt]
    exact (min_eq_left (Nat.le_pred_of_lt hlt)).symm
  · rw [UInt8.toNat_ofNatClamp_of_le hge]
    exact (min_eq_right (Nat.le_of_lt (Nat.lt_of_lt_of_le (by decide) hge))).symm

theorem Denotes.toNat_toUInt32 {x : Float32} {q : ℚ} (h : Denotes x q) :
    x.toUInt32.toNat = min ⌊q⌋₊ (2 ^ 32 - 1) := by
  show (UInt32.ofNatClamp ((view x).toInt 0 (UInt32.size - 1)).toNat).toNat = _
  rw [h.toNat_toInt]
  rcases Nat.lt_or_ge ⌊q⌋₊ UInt32.size with hlt | hge
  · rw [UInt32.toNat_ofNatClamp_of_lt hlt]
    exact (min_eq_left (Nat.le_pred_of_lt hlt)).symm
  · rw [UInt32.toNat_ofNatClamp_of_le hge]
    exact (min_eq_right (Nat.le_of_lt (Nat.lt_of_lt_of_le (by decide) hge))).symm

theorem Denotes.toNat_toUInt64 {x : Float32} {q : ℚ} (h : Denotes x q) :
    x.toUInt64.toNat = min ⌊q⌋₊ (2 ^ 64 - 1) := by
  show (UInt64.ofNatClamp ((view x).toInt 0 (UInt64.size - 1)).toNat).toNat = _
  rw [h.toNat_toInt]
  rcases Nat.lt_or_ge ⌊q⌋₊ UInt64.size with hlt | hge
  · rw [UInt64.toNat_ofNatClamp_of_lt hlt]
    exact (min_eq_left (Nat.le_pred_of_lt hlt)).symm
  · rw [UInt64.toNat_ofNatClamp_of_le hge]
    exact (min_eq_right (Nat.le_of_lt (Nat.lt_of_lt_of_le (by decide) hge))).symm

/-! ## Constants -/

theorem denotes_of_view {x : Float32} (m : ℕ) (e : ℤ) (h : ∃ hm, view x = .finite .positive m e hm) :
    Denotes x (m * 2 ^ e) := by
  obtain ⟨hm, h⟩ := h
  exact ⟨by rw [h]; rfl, by rw [h, valueOf, signValue_positive, one_mul]⟩

theorem denotes_of_view_eq {x : Float32} {q : ℚ} (m : ℕ) (e : ℤ)
    (h : ∃ hm, view x = .finite .positive m e hm) (hq : q = m * 2 ^ e) : Denotes x q :=
  hq ▸ denotes_of_view m e h

theorem denotes_zero : Denotes 0.0 0 := ⟨rfl, rfl⟩

theorem denotes_one : Denotes 1.0 1 :=
  denotes_of_view_eq (2 ^ 23) (-23) ⟨by decide, rfl⟩ (by norm_num)

theorem denotes_half : Denotes 0.5 (1 / 2) :=
  denotes_of_view_eq (2 ^ 23) (-24) ⟨by decide, rfl⟩ (by norm_num)

theorem denotes_two : Denotes 2.0 2 :=
  denotes_of_view_eq (2 ^ 23) (-22) ⟨by decide, rfl⟩ (by norm_num)

theorem denotes_255 : Denotes 255.0 255 :=
  denotes_of_view_eq (255 * 2 ^ 16) (-16) ⟨by decide, rfl⟩ (by norm_num)

/-! ## Zero and one -/

theorem isValue_zero : IsValue 0 := denotes_zero.isValue

section Identities
variable {x y : Float32} {p q : ℚ}

theorem denotes_zero_mul (hx : Denotes x 0) (hy : Denotes y q) : Denotes (x * y) 0 := by
  have := hx.mul_exact hy (by rw [zero_mul]; exact isValue_zero)
  rwa [zero_mul] at this

theorem denotes_mul_zero (hx : Denotes x p) (hy : Denotes y 0) : Denotes (x * y) 0 := by
  have := hx.mul_exact hy (by rw [mul_zero]; exact isValue_zero)
  rwa [mul_zero] at this

theorem denotes_add_zero (hx : Denotes x p) (hy : Denotes y 0) : Denotes (x + y) p := by
  have := hx.add_exact hy (by rw [add_zero]; exact hx.isValue)
  rwa [add_zero] at this

theorem denotes_zero_add (hx : Denotes x 0) (hy : Denotes y q) : Denotes (x + y) q := by
  have := hx.add_exact hy (by rw [zero_add]; exact hy.isValue)
  rwa [zero_add] at this

theorem denotes_mul_one (hx : Denotes x p) (hy : Denotes y 1) : Denotes (x * y) p := by
  have := hx.mul_exact hy (by rw [mul_one]; exact hx.isValue)
  rwa [mul_one] at this

theorem denotes_div_one (hx : Denotes x p) (hy : Denotes y 1) : Denotes (x / y) p := by
  have := hx.div_exact hy one_ne_zero (by rw [div_one]; exact hx.isValue)
  rwa [div_one] at this

theorem denotes_sub_self (hx : Denotes x p) (hy : Denotes y p) : Denotes (x - y) 0 := by
  have := hx.sub_exact hy (by rw [sub_self]; exact isValue_zero)
  rwa [sub_self] at this

/-- One less nothing. -/
theorem denotes_one_sub_zero (hy : Denotes y 0) : Denotes (1.0 - y) 1 := by
  have := denotes_one.sub_exact hy (by rw [sub_zero]; exact denotes_one.isValue)
  rwa [sub_zero] at this

end Identities

/-! ## Equal values -/

theorem eq_of_view {x y : Float32} (h : view x = view y) : x = y :=
  Float32.toBits_inj.mp <| UInt32.toBitVec_inj.mp <|
    (unpack_inj_of_valid x.toModel.valid y.toModel.valid (by decide)).mp h

/-- Only zero is denoted by two values. -/
theorem Denotes.eq {x y : Float32} {q : ℚ} (hx : Denotes x q) (hy : Denotes y q) (h0 : q ≠ 0) :
    x = y := by
  obtain ⟨-, -, h | ⟨h, -⟩ | ⟨-, h⟩⟩ := Float32.beq_iff_ne_nan_and_eq.mp (hx.beq hy)
  · exact h
  · exact absurd (hx.unique (h ▸ denotes_zero)) h0
  · exact absurd (hy.unique (h ▸ denotes_zero)) h0

/-- Values that compare as equal denote the same number. -/
theorem Denotes.of_beq {x y : Float32} {q : ℚ} (hy : Denotes y q) (h : (x == y) = true) :
    Denotes x q := by
  have hneg : Denotes (-0) 0 := ⟨rfl, rfl⟩
  obtain ⟨-, -, rfl | ⟨rfl, rfl⟩ | ⟨rfl, rfl⟩⟩ := Float32.beq_iff_ne_nan_and_eq.mp h
  · exact hy
  · rw [hy.unique hneg]
    exact denotes_zero
  · rw [hy.unique denotes_zero]
    exact hneg

/-- Multiplying by one keeps every value, NaN and the infinities too. -/
theorem mul_one_eq (x : Float32) : x * 1.0 = x := by
  have hone : view 1.0 = .finite .positive (2 ^ 23) (-23) (by decide) := rfl
  have hview (h : Canonical (UnpackedFloat.mul Format.binary32 (view x) (view 1.0))) :
      view (x * 1.0) = overflow (UnpackedFloat.mul Format.binary32 (view x) (view 1.0)) := view_pack h
  cases hx : view x with
  | infinity s =>
    apply eq_of_view
    rw [hx, hone] at hview
    rw [hview trivial, hx]
    cases s <;> rfl
  | notANumber =>
    apply eq_of_view
    rw [hx] at hview
    rw [hview trivial, hx]
    rfl
  | zero s =>
    apply eq_of_view
    rw [hx, hone] at hview
    rw [hview trivial, hx]
    cases s <;> rfl
  | finite s m e hm =>
    have hq : Denotes x (valueOf (view x)) := ⟨by rw [hx]; rfl, rfl⟩
    apply (denotes_mul_one hq denotes_one).eq hq
    rw [hx, valueOf]
    have hpos : (0 : ℚ) < m * 2 ^ e := mul_pos (by exact_mod_cast hm) (two_zpow_pos e)
    cases s
    · rw [signValue_negative, neg_one_mul]
      exact neg_ne_zero.mpr hpos.ne'
    · rw [signValue_positive, one_mul]
      exact hpos.ne'

/-- The order of the factors does not matter, for infinities and NaN neither. -/
theorem mul_comm_eq (x y : Float32) : x * y = y * x := by
  have hsign (s t : Sign) : s * t = t * s := by cases s <;> cases t <;> rfl
  have hfields : UnpackedFloat.mul Format.binary32 (view x) (view y) =
      UnpackedFloat.mul Format.binary32 (view y) (view x) := by
    cases view x <;> cases view y <;> simp only [UnpackedFloat.mul, hsign, Nat.mul_comm, Int.add_comm]
  change Float32.ofModel (.pack (UnpackedFloat.mul Format.binary32 (view x) (view y))) =
    Float32.ofModel (.pack (UnpackedFloat.mul Format.binary32 (view y) (view x)))
  rw [hfields]

end TileCompositor.Binary32
