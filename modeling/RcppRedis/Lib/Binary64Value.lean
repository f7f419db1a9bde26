import RcppRedis.Lib.Binary64
import Mathlib.Tactic.Linarith
import Mathlib.Tactic.FieldSimp
import Mathlib.Tactic.Ring
import Mathlib.Tactic.Positivity
import Mathlib.Algebra.Order.Field.Basic
import Mathlib.Algebra.Order.Field.Power
import Mathlib.Data.Rat.Cast.Order
import Mathlib.Algebra.Group.Int.Even

/-!
# The exact value of a double

`toRat` is the rational number that a finite double stands for.

* `toRat_ofInt` — an integer of at most 53 bits is converted exactly.
* `IsHalfEven.mono`, `IsHalfAway.mono` — both ways of rounding to an integer keep the order.
* `isHalfAway_round` — which of them `round` is.
-/

namespace Double

open Bytes

/-- The value of a finite double. -/
def toRat (d : Double) : ℚ := (if d.negative then -1 else 1) * (d.mantissa * 2 ^ d.exponent)

/-! ## Fields -/

/-- A normal double has the value that its fields say. -/
theorem toRat_of_fields {s k f : ℕ} (hs : s < 2) (hk : 0 < k) (hk' : k < 2 ^ 11)
    (hf : f < 2 ^ 52) : toRat (BitVec.ofNat 64 (s * 2 ^ 63 + (k * 2 ^ 52 + f))) =
      (if s = 1 then -1 else 1) * ((2 ^ 52 + f : ℕ) * 2 ^ ((k : ℤ) - 1075)) := by
  have hnat : (BitVec.ofNat 64 (s * 2 ^ 63 + (k * 2 ^ 52 + f))).toNat =
      s * 2 ^ 63 + (k * 2 ^ 52 + f) := by
    rw [BitVec.toNat_ofNat]
    omega
  have hexponent : exponentBits (BitVec.ofNat 64 (s * 2 ^ 63 + (k * 2 ^ 52 + f))) = k := by
    rw [exponentBits, hnat]
    omega
  have hfraction : fraction (BitVec.ofNat 64 (s * 2 ^ 63 + (k * 2 ^ 52 + f))) = f := by
    rw [fraction, hnat]
    omega
  have hnegative : negative (BitVec.ofNat 64 (s * 2 ^ 63 + (k * 2 ^ 52 + f))) =
      decide (s = 1) := by
    rw [negative, BitVec.msb_eq_decide, hnat]
    congr 1
    simp only [eq_iff_iff]
    omega
  have hmantissa : mantissa (BitVec.ofNat 64 (s * 2 ^ 63 + (k * 2 ^ 52 + f))) =
      2 ^ 52 + f := by
    rw [mantissa, hexponent, hfraction, if_neg (Nat.pos_iff_ne_zero.mp hk)]
  rw [toRat, hmantissa, exponent, hexponent, hnegative, Nat.max_eq_left hk]
  simp only [decide_eq_true_eq]

/-! ## Integers -/

theorem ofNatBits_eq {n : ℕ} (hn : n ≠ 0) (h : n ≤ 2 ^ 53) :
    ∃ k f : ℕ, ofNatBits n = k * 2 ^ 52 + f ∧ 0 < k ∧ k < 2 ^ 11 ∧ f < 2 ^ 52 ∧
      ((2 ^ 52 + f : ℕ) : ℚ) * 2 ^ ((k : ℤ) - 1075) = n := by
  have hlow := Nat.log2_self_le hn
  have hhigh := @Nat.lt_log2_self n
  rcases Nat.lt_or_ge n (2 ^ 53) with hlt | hge
  · have he : n.log2 ≤ 52 := by
      have := (Nat.log2_lt hn).mpr hlt
      omega
    have hpow : 2 ^ n.log2 * 2 ^ (52 - n.log2) = 2 ^ 52 := by
      rw [← Nat.pow_add, Nat.add_sub_cancel' he]
    have hge : 2 ^ 52 ≤ n * 2 ^ (52 - n.log2) := by
      rw [← hpow]
      exact Nat.mul_le_mul_right _ hlow
    have hlt : n * 2 ^ (52 - n.log2) < 2 * 2 ^ 52 := by
      rw [← hpow, ← Nat.mul_assoc, ← Nat.pow_succ']
      exact Nat.mul_lt_mul_of_pos_right hhigh (Nat.two_pow_pos _)
    refine ⟨n.log2 + 1023, n * 2 ^ (52 - n.log2) - 2 ^ 52,
      ?_, by omega, by omega, by omega, ?_⟩
    · rw [ofNatBits, if_neg hn]
      simp only [if_pos he]
      omega
    · rw [Nat.add_sub_cancel' hge]
      have hexp : ((n.log2 + 1023 : ℕ) : ℤ) - 1075 = -((52 - n.log2 : ℕ) : ℤ) := by omega
      rw [hexp, zpow_neg, zpow_natCast]
      push_cast
      exact mul_inv_cancel_right₀ (by positivity) _
  · obtain rfl : n = 2 ^ 53 := by omega
    refine ⟨1076, 0, by decide, by decide, by decide, by decide, ?_⟩
    norm_num

/-- **An integer of at most 53 bits is converted exactly.** -/
theorem toRat_ofInt {n : ℤ} (h : n.natAbs ≤ 2 ^ 53) : (ofInt n).toRat = n := by
  by_cases hn : n = 0
  · subst hn
    simp [ofInt, ofNatBits, toRat, mantissa, fraction, exponentBits]
  · obtain ⟨k, f, hbits, hk, hk', hf, hvalue⟩ := ofNatBits_eq (by omega : n.natAbs ≠ 0) h
    rw [ofInt, hbits]
    split_ifs with hneg
    · have hfields := toRat_of_fields (s := 1) (by omega) hk hk' hf
      rw [Nat.one_mul] at hfields
      rw [hfields, if_pos rfl, hvalue, Nat.cast_natAbs, abs_of_neg hneg]
      push_cast
      ring
    · have hfields := toRat_of_fields (s := 0) (by omega) hk hk' hf
      rw [Nat.zero_mul, Nat.zero_add] at hfields
      rw [hfields, if_neg (by omega), hvalue, Nat.cast_natAbs, abs_of_nonneg (by omega)]
      ring

theorem magnitude_eq (d : Double) (scale : ℕ) :
    ((d.magnitude scale).1 : ℚ) / (d.magnitude scale).2 =
      d.mantissa * 2 ^ d.exponent * scale := by
  rcases Int.le_total 0 d.exponent with h | h
  · obtain ⟨e, he⟩ := Int.eq_ofNat_of_zero_le h
    simp [magnitude, he]
    ring
  · obtain ⟨e, he⟩ := Int.eq_ofNat_of_zero_le (Int.neg_nonneg_of_nonpos h)
    obtain he' : d.exponent = -(e : ℤ) := by omega
    simp [magnitude, he', zpow_neg]
    ring

/-! ## Nearest integers -/

/-- Nearest integers of two numbers are in their order, unless both numbers are halfway between
the same two. -/
theorem ties_of_nearest {x y : ℚ} {m n : ℤ} (hx : 2 * |x - m| ≤ 1) (hy : 2 * |y - n| ≤ 1)
    (hxy : x ≤ y) (hlt : n < m) : m = n + 1 ∧ x = n + 1 / 2 ∧ y = n + 1 / 2 := by
  have hstep : (n : ℚ) + 1 ≤ m := by exact_mod_cast hlt
  have hxm := abs_le.mp (show |x - m| ≤ 1 / 2 by linarith)
  have hyn := abs_le.mp (show |y - n| ≤ 1 / 2 by linarith)
  have hle : (m : ℚ) ≤ n + 1 := by linarith [hxm.1, hyn.2]
  have hm : m ≤ n + 1 := by exact_mod_cast hle
  exact ⟨by omega, by linarith [hxm.1, hyn.2], by linarith [hxm.1, hyn.2]⟩


/-- An integer nearest to `x`, and an even one if there are two. -/
def IsHalfEven (x : ℚ) (n : ℤ) : Prop := 2 * |x - n| ≤ 1 ∧ (2 * |x - n| = 1 → Even n)

theorem IsHalfEven.neg {x : ℚ} {n : ℤ} (h : IsHalfEven x n) : IsHalfEven (-x) (-n) := by
  have habs : |-x - ((-n : ℤ) : ℚ)| = |x - n| := by
    rw [Int.cast_neg, ← neg_sub', abs_neg]
  rw [IsHalfEven, habs]
  exact ⟨h.1, fun htie => (h.2 htie).neg⟩

/-- **Rounding half to even** is monotone. -/
theorem IsHalfEven.mono {x y : ℚ} {m n : ℤ} (hx : IsHalfEven x m) (hy : IsHalfEven y n)
    (hxy : x ≤ y) : m ≤ n := by
  by_contra! hlt
  -- both are ties, at neighbouring integers
  obtain ⟨rfl, hxtie, hytie⟩ := ties_of_nearest hx.1 hy.1 hxy hlt
  have hmeven : Even (n + 1) := hx.2 (by rw [hxtie]; push_cast; rw [abs_sub_comm]; norm_num)
  have hneven : Even n := hy.2 (by rw [hytie]; norm_num)
  rw [Int.even_add_one] at hmeven
  exact hmeven hneven

theorem isHalfEven_intCast (n : ℤ) : IsHalfEven n n := by
  simp [IsHalfEven]

/-- A ratio is compared to one half by its remainder. -/
theorem two_mul_ratio_iff {r den : ℕ} (hden : 0 < den) :
    (2 * ((r : ℚ) / den) ≤ 1 ↔ 2 * r ≤ den) ∧ (2 * ((r : ℚ) / den) = 1 ↔ 2 * r = den) := by
  have hden' : (0 : ℚ) < den := by exact_mod_cast hden
  rw [← mul_div_assoc]
  constructor
  · rw [div_le_one hden']
    norm_cast
  · rw [div_eq_one_iff_eq hden'.ne']
    norm_cast

theorem isHalfEven_roundHalfEven (num : ℕ) {den : ℕ} (hden : 0 < den) :
    IsHalfEven (num / den) (roundHalfEven num den : ℕ) := by
  have hden' : (0 : ℚ) < den := by exact_mod_cast hden
  have hdiv : (num : ℚ) / den = (num / den : ℕ) + (num % den : ℕ) / den := by
    have hmod : (num : ℚ) = den * (num / den : ℕ) + (num % den : ℕ) := by
      exact_mod_cast (Nat.div_add_mod num den).symm
    rw [div_eq_iff hden'.ne', add_mul, div_mul_cancel₀ _ hden'.ne', mul_comm]
    exact hmod
  have hlt : num % den < den := Nat.mod_lt num hden
  rw [hdiv, roundHalfEven]
  generalize num / den = q
  generalize num % den = r at hlt
  have hratio : (r : ℚ) / den ≤ 1 := (div_le_one hden').mpr (by exact_mod_cast hlt.le)
  have hratio0 : (0 : ℚ) ≤ r / den := by positivity
  obtain ⟨hle, heq⟩ := two_mul_ratio_iff (r := r) hden
  split_ifs with hup
  · have hdist : |((q : ℚ) + r / den) - ((q + 1 : ℕ) : ℤ)| = 1 - r / den := by
      push_cast
      rw [abs_sub_comm, abs_of_nonneg] <;> linarith
    have hhalf : 1 ≤ 2 * ((r : ℚ) / den) := by
      by_contra! hless
      have hless' := hle.mp hless.le
      have hne : 2 * r ≠ den := fun h => by rw [heq.mpr h] at hless; exact lt_irrefl _ hless
      omega
    rw [IsHalfEven, hdist]
    refine ⟨by linarith, fun htie => ?_⟩
    have htie' : 2 * r = den := heq.mp (by linarith)
    rw [Int.even_iff]
    omega
  · have hdist : |((q : ℚ) + r / den) - ((q : ℕ) : ℤ)| = r / den := by
      push_cast
      rw [add_sub_cancel_left, abs_of_nonneg hratio0]
    rw [IsHalfEven, hdist]
    refine ⟨hle.mpr (by omega), fun htie => ?_⟩
    have htie' : 2 * r = den := heq.mp htie
    rw [Int.even_iff]
    omega

/-- An integer nearest to `x`, and the one further from zero if there are two. -/
def IsHalfAway (x : ℚ) (n : ℤ) : Prop := 2 * |x - n| ≤ 1 ∧ (2 * |x - n| = 1 → |x| < |(n : ℚ)|)

theorem IsHalfAway.neg {x : ℚ} {n : ℤ} (h : IsHalfAway x n) : IsHalfAway (-x) (-n) := by
  have habs : |-x - ((-n : ℤ) : ℚ)| = |x - n| := by
    rw [Int.cast_neg, ← neg_sub', abs_neg]
  rw [IsHalfAway, habs, Int.cast_neg, abs_neg, abs_neg]
  exact h

/-- **Rounding half away from zero** is monotone. -/
theorem IsHalfAway.mono {x y : ℚ} {m n : ℤ} (hx : IsHalfAway x m) (hy : IsHalfAway y n)
    (hxy : x ≤ y) : m ≤ n := by
  by_contra! hlt
  obtain ⟨rfl, hxtie, hytie⟩ := ties_of_nearest hx.1 hy.1 hxy hlt
  have hm : |x| < |((n + 1 : ℤ) : ℚ)| :=
    hx.2 (by rw [hxtie]; push_cast; rw [abs_sub_comm]; norm_num)
  have hn : |y| < |(n : ℚ)| := hy.2 (by rw [hytie]; norm_num)
  rw [hxtie] at hm
  rw [hytie] at hn
  push_cast at hm
  -- away from zero is up for the one and down for the other
  by_cases hneg : n < 0
  · have hle : (n : ℚ) + 1 ≤ 0 := by exact_mod_cast hneg
    rw [abs_of_nonpos hle] at hm
    linarith [neg_abs_le ((n : ℚ) + 1 / 2)]
  · have hle : (0 : ℚ) ≤ n := by exact_mod_cast not_lt.mp hneg
    rw [abs_of_nonneg hle] at hn
    linarith [le_abs_self ((n : ℚ) + 1 / 2)]

theorem isHalfAway_roundHalfAway (num : ℕ) {den : ℕ} (hden : 0 < den) :
    IsHalfAway (num / den) (roundHalfAway num den : ℕ) := by
  have hden' : (0 : ℚ) < den := by exact_mod_cast hden
  have hratio : (0 : ℚ) ≤ num / den := by positivity
  have hlow : 2 * den * roundHalfAway num den ≤ 2 * num + den := Nat.mul_div_le _ _
  have hhigh : 2 * num + den < 2 * den * (roundHalfAway num den + 1) :=
    Nat.lt_mul_div_succ _ (by omega)
  generalize roundHalfAway num den = k at hlow hhigh
  have hlow' : (k : ℚ) ≤ num / den + 1 / 2 := by
    have hcast : 2 * (den : ℚ) * k ≤ 2 * num + den := by exact_mod_cast hlow
    rw [div_add_div _ _ hden'.ne' two_ne_zero, le_div_iff₀ (by positivity)]
    linarith
  have hhigh' : (num : ℚ) / den + 1 / 2 < k + 1 := by
    have hcast : 2 * (num : ℚ) + den < 2 * den * (k + 1) := by exact_mod_cast hhigh
    rw [div_add_div _ _ hden'.ne' two_ne_zero, div_lt_iff₀ (by positivity)]
    linarith
  have habs : |(num : ℚ) / den - (k : ℤ)| ≤ 1 / 2 := by
    rw [abs_le, Int.cast_natCast]
    exact ⟨by linarith, by linarith⟩
  refine ⟨by linarith, fun htie => ?_⟩
  rw [Int.cast_natCast] at htie ⊢
  rw [abs_of_nonneg hratio, Nat.abs_cast]
  rcases abs_cases ((num : ℚ) / den - k) with ⟨heq, -⟩ | ⟨heq, -⟩
  · linarith
  · linarith

/-- **`round` of a double** is nearest to it, and further from zero at a tie. -/
theorem isHalfAway_round (d : Double) : IsHalfAway d.toRat d.round := by
  have hden : 0 < (d.magnitude 1).2 := Nat.two_pow_pos _
  have hround := isHalfAway_roundHalfAway (d.magnitude 1).1 hden
  rw [magnitude_eq, Nat.cast_one, mul_one] at hround
  rw [toRat, round]
  rcases hmagnitude : d.magnitude 1 with ⟨num, den⟩
  rw [hmagnitude] at hround
  by_cases hneg : d.negative = true
  · rw [if_pos hneg, neg_one_mul]
    simp only [if_pos hneg]
    exact hround.neg
  · rw [if_neg hneg, one_mul]
    simp only [if_neg hneg]
    exact hround

theorem round_mono {d d' : Double} (h : d.toRat ≤ d'.toRat) : d.round ≤ d'.round :=
  (isHalfAway_round d).mono (isHalfAway_round d') h

theorem round_of_toRat {d : Double} {n : ℤ} (h : d.toRat = n) : d.round = n := by
  have hself : IsHalfAway (n : ℚ) n := by simp [IsHalfAway]
  have hround := isHalfAway_round d
  rw [h] at hround
  exact le_antisymm (hround.mono hself le_rfl) (hself.mono hround le_rfl)

/-- **Whole numbers are added exactly**, as long as the sum has at most 53 bits. -/
theorem addWhole_ofInt {m n : ℤ} (hm : m.natAbs ≤ 2 ^ 53) (hn : n.natAbs ≤ 2 ^ 53) :
    addWhole (ofInt m) (ofInt n) = ofInt (m + n) := by
  rw [addWhole, round_of_toRat (toRat_ofInt hm), round_of_toRat (toRat_ofInt hn)]

end Double
