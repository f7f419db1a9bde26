import RcppRedis.Lib.Binary64Value
import Mathlib.Data.Rat.Floor
import Mathlib.Data.Fintype.Lattice
import Mathlib.Algebra.Order.Round

/-!
# Doubles with six decimals

`%f` prints a double as a whole number of millionths.  Whoever reads the text back rounds to a
nearest double again.

* `isHalfEven_millionths` — the printed number is the nearest, and even at a tie.
* `parseFixed_formatF` — the text denotes it.
* `Rounding.le_iff` — reading back keeps the order of the printed numbers, ties included.
-/

namespace Double

open Bytes

/-! ## Millionths -/

/-- What `%f` prints, in millionths. -/
def millionths (d : Double) : ℤ :=
  let (num, den) := d.magnitude (10 ^ 6)
  if d.negative then -(roundHalfEven num den : ℤ) else roundHalfEven num den

/-- **The printed number** is nearest to the double, and even at a tie. -/
theorem isHalfEven_millionths (d : Double) : IsHalfEven (d.toRat * 10 ^ 6) d.millionths := by
  have hround : IsHalfEven (d.mantissa * 2 ^ d.exponent * 10 ^ 6)
      (roundHalfEven (d.magnitude (10 ^ 6)).1 (d.magnitude (10 ^ 6)).2 : ℕ) := by
    have hden : 0 < (d.magnitude (10 ^ 6)).2 := Nat.two_pow_pos _
    have h := isHalfEven_roundHalfEven (d.magnitude (10 ^ 6)).1 hden
    rw [magnitude_eq] at h
    exact_mod_cast h
  rw [toRat, millionths]
  simp only
  split_ifs
  · rw [neg_mul, neg_mul, one_mul]
    exact hround.neg
  · rw [one_mul]
    exact hround

theorem millionths_mono {d d' : Double} (h : d.toRat ≤ d'.toRat) :
    d.millionths ≤ d'.millionths :=
  (isHalfEven_millionths d).mono (isHalfEven_millionths d')
    (mul_le_mul_of_nonneg_right h (by norm_num))

/-! ## Reading the text -/

/-- The value of digits, or of digits, a point and digits. -/
def parsePlain (b : Bytes) : Option ℚ :=
  match b.dropWhile isDigit with
  | [] => (parseDecimal b).map fun n : ℕ => (n : ℚ)
  | 46 :: frac => do
      let n ← parseDecimal (b.takeWhile isDigit)
      let m ← parseDecimal frac
      pure (n + m / 10 ^ frac.length)
  | _ => none

/-- The value of a decimal fraction with an optional minus sign. -/
def parseFixed : Bytes → Option ℚ
  | 45 :: b => (parsePlain b).map fun q => -q
  | b => parsePlain b

/-- Zeros in front do not change a numeral. -/
theorem parseDecimal_replicate_append (k n : ℕ) :
    parseDecimal (List.replicate k (digit 0) ++ decimal n) = some n := by
  have hall : (decimal n).all isDigit = true := by
    rw [List.all_eq_true]
    exact fun c hc => isDigit_of_mem_decimal hc
  have hread := parseDecimal_decimal n
  rw [parseDecimal, if_pos ⟨decimal_ne_nil n, hall⟩, Option.some.injEq] at hread
  have hzero : (digit 0).toNat - 48 = 0 := rfl
  have hfull : (List.replicate k (digit 0) ++ decimal n).all isDigit = true := by
    rw [List.all_append, hall, Bool.and_true, List.all_eq_true]
    intro c hc
    rw [List.eq_of_mem_replicate hc]
    rfl
  rw [parseDecimal, if_pos ⟨by simp [decimal_ne_nil], hfull⟩, List.map_append,
    List.map_replicate, hzero, List.reverse_append, List.reverse_replicate,
    Nat.ofDigits_append_replicate_zero, hread]

/-- A fraction is padded to six digits. -/
theorem length_padded {m : ℕ} (hm : m < 10 ^ 6) :
    (List.replicate (6 - (decimal m).length) (digit 0) ++ decimal m).length = 6 := by
  have hle := length_decimal_le hm (by norm_num)
  rw [List.length_append, List.length_replicate]
  omega

theorem parsePlain_decimal {n m : ℕ} (hm : m < 10 ^ 6) :
    parsePlain (decimal n ++ 46 ::
      (List.replicate (6 - (decimal m).length) (digit 0) ++ decimal m)) =
      some (((n * 10 ^ 6 + m : ℕ) : ℚ) / 10 ^ 6) := by
  have hdigits : ∀ c ∈ decimal n, isDigit c = true := fun c hc => isDigit_of_mem_decimal hc
  have hpoint : isDigit 46 = false := rfl
  rw [parsePlain, List.dropWhile_append_of_pos hdigits, List.takeWhile_append_of_pos hdigits,
    List.dropWhile_cons_of_neg (by simp [hpoint]),
      List.takeWhile_cons_of_neg (by simp [hpoint]),
    List.append_nil]
  simp only [parseDecimal_decimal, parseDecimal_replicate_append, length_padded hm,
    Option.bind_eq_bind, Option.bind_some, Option.pure_def, Option.some.injEq]
  rw [Nat.cast_add, Nat.cast_mul, Nat.cast_pow, Nat.cast_ofNat, add_div,
    mul_div_cancel_right₀ _ (by norm_num)]

theorem parseFixed_of_head {b : Bytes} (hb : b.head? ≠ some 45) :
    parseFixed b = parsePlain b := by
  rw [parseFixed]
  rintro c rfl
  exact hb rfl

/-- The sign, the whole part and the fraction of a text. -/
theorem formatF_eq {d : Double} (hd : d.isFinite = true) : ∃ k : ℕ,
    d.millionths = (if d.negative then -(k : ℤ) else k) ∧
    d.formatF = (if d.negative then [45] else []) ++ (decimal (k / 10 ^ 6) ++
      46 :: (List.replicate (6 - (decimal (k % 10 ^ 6)).length) (digit 0) ++ decimal
        (k % 10 ^ 6))) := by
  rw [millionths, formatF, if_pos hd]
  rcases d.magnitude (10 ^ 6) with ⟨num, den⟩
  refine ⟨roundHalfEven num den, ?_, ?_⟩
  · simp only
  · simp only [List.append_assoc, List.cons_append]

/-- **The text of a finite double** denotes the number of millionths that it shows. -/
theorem parseFixed_formatF {d : Double} (hd : d.isFinite = true) :
    parseFixed d.formatF = some ((d.millionths : ℚ) / 10 ^ 6) := by
  obtain ⟨k, hmillionths, htext⟩ := formatF_eq hd
  have hk : k / 10 ^ 6 * 10 ^ 6 + k % 10 ^ 6 = k := by omega
  have hplain := parsePlain_decimal (n := k / 10 ^ 6) (m := k % 10 ^ 6) (by omega)
  rw [hk] at hplain
  rw [htext, hmillionths]
  by_cases hneg : d.negative = true
  · simp only [if_pos hneg, List.cons_append, List.nil_append]
    rw [parseFixed, hplain, Option.map_some, Int.cast_neg, neg_div]
    rfl
  · simp only [if_neg hneg, List.nil_append]
    rw [parseFixed_of_head, hplain]
    · rfl
    · intro h
      rw [List.head?_append_of_ne_nil _ (decimal_ne_nil _)] at h
      exact notMem_decimal (by decide) _ (List.mem_of_head? h)

/-! ## Reading back to a double -/

/-- The greatest finite double. -/
def maxFinite : ℤ := (2 ^ 53 - 1) * 2 ^ 971

theorem mantissa_lt (d : Double) : d.mantissa < 2 ^ 53 := by
  have hfraction : d.fraction < 2 ^ 52 := Nat.mod_lt _ (by norm_num)
  rw [mantissa]
  split_ifs <;> omega

theorem exponent_le {d : Double} (hd : d.isFinite = true) : d.exponent ≤ 971 := by
  have hlt : d.exponentBits < 2 ^ 11 := Nat.mod_lt _ (by norm_num)
  have hne : d.exponentBits ≠ 2 ^ 11 - 1 := by simpa [isFinite] using hd
  rw [exponent]
  omega

theorem abs_toRat (d : Double) : |d.toRat| = d.mantissa * 2 ^ d.exponent := by
  have hpos : (0 : ℚ) ≤ d.mantissa * 2 ^ d.exponent := by positivity
  rw [toRat]
  split_ifs
  · rw [neg_one_mul, abs_neg, abs_of_nonneg hpos]
  · rw [one_mul, abs_of_nonneg hpos]

theorem abs_toRat_le {d : Double} (hd : d.isFinite = true) : |d.toRat| ≤ maxFinite := by
  have hmantissa : (d.mantissa : ℚ) ≤ 2 ^ 53 - 1 := by
    have hlt : (d.mantissa : ℚ) + 1 ≤ 2 ^ 53 := by exact_mod_cast d.mantissa_lt
    linarith
  have hpow : (2 : ℚ) ^ d.exponent ≤ 2 ^ 971 := by
    have hle := zpow_le_zpow_right₀ (show (1 : ℚ) ≤ 2 by norm_num) (exponent_le hd)
    exact_mod_cast hle
  rw [abs_toRat, maxFinite, Int.cast_mul, Int.cast_sub, Int.cast_pow, Int.cast_pow,
    Int.cast_one, Int.cast_ofNat]
  exact mul_le_mul hmantissa hpow (by positivity) (by norm_num)

/-- What is printed of a finite double is no further out than the greatest one. -/
theorem abs_millionths_le {d : Double} (hd : d.isFinite = true) :
    |d.millionths| ≤ maxFinite * 10 ^ 6 := by
  have hle := abs_le.mp (abs_toRat_le hd)
  have hmax : ((maxFinite * 10 ^ 6 : ℤ) : ℚ) = maxFinite * 10 ^ 6 := by
    rw [Int.cast_mul, Int.cast_pow, Int.cast_ofNat]
  rw [abs_le]
  constructor
  · refine IsHalfEven.mono (isHalfEven_intCast _) (isHalfEven_millionths d) ?_
    rw [Int.cast_neg, hmax]
    linarith [hle.1]
  · refine (isHalfEven_millionths d).mono (isHalfEven_intCast _) ?_
    rw [hmax]
    linarith [hle.2]

theorem abs_ratio_le {d : Double} (hd : d.isFinite = true) :
    |(d.millionths : ℚ) / 10 ^ 6| ≤ (maxFinite : ℚ) := by
  have hle : ((|d.millionths| : ℤ) : ℚ) ≤ ((maxFinite * 10 ^ 6 : ℤ) : ℚ) :=
    Int.cast_le.mpr (abs_millionths_le hd)
  rw [Int.cast_abs, Int.cast_mul, Int.cast_pow, Int.cast_ofNat] at hle
  rwa [abs_div, abs_of_pos (show (0 : ℚ) < 10 ^ 6 by norm_num), div_le_iff₀ (by norm_num)]

/-- Three bits take less than a digit. -/
theorem maxFinite_lt : maxFinite < 10 ^ 342 := by
  rw [maxFinite]
  calc (2 ^ 53 - 1) * 2 ^ 971 < (2 ^ 53 * 2 ^ 971 : ℤ) :=
        mul_lt_mul_of_pos_right (by norm_num) (by positivity)
    _ = 2 ^ (53 + 971) := (pow_add 2 53 971).symm
    _ ≤ 2 ^ (3 * 342) := pow_le_pow_right₀ (by norm_num) (by norm_num)
    _ = (2 ^ 3) ^ 342 := pow_mul 2 3 342
    _ ≤ 10 ^ 342 := pow_le_pow_left₀ (by norm_num) (by norm_num) 342

/-- The text of a finite double has at most 342 digits before the point. -/
theorem length_formatF_le {d : Double} (hd : d.isFinite = true) : d.formatF.length ≤ 350 := by
  obtain ⟨k, hmillionths, htext⟩ := formatF_eq hd
  have hk : (k : ℤ) < 10 ^ 342 * 10 ^ 6 := by
    have habs : |d.millionths| = k := by
      rw [hmillionths]
      split_ifs
      · rw [abs_neg, Nat.abs_cast]
      · rw [Nat.abs_cast]
    rw [← habs]
    exact (abs_millionths_le hd).trans_lt (mul_lt_mul_of_pos_right maxFinite_lt (by norm_num))
  have hwhole : (decimal (k / 10 ^ 6)).length ≤ 342 := by
    refine length_decimal_le ?_ (by norm_num)
    rw [Nat.div_lt_iff_lt_mul (by norm_num)]
    exact_mod_cast hk
  rw [htext, List.length_append, List.length_append, List.length_cons,
    length_padded (by omega)]
  split_ifs
  · rw [List.length_singleton]
    omega
  · rw [List.length_nil]
    omega

/-- A reader of numbers that rounds to a nearest double. -/
structure Rounding where
  round : ℚ → Double
  isFinite_round : ∀ {q : ℚ}, |q| ≤ (maxFinite : ℚ) → (round q).isFinite = true
  nearest : ∀ {q : ℚ}, |q| ≤ (maxFinite : ℚ) → ∀ {d : Double}, d.isFinite = true →
    |q - (round q).toRat| ≤ |q - d.toRat|

namespace Rounding

theorem exists_nearest (q : ℚ) :
    ∃ d : Double, d.isFinite = true ∧ ∀ d' : Double, d'.isFinite = true →
      |q - d.toRat| ≤ |q - d'.toRat| := by
  have hfinite : Finite {d : Double // d.isFinite = true} :=
    Finite.of_injective (fun d => d.1.toFin) fun d d' h => Subtype.ext (BitVec.toFin_inj.mp h)
  have hnonempty : Nonempty {d : Double // d.isFinite = true} := ⟨⟨0, rfl⟩⟩
  obtain ⟨d, hd⟩ := Finite.exists_min fun d : {d : Double // d.isFinite = true} =>
    |q - d.1.toRat|
  exact ⟨d.1, d.2, fun d' hd' => hd ⟨d', hd'⟩⟩

noncomputable instance : Inhabited Rounding where
  default :=
    { round := fun q => (exists_nearest q).choose
      isFinite_round := fun _ => (exists_nearest _).choose_spec.1
      nearest := fun _ d hd => (exists_nearest _).choose_spec.2 d hd }

variable (ρ : Rounding)

/-- The number that is read for `q`. -/
def value (q : ℚ) : ℚ := (ρ.round q).toRat

theorem value_mono {q q' : ℚ} (hq : |q| ≤ (maxFinite : ℚ))
    (hq' : |q'| ≤ (maxFinite : ℚ)) (h : q ≤ q') :
    ρ.value q ≤ ρ.value q' := by
  rcases h.eq_or_lt with rfl | hlt
  · exact le_rfl
  · by_contra! hvalue
    have hnear : |q - ρ.value q| ≤ |q - ρ.value q'| :=
      ρ.nearest hq (d := ρ.round q') (ρ.isFinite_round hq')
    have hnear' : |q' - ρ.value q'| ≤ |q' - ρ.value q| :=
      ρ.nearest hq' (d := ρ.round q) (ρ.isFinite_round hq)
    -- the middle between the two values would have to be below `q` and above `q'`
    have hmiddle : ρ.value q + ρ.value q' ≤ 2 * q := by
      by_contra! hlow
      rw [abs_sub_comm, abs_of_pos (by linarith)] at hnear
      rcases abs_cases (q - ρ.value q') with ⟨habs, -⟩ | ⟨habs, -⟩ <;> linarith
    have hmiddle' : 2 * q' ≤ ρ.value q + ρ.value q' := by
      by_contra! hhigh
      rw [abs_of_pos (show 0 < q' - ρ.value q' by linarith)] at hnear'
      rcases abs_cases (q' - ρ.value q) with ⟨habs, -⟩ | ⟨habs, -⟩ <;> linarith
    linarith

/-- The number that is read for the text of a double. -/
def reread (d : Double) : ℚ := ρ.value (d.millionths / 10 ^ 6)

/-- What is read for the text of a double is printed as the same number. -/
theorem isHalfEven_reread {d : Double} (hd : d.isFinite = true) :
    IsHalfEven (ρ.reread d * 10 ^ 6) d.millionths := by
  obtain ⟨hhalf, htie⟩ := isHalfEven_millionths d
  have hscale (x : ℚ) : |x * 10 ^ 6 - d.millionths| =
      |d.millionths / 10 ^ 6 - x| * 10 ^ 6 := by
    rw [abs_sub_comm, ← abs_of_pos (show (0 : ℚ) < 10 ^ 6 by norm_num), ← abs_mul, sub_mul,
      abs_of_pos (show (0 : ℚ) < 10 ^ 6 by norm_num), div_mul_cancel₀ _ (by norm_num)]
  have hnear : |ρ.reread d * 10 ^ 6 - d.millionths| ≤
      |d.toRat * 10 ^ 6 - d.millionths| := by
    rw [hscale, hscale]
    exact mul_le_mul_of_nonneg_right (ρ.nearest (abs_ratio_le hd) hd) (by norm_num)
  have hdouble := mul_le_mul_of_nonneg_left hnear (show (0 : ℚ) ≤ 2 by norm_num)
  exact ⟨hdouble.trans hhalf, fun heq => htie (le_antisymm hhalf (heq.symm.trans_le hdouble))⟩

/-- **Reading back keeps the order** of the printed numbers, ties included. -/
theorem le_iff {d d' : Double} (hd : d.isFinite = true) (hd' : d'.isFinite = true) :
    ρ.reread d ≤ ρ.reread d' ↔ d.millionths ≤ d'.millionths := by
  constructor
  · intro h
    refine (ρ.isHalfEven_reread hd).mono (ρ.isHalfEven_reread hd') ?_
    exact mul_le_mul_of_nonneg_right h (by norm_num)
  · intro h
    refine ρ.value_mono (abs_ratio_le hd) (abs_ratio_le hd') ?_
    exact div_le_div_of_nonneg_right (by exact_mod_cast h) (by norm_num)

theorem eq_iff {d d' : Double} (hd : d.isFinite = true) (hd' : d'.isFinite = true) :
    ρ.reread d = ρ.reread d' ↔ d.millionths = d'.millionths := by
  rw [le_antisymm_iff, le_antisymm_iff, ρ.le_iff hd hd', ρ.le_iff hd' hd]

end Rounding

end Double
