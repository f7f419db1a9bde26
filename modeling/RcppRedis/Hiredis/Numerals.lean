import RcppRedis.Hiredis.FormatSpec
import RcppRedis.Hiredis.Reader
import RcppRedis.Lib.Pieces

/-!
# The numbers and the lines of the protocol

* `string2ll_eq_some_iff` — `string2ll` reads the numerals of the `long long`s, and nothing
  else.
* `seekNewline_eq` — the search for a line end agrees with `splitLine`, as long as an `int` can
  count the bytes.
-/

namespace Hiredis

open Bytes

/-! ## Numerals without leading zeros -/

/-- The value of a string of digits, read from the left. -/
def digitsValue : ℕ → Bytes → ℕ
  | v, [] => v
  | v, c :: s => digitsValue ((c.toNat - 48) + 10 * v) s

theorem le_digitsValue (v : ℕ) (s : Bytes) : v ≤ digitsValue v s := by
  induction s generalizing v with
  | nil => exact le_rfl
  | cons c s ih =>
      rw [digitsValue]
      have hle := ih ((c.toNat - 48) + 10 * v)
      omega

theorem digitsValue_eq_ofDigits (v : ℕ) (s : Bytes) :
    digitsValue v s = Nat.ofDigits 10 ((s.map fun c => c.toNat - 48).reverse) +
      10 ^ s.length * v := by
  induction s generalizing v with
  | nil => simp [digitsValue]
  | cons c s ih =>
      rw [digitsValue, ih, List.map_cons, List.reverse_cons, Nat.ofDigits_append,
        Nat.ofDigits_singleton, List.length_reverse, List.length_map, List.length_cons]
      ring

theorem digit_toNat_sub {c : UInt8} (hc : isDigit c = true) : digit (c.toNat - 48) = c := by
  simp only [isDigit, Bool.and_eq_true, decide_eq_true_eq] at hc
  apply UInt8.toNat.inj
  rw [toNat_digit (by omega)]
  omega

theorem digitsValue_decimal (n : ℕ) : digitsValue 0 (decimal n) = n := by
  have hparse := parseDecimal_decimal n
  rw [parseDecimal] at hparse
  split_ifs at hparse with h
  rw [digitsValue_eq_ofDigits, Nat.mul_zero, Nat.add_zero]
  exact Option.some.inj hparse

/-- **Digits without a leading zero** are the numeral of their value. -/
theorem decimal_digitsValue {c : UInt8} {s : Bytes} (hs : ∀ d ∈ c :: s, isDigit d = true)
    (hc : c ≠ 48) : decimal (digitsValue 0 (c :: s)) = c :: s := by
  have hlt : ∀ d ∈ ((c :: s).map fun c => c.toNat - 48).reverse, d < 10 := by
    intro d hd
    obtain ⟨b, hb, rfl⟩ := List.mem_map.mp (List.mem_reverse.mp hd)
    have hdigit := hs b hb
    simp only [isDigit, Bool.and_eq_true, decide_eq_true_eq] at hdigit
    omega
  have hlast : ∀ h : ((c :: s).map fun c => c.toNat - 48).reverse ≠ [],
      (((c :: s).map fun c => c.toNat - 48).reverse).getLast h ≠ 0 := by
    intro h
    simp only [List.map_cons, List.reverse_cons, List.getLast_append_singleton]
    have hdigit := hs c List.mem_cons_self
    simp only [isDigit, Bool.and_eq_true, decide_eq_true_eq] at hdigit
    intro hzero
    apply hc
    apply UInt8.toNat.inj
    change c.toNat = 48
    omega
  have hvalue := digitsValue_eq_ofDigits 0 (c :: s)
  rw [Nat.mul_zero, Nat.add_zero] at hvalue
  have hdigits := Nat.digits_ofDigits 10 (by norm_num) _ hlt hlast
  rw [← hvalue] at hdigits
  have hne : digitsValue 0 (c :: s) ≠ 0 := by
    intro hzero
    rw [hzero] at hdigits
    simp at hdigits
  rw [decimal, if_neg hne, hdigits, List.map_reverse, List.reverse_reverse, List.map_map]
  conv_rhs => rw [← List.map_id (c :: s)]
  exact List.map_congr_left fun d hd => digit_toNat_sub (hs d hd)

theorem head_decimal {n : ℕ} (hn : n ≠ 0) :
    ∃ c s, decimal n = c :: s ∧ c ≠ 48 ∧ ∀ d ∈ c :: s, isDigit d = true := by
  rcases hdec : decimal n with _ | ⟨c, s⟩
  · exact absurd hdec (decimal_ne_nil n)
  · refine ⟨c, s, rfl, ?_, fun d hd => isDigit_of_mem_decimal (hdec ▸ hd)⟩
    rintro rfl
    rw [decimal, if_neg hn] at hdec
    have hlast : ((Nat.digits 10 n).map digit).getLast? = some 48 := by
      rw [← List.head?_reverse, hdec, List.head?_cons]
    rw [List.getLast?_map,
      List.getLast?_eq_some_getLast (Nat.digits_ne_nil_iff_ne_zero.mpr hn), Option.map_some,
      Option.some.injEq] at hlast
    have hpos := Nat.getLast_digit_ne_zero 10 hn
    have hlt : (Nat.digits 10 n).getLast (Nat.digits_ne_nil_iff_ne_zero.mpr hn) < 10 :=
      Nat.digits_lt_base (by norm_num) (List.getLast_mem _)
    have hnat := congrArg UInt8.toNat hlast
    rw [toNat_digit hlt] at hnat
    change 48 + _ = 48 at hnat
    omega

/-! ## `string2ll` -/

theorem string2llLoop_eq_some_iff {v w : ℕ} {s : Bytes} (hv : v < 2 ^ 64) :
    string2llLoop v s = some (w, []) ↔
      (∀ c ∈ s, isDigit c = true) ∧ w = digitsValue v s ∧ digitsValue v s < 2 ^ 64 := by
  induction s generalizing v with
  | nil =>
      simp only [string2llLoop, Option.some.injEq, Prod.mk.injEq, and_true, List.not_mem_nil,
        false_implies, implies_true, digitsValue, true_and, hv]
      exact eq_comm
  | cons c s ih =>
      have hcomm : v * 10 + (c.toNat - 48) = (c.toNat - 48) + 10 * v := by omega
      rw [string2llLoop, List.forall_mem_cons, digitsValue, hcomm]
      have hle := le_digitsValue ((c.toNat - 48) + 10 * v) s
      by_cases hdigit : 48 ≤ c.toNat ∧ c.toNat ≤ 57
      · rw [if_pos hdigit]
        have hc : isDigit c = true := by simpa [isDigit] using hdigit
        by_cases hten : v > (2 ^ 64 - 1) / 10
        · rw [if_pos hten]
          refine iff_of_false (by rintro ⟨⟩) ?_
          rintro ⟨-, -, hlt⟩
          omega
        · by_cases hsum : v * 10 > 2 ^ 64 - 1 - (c.toNat - 48)
          · rw [if_neg hten, if_pos hsum]
            refine iff_of_false (by rintro ⟨⟩) ?_
            rintro ⟨-, -, hlt⟩
            omega
          · rw [if_neg hten, if_neg hsum, ih (by omega)]
            simp only [hc, true_and]
      · rw [if_neg hdigit]
        refine iff_of_false (by rintro ⟨⟩) ?_
        rintro ⟨⟨hc, -⟩, -⟩
        exact hdigit (by simpa [isDigit] using hc)

/-- The digits of `string2ll`: a numeral without leading zeros, of a value within bounds. -/
theorem string2llDigits_eq_some_iff {negative : Bool} {s : Bytes} {x : ℤ} :
    string2llDigits negative s = some x ↔
      ∃ n : ℕ, 0 < n ∧ s = decimal n ∧
        if negative then n ≤ 2 ^ 63 ∧ x = -n else n ≤ 2 ^ 63 - 1 ∧ x = n := by
  constructor
  · intro h
    cases s with
    | nil => cases h
    | cons c s =>
        rw [string2llDigits] at h
        split at h
        case isFalse => cases h
        case isTrue hc =>
        split at h
        · rename_i v hloop
          obtain ⟨hs, rfl, -⟩ := (string2llLoop_eq_some_iff (by omega)).mp hloop
          have hvalue : digitsValue 0 (c :: s) = digitsValue (c.toNat - 48) s := by
            rw [digitsValue, Nat.mul_zero, Nat.add_zero]
          have hdigit : isDigit c = true := by
            simp only [isDigit, Bool.and_eq_true, decide_eq_true_eq]
            omega
          have hne : c ≠ 48 := by
            rintro rfl
            exact absurd hc.1 (by decide)
          have hall : ∀ d ∈ c :: s, isDigit d = true := List.forall_mem_cons.mpr ⟨hdigit, hs⟩
          have hle := le_digitsValue (c.toNat - 48) s
          refine ⟨digitsValue (c.toNat - 48) s, by omega, ?_, ?_⟩
          · rw [← hvalue, decimal_digitsValue hall hne]
          · split_ifs at h ⊢ <;> cases h <;> exact ⟨by omega, rfl⟩
        · cases h
  · rintro ⟨n, hn, rfl, hx⟩
    obtain ⟨c, s, hdec, hne, hall⟩ := head_decimal hn.ne'
    have hvalue := digitsValue_decimal n
    obtain ⟨hdigit, hs⟩ := List.forall_mem_cons.mp hall
    rw [hdec, digitsValue, Nat.mul_zero, Nat.add_zero] at hvalue
    simp only [isDigit, Bool.and_eq_true, decide_eq_true_eq] at hdigit
    have hne' : c.toNat ≠ 48 := fun h => hne (UInt8.toNat.inj h)
    have hn64 : n < 2 ^ 64 := by split_ifs at hx <;> omega
    have hloop : string2llLoop (c.toNat - 48) s = some (n, []) := by
      rw [string2llLoop_eq_some_iff (by omega), hvalue]
      exact ⟨hs, rfl, hn64⟩
    rw [hdec, string2llDigits, if_pos ⟨by omega, hdigit.2⟩, hloop]
    split_ifs at hx ⊢ <;> simp_all

theorem decimalInt_injective : Function.Injective decimalInt := fun x y h => by
  have hx := parseDecimalInt_decimalInt x
  rw [h, parseDecimalInt_decimalInt] at hx
  exact (Option.some.inj hx).symm

/-- **`string2ll` reads exactly the numerals of the `long long`s**: no spaces, no leading
zeros, and nothing out of range. -/
theorem string2ll_eq_some_iff {s : Bytes} {x : ℤ} :
    string2ll s = some x ↔ s = decimalInt x ∧ -(2 ^ 63) ≤ x ∧ x < 2 ^ 63 := by
  have hzero : decimalInt 0 = [48] := rfl
  have hpositive : ∀ n : ℕ, decimalInt n = decimal n := fun n => by
    rw [decimalInt, if_neg (by omega), Int.natAbs_natCast]
  have hnegative : ∀ n : ℕ, 0 < n → decimalInt (-n) = 45 :: decimal n := fun n hn => by
    rw [decimalInt, if_pos (by omega), Int.natAbs_neg, Int.natAbs_natCast]
  rw [string2ll.eq_def]
  split
  · -- the only numeral that starts with a zero
    rw [← hzero]
    constructor
    · intro h
      cases h
      exact ⟨rfl, by omega, by omega⟩
    · rintro ⟨h, -⟩
      rw [decimalInt_injective h]
  · rw [string2llDigits_eq_some_iff]
    constructor
    · rintro ⟨n, hn, rfl, hle, rfl⟩
      exact ⟨(hnegative n hn).symm, by omega, by omega⟩
    · rintro ⟨h, hge, -⟩
      rw [decimalInt] at h
      split_ifs at h with hx
      · exact ⟨x.natAbs, by omega, (List.cons.inj h).2, by omega, by omega⟩
      · exact absurd (h ▸ List.mem_cons_self) (notMem_decimal (by decide) x.natAbs)
  · rename_i hne hminus
    rw [string2llDigits_eq_some_iff]
    constructor
    · rintro ⟨n, hn, rfl, hle, rfl⟩
      exact ⟨(hpositive n).symm, by omega, by omega⟩
    · rintro ⟨rfl, -, hlt⟩
      have hx : 0 < x := by
        by_contra hle
        rcases lt_or_eq_of_le (not_lt.mp hle) with hneg | rfl
        · exact hminus (decimal x.natAbs) (by rw [decimalInt, if_pos hneg])
        · exact hne hzero
      lift x to ℕ using hx.le
      exact ⟨x, by omega, hpositive x, by omega, rfl⟩

theorem string2ll_decimal {n : ℕ} (hn : n < 2 ^ 63) :
    string2ll (decimal n) = some (n : ℤ) := by
  have hdecimal : decimal n = decimalInt n := by
    rw [decimalInt, if_neg (by omega), Int.natAbs_natCast]
  exact string2ll_eq_some_iff.mpr ⟨hdecimal, by omega, by omega⟩

/-! ## Lines -/

theorem splitLine_eq_some {b line rest : Bytes} (h : splitLine b = some (line, rest)) :
    b = line ++ crlf ++ rest ∧ splitLine (line ++ crlf) = some (line, []) := by
  induction b using splitLine.induct generalizing line with
  | case1 => cases h
  | case2 c => cases h
  | case3 c d b hcd =>
      rw [splitLine, if_pos hcd] at h
      cases h
      obtain ⟨rfl, rfl⟩ := hcd
      exact ⟨rfl, rfl⟩
  | case4 c d b hcd ih =>
      rw [splitLine, if_neg hcd, Option.map_eq_some_iff] at h
      obtain ⟨⟨line', rest'⟩, hsplit, heq⟩ := h
      obtain ⟨rfl, rfl⟩ := Prod.mk.inj heq
      obtain ⟨happ, hline⟩ := ih hsplit
      refine ⟨by rw [happ]; rfl, ?_⟩
      -- what follows the first byte starts with the same byte as before
      cases line' with
      | nil =>
          obtain ⟨rfl, -⟩ := List.cons.inj happ
          have htwo : [c] ++ crlf = c :: 13 :: [10] := rfl
          rw [htwo, splitLine, if_neg (by simp)]
          rfl
      | cons e line' =>
          obtain ⟨rfl, -⟩ := List.cons.inj happ
          rw [List.cons_append, List.cons_append, splitLine, if_neg hcd, ← List.cons_append,
            hline]
          rfl

theorem splits_splitLine : Pieces.Scanner.Splits splitLine where
  append h c := by
    have happ := splitLine_append_right h c
    rwa [List.nil_append] at happ
  exists_beginning {b rest line} h := by
    obtain ⟨happ, hline⟩ := splitLine_eq_some h
    refine ⟨line ++ crlf, ?_, happ, hline⟩
    simp [crlf]

theorem seekNewlineLoop_eq {s : Bytes} {left : ℕ} (h : s.length ≤ left + 1) :
    seekNewlineLoop left s = (splitLine s).map fun p => p.1.length := by
  induction s using splitLine.induct generalizing left with
  | case1 => cases left <;> rfl
  | case2 c => cases left <;> rfl
  | case3 c d s hcd =>
      obtain ⟨left, rfl⟩ : ∃ k, left = k + 1 := ⟨left - 1, by simp at h; omega⟩
      rw [seekNewlineLoop, if_pos hcd, splitLine, if_pos hcd]
      rfl
  | case4 c d s hcd ih =>
      obtain ⟨left, rfl⟩ : ∃ k, left = k + 1 := ⟨left - 1, by simp at h; omega⟩
      rw [seekNewlineLoop, if_neg hcd, splitLine, if_neg hcd, ih (by simpa using h),
        Option.map_map, Option.map_map]
      rfl

/-- **The search for a line end** finds the first one, if an `int` can count the bytes. -/
theorem seekNewline_eq {s : Bytes} (h : s.length ≤ 2 ^ 31) :
    seekNewline s = (splitLine s).map fun p => p.1.length := by
  refine seekNewlineLoop_eq ?_
  rcases s.length.eq_zero_or_pos with hzero | hpos
  · omega
  · rw [toInt32_eq_self (by omega) (by omega)]
    omega

/-- From `2 ^ 31 + 1` bytes on, up to `2 ^ 32`, no line end is found. -/
theorem seekNewline_eq_none {s : Bytes} (h : 2 ^ 31 < s.length) (h' : s.length ≤ 2 ^ 32) :
    seekNewline s = none := by
  have hneg : toInt32 ((s.length : ℤ) - 1) < 0 := by
    rw [toInt32_eq_bmod, Int.bmod_def]
    split_ifs <;> omega
  rw [seekNewline, Int.toNat_of_nonpos hneg.le]
  rfl

end Hiredis
