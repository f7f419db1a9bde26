import Mathlib.Data.List.TakeWhile
import Mathlib.Data.Nat.Digits.Lemmas

/-!
# Byte strings and decimal numerals

Byte strings are lists of `UInt8`.  `ascii` turns a literal into its bytes, and
`decimal`, `decimalInt` render numbers the way `%d` does.  `parseDecimal` and
`parseDecimalInt` read them back.

The last section splits a byte string at its first line end, which is how every
length field of a line-based protocol is found.  Both the splitting and the
parsing survive appending more bytes (`splitLine_append_right`): this is what
makes reading from a stream in pieces agree with reading it at once.
-/

/-- A byte string. -/
abbrev Bytes := List UInt8

namespace Bytes

/-- The bytes of an ASCII literal. -/
def ascii (s : String) : Bytes := s.toList.map fun c => UInt8.ofNat c.toNat

/-- Carriage return and line feed. -/
def crlf : Bytes := [13, 10]

@[simp] theorem length_crlf : crlf.length = 2 := rfl

/-- What a C string function sees of a buffer: the bytes before the first NUL. -/
def cString (b : Bytes) : Bytes := b.takeWhile (· ≠ 0)

theorem notMem_cString (b : Bytes) : (0 : UInt8) ∉ cString b := by
  intro h
  have := List.mem_takeWhile_imp h
  simp at this

theorem cString_eq_self {b : Bytes} (h : (0 : UInt8) ∉ b) : cString b = b := by
  rw [cString, List.takeWhile_eq_self_iff]
  intro c hc
  simpa using fun hz : c = 0 => h (hz ▸ hc)

/-- A string without NUL bytes, as every C string is. -/
structure CStr where
  bytes : Bytes
  nulFree : (0 : UInt8) ∉ bytes

namespace CStr

@[ext] theorem ext {s t : CStr} (h : s.bytes = t.bytes) : s = t := by
  cases s; cases t
  congr

theorem bytes_injective : Function.Injective bytes := fun _ _ h => ext h

instance : DecidableEq CStr :=
  fun s t => decidable_of_iff (s.bytes = t.bytes) ⟨ext, congrArg _⟩

/-- The part of a buffer before its first NUL. -/
def ofBuffer (b : Bytes) : CStr := ⟨cString b, notMem_cString b⟩

/-- An ASCII literal. -/
def ofAscii (s : String) (h : (ascii s).contains 0 = false := by decide) : CStr :=
  ⟨ascii s, fun hmem => Bool.false_ne_true (h.symm.trans (List.contains_iff_mem.mpr hmem))⟩

@[simp] theorem ofBuffer_bytes (s : CStr) : ofBuffer s.bytes = s :=
  ext (cString_eq_self s.nulFree)

end CStr

/-! ## Decimal numerals -/

/-- The decimal digit `d`. -/
def digit (d : ℕ) : UInt8 := UInt8.ofNat (48 + d)

/-- Whether a byte is a decimal digit. -/
def isDigit (c : UInt8) : Bool := 48 ≤ c.toNat && c.toNat ≤ 57

/-- The decimal numeral of a natural number. -/
def decimal (n : ℕ) : Bytes :=
  if n = 0 then [digit 0] else ((Nat.digits 10 n).map digit).reverse

/-- The decimal numeral of an integer, with a minus sign where it is negative. -/
def decimalInt (n : ℤ) : Bytes :=
  if n < 0 then 45 :: decimal n.natAbs else decimal n.natAbs

/-- The value of a non-empty string of digits. -/
def parseDecimal (b : Bytes) : Option ℕ :=
  if b ≠ [] ∧ b.all isDigit then
    some (Nat.ofDigits 10 ((b.map fun c => c.toNat - 48).reverse))
  else none

/-- The value of an optional minus sign and a non-empty string of digits. -/
def parseDecimalInt : Bytes → Option ℤ
  | 45 :: b => (parseDecimal b).map fun n : ℕ => -(n : ℤ)
  | b => (parseDecimal b).map fun n : ℕ => (n : ℤ)

theorem toNat_digit {d : ℕ} (hd : d < 10) : (digit d).toNat = 48 + d := by
  rw [digit, UInt8.toNat_ofNat']
  omega

theorem isDigit_digit {d : ℕ} (hd : d < 10) : isDigit (digit d) = true := by
  simp only [isDigit, toNat_digit hd, Bool.and_eq_true, decide_eq_true_eq]
  omega

theorem decimal_ne_nil (n : ℕ) : decimal n ≠ [] := by
  rw [decimal]
  split_ifs with hn
  · simp
  · simpa [Nat.digits_eq_nil_iff_eq_zero] using hn

theorem isDigit_of_mem_decimal {n : ℕ} {c : UInt8} (hc : c ∈ decimal n) :
    isDigit c = true := by
  rw [decimal] at hc
  split_ifs at hc with hn
  · rw [List.mem_singleton] at hc
    rw [hc]
    exact isDigit_digit (by omega)
  · simp only [List.mem_reverse, List.mem_map] at hc
    obtain ⟨d, hd, rfl⟩ := hc
    exact isDigit_digit (Nat.digits_lt_base (by omega) hd)

theorem length_decimal_le {n k : ℕ} (hn : n < 10 ^ k) (hk : 0 < k) :
    (decimal n).length ≤ k := by
  rw [decimal]
  split_ifs
  · exact hk
  · rw [List.length_reverse, List.length_map]
    exact (Nat.digits_length_le_iff (by norm_num) n).mpr hn

/-- A byte that is no digit does not occur in a numeral. -/
theorem notMem_decimal {c : UInt8} (hc : isDigit c = false) (n : ℕ) : c ∉ decimal n := by
  intro h
  rw [isDigit_of_mem_decimal h] at hc
  exact absurd hc (by decide)

/-- **A numeral reads back as its number.** -/
@[simp] theorem parseDecimal_decimal (n : ℕ) : parseDecimal (decimal n) = some n := by
  have hall : (decimal n).all isDigit = true := by
    rw [List.all_eq_true]
    intro c hc
    exact isDigit_of_mem_decimal hc
  rw [parseDecimal, if_pos ⟨decimal_ne_nil n, hall⟩]
  congr 1
  by_cases hn : n = 0
  · subst hn
    decide
  · have hmap : ((Nat.digits 10 n).map digit).map (fun c => c.toNat - 48) =
        Nat.digits 10 n := by
      rw [List.map_map, List.map_congr_left (g := id), List.map_id]
      intro d hd
      have hlt : d < 10 := Nat.digits_lt_base (by omega) hd
      simp only [Function.comp_apply, toNat_digit hlt, id_eq]
      omega
    rw [decimal, if_neg hn, List.map_reverse, List.reverse_reverse, hmap, Nat.ofDigits_digits]

@[simp] theorem parseDecimalInt_decimalInt (n : ℤ) :
    parseDecimalInt (decimalInt n) = some n := by
  rw [decimalInt]
  split_ifs with hn
  · simp only [parseDecimalInt, parseDecimal_decimal, Option.map_some]
    congr 1
    omega
  · have hhead : ∀ c b, decimal n.natAbs = c :: b → c ≠ 45 := by
      rintro c b hcb rfl
      exact notMem_decimal (c := 45) (by decide) n.natAbs (by simp [hcb])
    rcases hd : decimal n.natAbs with _ | ⟨c, b⟩
    · exact absurd hd (decimal_ne_nil _)
    · have hc := hhead c b hd
      have hval : parseDecimalInt (c :: b) = (parseDecimal (c :: b)).map fun n : ℕ =>
          (n : ℤ) := by
        rw [parseDecimalInt]
        simpa using hc
      rw [hval, ← hd, parseDecimal_decimal, Option.map_some]
      congr 1
      omega

/-! ## Lines -/

/-- Split at the first carriage return and line feed. -/
def splitLine : Bytes → Option (Bytes × Bytes)
  | [] => none
  | [_] => none
  | c :: d :: rest =>
      if c = 13 ∧ d = 10 then some ([], rest)
      else (splitLine (d :: rest)).map fun p => (c :: p.1, p.2)

/-- A line without carriage returns ends where its line end stands. -/
theorem splitLine_append {line : Bytes} (h : (13 : UInt8) ∉ line) (rest : Bytes) :
    splitLine (line ++ crlf ++ rest) = some (line, rest) := by
  induction line with
  | nil => simp [splitLine, crlf]
  | cons c line ih =>
      simp only [List.mem_cons, not_or] at h
      have hrest := ih h.2
      have hc : ¬ (c = 13) := fun hc => h.1 hc.symm
      cases line with
      | nil => simp [splitLine, crlf, hc]
      | cons d line =>
          simp only [List.cons_append] at hrest ⊢
          rw [splitLine, if_neg (fun hcd => hc hcd.1), hrest, Option.map_some]

/-- A line that was found stays where it is when more bytes arrive. -/
theorem splitLine_append_right {b line rest : Bytes} (h : splitLine b = some (line, rest))
    (more : Bytes) : splitLine (b ++ more) = some (line, rest ++ more) := by
  induction b using splitLine.induct generalizing line rest with
  | case1 => simp [splitLine] at h
  | case2 c => simp [splitLine] at h
  | case3 c d b hcd =>
      simp only [splitLine, if_pos hcd, Option.some.injEq, Prod.mk.injEq] at h
      obtain ⟨rfl, rfl⟩ := h
      simp [splitLine, hcd]
  | case4 c d b hcd ih =>
      simp only [splitLine, if_neg hcd, Option.map_eq_some_iff] at h
      obtain ⟨⟨line', rest'⟩, hsplit, heq⟩ := h
      simp only [Prod.mk.injEq] at heq
      obtain ⟨rfl, rfl⟩ := heq
      have hmore := ih hsplit
      simp only [List.cons_append] at hmore ⊢
      rw [splitLine, if_neg hcd, hmore, Option.map_some]

end Bytes
