import RcppRedis.Lib.Binary64

/-!
# Vectors of doubles as byte strings

Eight bytes make a double and a double makes eight bytes, whatever they are, so a vector and
its byte string determine each other.

* `vectorOfBytes_bytesOfVector` — a vector is read back from its bytes.
* `bytesOfVector_vectorOfBytes` — a byte string whose length is a multiple of eight is the one
  of the vector that is read from it.
-/

namespace Double

open Bytes

/-! ## Digits -/

/-- The lowest digits of a number are the number up to a power of the base. -/
theorem ofDigits_div_pow (b n k : ℕ) :
    Nat.ofDigits b ((List.range k).map fun i => n / b ^ i % b) = n % b ^ k := by
  induction k generalizing n with
  | zero => simp [Nat.mod_one]
  | succ k ih =>
      have hshift (i : ℕ) : n / b ^ (i + 1) % b = n / b / b ^ i % b := by
        rw [Nat.div_div_eq_div_mul, Nat.pow_succ, Nat.mul_comm]
      rw [List.range_succ_eq_map, List.map_cons, List.map_map, Nat.ofDigits_cons]
      simp only [Function.comp_def, Nat.succ_eq_add_one, hshift, ih, Nat.pow_zero, Nat.div_one]
      rw [Nat.pow_succ, Nat.mul_comm (b ^ k) b, Nat.mod_mul]

/-- The digits of a number made from digits are these. -/
theorem div_pow_ofDigits {b : ℕ} (l : List ℕ) (hl : ∀ d ∈ l, d < b) :
    ((List.range l.length).map fun i => Nat.ofDigits b l / b ^ i % b) = l := by
  induction l with
  | nil => rfl
  | cons d l ih =>
      obtain ⟨hd, hl⟩ := List.forall_mem_cons.mp hl
      have hdiv : (d + b * Nat.ofDigits b l) / b = Nat.ofDigits b l := by
        rw [Nat.add_mul_div_left _ _ (by omega), Nat.div_eq_of_lt hd, Nat.zero_add]
      have hshift (i : ℕ) : Nat.ofDigits b (d :: l) / b ^ (i + 1) % b =
          Nat.ofDigits b l / b ^ i % b := by
        rw [Nat.ofDigits_cons, Nat.pow_succ, Nat.mul_comm (b ^ i) b, ← Nat.div_div_eq_div_mul,
          hdiv]
      rw [List.length_cons, List.range_succ_eq_map, List.map_cons, List.map_map]
      simp only [Function.comp_def, Nat.succ_eq_add_one, hshift, ih hl]
      rw [Nat.ofDigits_cons, Nat.pow_zero, Nat.div_one, Nat.add_mul_mod_self_left,
        Nat.mod_eq_of_lt hd]

/-! ## One double -/

theorem map_toNat_toBytes (d : Double) :
    d.toBytes.map UInt8.toNat = (List.range 8).map fun i => d.toNat / 256 ^ i % 256 := by
  simp [toBytes]

/-- **A double is read back from its bytes.** -/
@[simp] theorem ofBytes_toBytes (d : Double) : ofBytes d.toBytes = d := by
  have hlt : d.toNat < 256 ^ 8 := d.isLt
  rw [ofBytes, map_toNat_toBytes, ofDigits_div_pow, Nat.mod_eq_of_lt hlt, BitVec.ofNat_toNat,
    BitVec.setWidth_eq]

/-- **Eight bytes are those of the double that they make.** -/
theorem toBytes_ofBytes {b : Bytes} (h : b.length = 8) : (ofBytes b).toBytes = b := by
  have hdigits : ∀ d ∈ b.map UInt8.toNat, d < 256 := by
    intro d hd
    obtain ⟨c, -, rfl⟩ := List.mem_map.mp hd
    exact c.toNat_lt
  have hlt : Nat.ofDigits 256 (b.map UInt8.toNat) < 256 ^ 8 := by
    have hbound := Nat.ofDigits_lt_base_pow_length (by omega) hdigits
    rwa [List.length_map, h] at hbound
  have hnat : (ofBytes b).toNat = Nat.ofDigits 256 (b.map UInt8.toNat) := by
    rw [ofBytes, BitVec.toNat_ofNat]
    exact Nat.mod_eq_of_lt hlt
  apply List.map_injective_iff.mpr fun a c hac => UInt8.toNat_inj.mp hac
  rw [map_toNat_toBytes, hnat]
  have hread := div_pow_ofDigits _ hdigits
  rwa [List.length_map, h] at hread

/-! ## Vectors -/

@[simp] theorem bytesOfVector_cons (d : Double) (x : List Double) :
    bytesOfVector (d :: x) = d.toBytes ++ bytesOfVector x := rfl

/-- The first eight bytes are the first double. -/
theorem vectorOfBytes_append {a : Bytes} (ha : a.length = 8) (b : Bytes) :
    vectorOfBytes (a ++ b) = ofBytes a :: vectorOfBytes b := by
  have hcount : (a ++ b).length / 8 = b.length / 8 + 1 := by
    rw [List.length_append]
    omega
  have hdrop (i : ℕ) : (a ++ b).drop (8 * (i + 1)) = b.drop (8 * i) := by
    rw [show 8 * (i + 1) = a.length + 8 * i by omega, List.drop_length_add_append]
  rw [vectorOfBytes, hcount, List.range_succ_eq_map, List.map_cons, List.map_map,
    vectorOfBytes]
  simp only [Function.comp_def, Nat.succ_eq_add_one, hdrop]
  rw [Nat.mul_zero, List.drop_zero, List.take_append_of_le_length (by omega),
    List.take_of_length_le (by omega)]

/-- **A vector is read back from its bytes.** -/
@[simp] theorem vectorOfBytes_bytesOfVector (x : List Double) :
    vectorOfBytes (bytesOfVector x) = x := by
  induction x with
  | nil => rfl
  | cons d x ih =>
      rw [bytesOfVector_cons, vectorOfBytes_append (length_toBytes d), ofBytes_toBytes, ih]

/-- **Bytes that make whole doubles** are those of the vector that is read from them. -/
theorem bytesOfVector_vectorOfBytes {b : Bytes} (h : 8 ∣ b.length) :
    bytesOfVector (vectorOfBytes b) = b := by
  obtain ⟨n, hn⟩ := h
  induction n generalizing b with
  | zero =>
      obtain rfl : b = [] := List.length_eq_zero_iff.mp hn
      rfl
  | succ n ih =>
      have htake : (b.take 8).length = 8 := by
        rw [List.length_take]
        omega
      have hrest := ih (b := b.drop 8) (by
        rw [List.length_drop]
        omega)
      conv_lhs => rw [← List.take_append_drop 8 b, vectorOfBytes_append htake]
      rw [bytesOfVector_cons, toBytes_ofBytes htake, hrest, List.take_append_drop]

end Double
