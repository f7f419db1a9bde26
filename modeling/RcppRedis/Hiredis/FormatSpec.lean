import RcppRedis.Hiredis.Format
import Mathlib.Algebra.Order.BigOperators.Group.List

/-!
# What the encoders write

Both encoders write the RESP frame of their arguments, and the size they add up
beforehand is the length of that frame.

* `buildCommand_eq_ok`, `length_lt_of_buildCommand` — the format encoder writes the frame
  exactly when its length and that of a terminator fit in an `int`.
* `redisvFormatCommand_template` — a format of words and conversions separated by single spaces
  yields one argument for each of them, whatever the interpolated bytes are.
* `redisFormatSdsCommandArgv_eq` — the vector encoder writes the frame below `2 ^ 31`.
-/

namespace Hiredis

open Bytes Resp

/-- A sequence that succeeded has succeeded in both parts. -/
theorem bind_eq_ok {ε α β : Type} {x : Except ε α} {f : α → Except ε β} {b : β} :
    (x >>= f) = .ok b ↔ ∃ a, x = .ok a ∧ f a = .ok b := by
  cases x with
  | error e => simp [bind, Except.bind]
  | ok a => simp [bind, Except.bind]

/-! ## Counting digits -/

theorem length_decimal_of_lt {n : ℕ} (h : n < 10) : (decimal n).length = 1 := by
  interval_cases n <;> rfl

theorem length_decimal_of_ge {n : ℕ} (h : 10 ≤ n) :
    (decimal n).length = (decimal (n / 10)).length + 1 := by
  have hn : n ≠ 0 := by omega
  have hq : n / 10 ≠ 0 := by omega
  simp only [decimal, if_neg hn, if_neg hq, List.length_reverse, List.length_map]
  rw [Nat.digits_def' (by omega) (by omega), List.length_cons]

theorem length_decimal_div (n : ℕ) (h : 10000 ≤ n) :
    (decimal n).length = (decimal (n / 10000)).length + 4 := by
  have h3 : n / 10 / 10 / 10 / 10 = n / 10000 := by omega
  rw [length_decimal_of_ge (n := n) (by omega), length_decimal_of_ge (n := n / 10) (by omega),
    length_decimal_of_ge (n := n / 10 / 10) (by omega),
    length_decimal_of_ge (n := n / 10 / 10 / 10) (by omega), h3]

theorem countDigitsLoop_eq (fuel v result : ℕ) (h : v < fuel) :
    countDigitsLoop fuel v result + 1 = result + (decimal v).length := by
  induction fuel generalizing v result with
  | zero => omega
  | succ fuel ih =>
      rw [countDigitsLoop]
      split_ifs with h1 h2 h3 h4
      · rw [length_decimal_of_lt h1]
      · rw [length_decimal_of_ge (by omega), length_decimal_of_lt (by omega)]
      · rw [length_decimal_of_ge (by omega), length_decimal_of_ge (by omega),
          length_decimal_of_lt (by omega)]
      · rw [length_decimal_of_ge (by omega), length_decimal_of_ge (by omega),
          length_decimal_of_ge (by omega), length_decimal_of_lt (by omega)]
      · rw [ih (v / 10000) (result + 4) (by omega), length_decimal_div v (by omega)]
        omega

/-- `countDigits` is the length of the numeral. -/
theorem countDigits_eq (v : ℕ) : countDigits v = (decimal v).length := by
  have := countDigitsLoop_eq (v + 1) v 1 (by omega)
  rw [countDigits]
  omega

theorem bulklen_eq (a : Bytes) : bulklen a.length = (bulk a).length := by
  rw [bulklen, countDigits_eq, length_bulk]

theorem length_le_bulklen (len : ℕ) : len ≤ bulklen len := by
  rw [bulklen]
  omega

theorem length_encodeCommand (argv : List Bytes) :
    (encodeCommand argv).length =
      1 + countDigits argv.length + 2 + (argv.map fun a => bulklen a.length).sum := by
  simp only [encodeCommand, List.length_append, length_header, countDigits_eq,
    List.length_flatten, List.map_map, Function.comp_def, bulklen_eq]

/-! ## The size arithmetic in `int` -/

theorem toInt32_eq_bmod (n : ℤ) : toInt32 n = n.bmod 0x100000000 := by
  rw [toInt32, Int32.toInt_ofInt]

theorem toInt32_add_toInt32 (a b : ℤ) : toInt32 (toInt32 a + b) = toInt32 (a + b) := by
  simp only [toInt32_eq_bmod, Int.bmod_add_bmod]

theorem toInt32_eq_self {n : ℤ} (h₁ : -(2 ^ 31) ≤ n) (h₂ : n < 2 ^ 31) : toInt32 n = n := by
  rw [toInt32_eq_bmod, Int.bmod_eq_of_le] <;> omega

theorem toInt32_lt (n : ℤ) : toInt32 n < 2 ^ 31 := by
  have := Int.bmod_lt (x := n) (m := 0x100000000) (by omega)
  rw [toInt32_eq_bmod]
  omega

theorem toInt32_ge (n : ℤ) : -(2 ^ 31) ≤ toInt32 n := by
  have := Int.le_bmod (x := n) (m := 0x100000000) (by omega)
  rw [toInt32_eq_bmod]
  omega

/-! ## Writing the frame -/

theorem Cmd.emit_eq {totlen : ℤ} {cmd : Cmd} {a : Bytes}
    (h : ((cmd.bytes ++ bulk a).length : ℤ) ≤ totlen) :
    cmd.emit totlen a = .ok { cmd with bytes := cmd.bytes ++ bulk a } := by
  simp only [List.length_append, bulk] at h
  have hroom : ((header 36 a.length).length : ℤ) < totlen - cmd.bytes.length := by
    simp only [length_crlf] at h
    omega
  have hsize : ((cmd.bytes ++ header 36 a.length ++ (a ++ crlf)).length : ℤ) ≤ totlen + 1 := by
    simp only [List.length_append] at h ⊢
    omega
  rw [emit, snprintf, if_pos hroom]
  simp only [bind, Except.bind]
  rw [copy, if_pos hsize, bulk]
  simp only [List.append_assoc]

theorem Cmd.foldlM_emit_eq {totlen : ℤ} (argv : List Bytes) {cmd : Cmd}
    (h : ((cmd.bytes ++ (argv.map bulk).flatten).length : ℤ) ≤ totlen) :
    argv.foldlM (Cmd.emit totlen) cmd =
      .ok { cmd with bytes := cmd.bytes ++ (argv.map bulk).flatten } := by
  induction argv generalizing cmd with
  | nil => simp [pure, Except.pure]
  | cons a argv ih =>
      simp only [List.map_cons, List.flatten_cons] at h ⊢
      have hfirst : ((cmd.bytes ++ bulk a).length : ℤ) ≤ totlen := by
        simp only [List.length_append] at h ⊢
        omega
      rw [List.foldlM_cons, emit_eq hfirst]
      simp only [bind, Except.bind]
      rw [ih (by simpa only [List.append_assoc] using h)]
      simp only [List.append_assoc]

/-- `snprintf` moves the position by the length of its text, cut short or not. -/
theorem Cmd.length_of_snprintf {cmd cmd' : Cmd} {room : ℤ} {text : Bytes} (htext : text ≠ [])
    (h : cmd.snprintf room text = .ok cmd') :
    cmd'.bytes.length = cmd.bytes.length + text.length := by
  rw [snprintf] at h
  split_ifs at h <;> simp only [Except.ok.injEq] at h <;> subst h
  · simp
  · have : 0 < text.length := List.length_pos_iff.mpr htext
    simp only [List.length_append, List.length_dropLast, List.length_singleton]
    omega

/-- Whatever `emit` writes, it is as long as the bulk string. -/
theorem Cmd.length_of_emit {totlen : ℤ} {cmd cmd' : Cmd} {a : Bytes}
    (h : cmd.emit totlen a = .ok cmd') :
    cmd'.bytes.length = cmd.bytes.length + (bulk a).length := by
  rw [emit] at h
  rcases hs : cmd.snprintf (totlen - cmd.bytes.length) (header 36 a.length) with e | mid
  · simp [hs, bind, Except.bind] at h
  · have hmid := length_of_snprintf (by simp [header]) hs
    simp only [hs, bind, Except.bind, copy] at h
    split_ifs at h
    simp only [Except.ok.injEq] at h
    subst h
    simp only [List.length_append, hmid, bulk]
    omega

theorem Cmd.length_of_foldlM_emit {totlen : ℤ} {argv : List Bytes} {cmd cmd' : Cmd}
    (h : argv.foldlM (Cmd.emit totlen) cmd = .ok cmd') :
    cmd'.bytes.length = cmd.bytes.length + ((argv.map bulk).flatten).length := by
  induction argv generalizing cmd with
  | nil =>
      simp only [List.foldlM_nil, pure, Except.pure, Except.ok.injEq] at h
      simp [h]
  | cons a argv ih =>
      rw [List.foldlM_cons] at h
      rcases he : cmd.emit totlen a with e | mid
      · simp [he, bind, Except.bind] at h
      · simp only [he, bind, Except.bind] at h
        rw [ih h, length_of_emit he]
        simp only [List.map_cons, List.flatten_cons, List.length_append]
        omega

/-- **The format encoder writes the frame**, and no `snprintf` cuts its text. -/
theorem buildCommand_eq_ok {argv : List Bytes} (hne : argv ≠ [])
    (h : (encodeCommand argv).length + 1 < 2 ^ 31) :
    buildCommand (toInt32 (encodeCommand argv).length) argv =
      .ok ⟨encodeCommand argv, false⟩ := by
  have htot : toInt32 (encodeCommand argv).length = (encodeCommand argv).length :=
    toInt32_eq_self (by omega) (by omega)
  have hsplit : (encodeCommand argv).length =
      (header 42 argv.length).length + ((argv.map bulk).flatten).length := by
    rw [encodeCommand, List.length_append]
  obtain ⟨a, as, rfl⟩ := List.exists_cons_of_ne_nil hne
  have hbulk : 0 < (((a :: as).map bulk).flatten).length := by
    simp only [List.map_cons, List.flatten_cons, List.length_append, length_bulk]
    omega
  have hhead : Cmd.snprintf {} ((encodeCommand (a :: as)).length : ℤ)
      (header 42 (a :: as).length) = .ok ⟨header 42 (a :: as).length, false⟩ := by
    rw [Cmd.snprintf, if_pos (by omega)]
    rfl
  rw [htot, buildCommand, if_neg (by omega), if_neg (by omega), hhead]
  simp only [bind, Except.bind]
  rw [Cmd.foldlM_emit_eq]
  · rw [← encodeCommand]
    simp only [if_true]
  · rw [← encodeCommand]

/-- A buffer that was filled had the size of the frame. -/
theorem length_of_buildCommand {totlen : ℤ} {argv : List Bytes} {cmd : Cmd}
    (h : buildCommand totlen argv = .ok cmd) :
    ((encodeCommand argv).length : ℤ) = totlen ∧ totlen + 1 ≠ 2 ^ 31 := by
  rw [buildCommand] at h
  split_ifs at h with h1 h2
  rcases hs : Cmd.snprintf {} totlen (header 42 argv.length) with e | mid
  · simp [hs, bind, Except.bind] at h
  simp only [hs, bind, Except.bind] at h
  rcases hf : argv.foldlM (Cmd.emit totlen) mid with e | last
  · simp [hf] at h
  simp only [hf] at h
  split_ifs at h with hlen
  have hmid := Cmd.length_of_snprintf (by simp [header]) hs
  have hlast := Cmd.length_of_foldlM_emit hf
  have htotal : last.bytes.length = (encodeCommand argv).length := by
    rw [hlast, hmid, encodeCommand, List.length_append, List.length_nil, Nat.zero_add]
  exact ⟨by omega, h1⟩

/-- **Only a frame that fits is written.**  A longer one wraps the size, and what is
written never has the wrapped length. -/
theorem length_lt_of_buildCommand {argv : List Bytes} {cmd : Cmd}
    (h : buildCommand (toInt32 (encodeCommand argv).length) argv = .ok cmd) :
    (encodeCommand argv).length + 1 < 2 ^ 31 := by
  have hlt := toInt32_lt (encodeCommand argv).length
  obtain ⟨hlen, hne⟩ := length_of_buildCommand h
  omega

/-! Every failure of the format encoder is a fault, but for a buffer of negative size. -/

theorem Cmd.eq_fault_of_snprintf {cmd : Cmd} {room : ℤ} {text : Bytes} {e : FormatError}
    (h : cmd.snprintf room text = .error e) : ∃ f, e = .fault f := by
  rw [snprintf] at h
  split_ifs at h
  cases h
  exact ⟨_, rfl⟩

theorem Cmd.eq_fault_of_emit {totlen : ℤ} {cmd : Cmd} {a : Bytes} {e : FormatError}
    (h : cmd.emit totlen a = .error e) : ∃ f, e = .fault f := by
  rw [emit] at h
  rcases hhead : cmd.snprintf (totlen - cmd.bytes.length) (header 36 a.length) with e' | mid
  · rw [hhead] at h
    cases h
    exact eq_fault_of_snprintf hhead
  · rw [hhead] at h
    simp only [bind, Except.bind, copy] at h
    split_ifs at h
    cases h
    exact ⟨_, rfl⟩

theorem Cmd.eq_fault_of_foldlM_emit {totlen : ℤ} {argv : List Bytes} {cmd : Cmd}
    {e : FormatError} (h : argv.foldlM (Cmd.emit totlen) cmd = .error e) :
    ∃ f, e = .fault f := by
  induction argv generalizing cmd with
  | nil => cases h
  | cons a argv ih =>
      rw [List.foldlM_cons] at h
      rcases hfirst : cmd.emit totlen a with e' | mid
      · rw [hfirst] at h
        cases h
        exact eq_fault_of_emit hfirst
      · rw [hfirst] at h
        exact ih h

theorem eq_fault_of_buildCommand {totlen : ℤ} {argv : List Bytes} {e : FormatError}
    (h : buildCommand totlen argv = .error e) (hsize : ¬ totlen + 1 < 0) :
    ∃ f, e = .fault f := by
  rw [buildCommand, if_neg hsize] at h
  split_ifs at h with hmax
  · cases h
    exact ⟨_, rfl⟩
  rcases hhead : Cmd.snprintf {} totlen (header 42 argv.length) with e' | mid
  · rw [hhead] at h
    cases h
    exact Cmd.eq_fault_of_snprintf hhead
  rcases hargs : argv.foldlM (Cmd.emit totlen) mid with e' | last
  · simp only [hhead, hargs, bind, Except.bind] at h
    cases h
    exact Cmd.eq_fault_of_foldlM_emit hargs
  · simp only [hhead, hargs, bind, Except.bind] at h
    split_ifs at h
    cases h
    exact ⟨_, rfl⟩

theorem buildCommand_of_neg {totlen : ℤ} (h : totlen + 1 < 0) (argv : List Bytes) :
    buildCommand totlen argv = .error .oom := by
  rw [buildCommand, if_neg (by omega), if_pos h]

/-- The vector encoder's bytes are the frame, where `%u` reads every length. -/
theorem sdsCommandArgv_eq {argv : List Bytes} (h : ∀ a ∈ argv, a.length < 2 ^ 32) :
    sdsCommandArgv argv = encodeCommand argv := by
  have hmap : (argv.map fun a => header 36 (a.length % 0x100000000) ++ a ++ crlf) =
      argv.map bulk := by
    refine List.map_congr_left fun a ha => ?_
    have hself : a.length % 0x100000000 = a.length := Nat.mod_eq_of_lt (h a ha)
    rw [hself, bulk]
  rw [sdsCommandArgv, hmap, encodeCommand]

/-- **The vector encoder writes the frame** below `2 ^ 31` bytes. -/
theorem redisFormatSdsCommandArgv_eq {argv : List Bytes}
    (h : (encodeCommand argv).length < 2 ^ 31) :
    redisFormatSdsCommandArgv argv = .ok ⟨encodeCommand argv, false⟩ := by
  have hlen := length_encodeCommand argv
  have hself : toInt32 (encodeCommand argv).length = (encodeCommand argv).length :=
    toInt32_eq_self (by omega) (by omega)
  have hargs : ∀ a ∈ argv, a.length < 2 ^ 32 := by
    intro a ha
    have hle : bulklen a.length ≤ (argv.map fun a => bulklen a.length).sum :=
      List.le_sum_of_mem (List.mem_map_of_mem ha)
    have := length_le_bulklen a.length
    omega
  rw [redisFormatSdsCommandArgv]
  simp only [← hlen, hself, sdsCommandArgv_eq hargs]
  rw [if_neg (by omega), if_neg (by omega), Int.toNat_natCast, List.take_length]

/-! ## Reading the format

Every round shortens what is left of the format, so the fuel does not matter once it
exceeds the length; `formatFrom` is the loop without it. -/

theorem length_skipModifiers_le (p : Bytes) : (skipModifiers p).length ≤ p.length := by
  have h1 := List.length_dropWhile_le (fun c => decide (c ∈ ascii "#0-+ ")) p
  have h2 := List.length_dropWhile_le isDigit (p.dropWhile (· ∈ ascii "#0-+ "))
  rw [skipModifiers]
  split
  · rename_i q hq
    have h3 := List.length_dropWhile_le isDigit q
    have := congrArg List.length hq
    simp only [List.length_cons] at this
    omega
  · omega

theorem length_le_of_skipSize {p q : Bytes} (h : skipSize p = some q) :
    q.length ≤ p.length := by
  unfold skipSize at h
  split at h <;> simp only [Option.some.injEq, reduceCtorEq] at h <;> subst h <;>
    simp only [List.length_cons] <;> omega

theorem length_le_of_scanConversion {p q : Bytes} (h : scanConversion p = some q) :
    q.length ≤ p.length := by
  rw [scanConversion] at h
  split_ifs at h
  · simp_all
  · simp_all
  · exact length_le_of_skipSize (Option.eq_some_of_filter_eq_some h)

theorem length_lt_of_printfConversion {d : UInt8} {c c' : Bytes} {st st' : FormatState}
    (h : printfConversion (d :: c) st = .ok (c', st')) : c'.length < (d :: c).length := by
  rw [printfConversion] at h
  split at h
  · cases h
  · rename_i p hscan
    have hp := length_le_of_scanConversion hscan
    have hc := length_skipModifiers_le c
    rw [List.tail_cons] at hp
    obtain ⟨⟨arg, ap⟩, -, h⟩ := bind_eq_ok.mp h
    dsimp only at h
    split_ifs at h with hl hnil
    · obtain ⟨text, -, h⟩ := bind_eq_ok.mp h
      cases h
      simp only [List.length_tail, List.length_cons]
      omega
    · cases h
      simp only [List.length_drop, List.length_cons]
      omega

/-- A conversion moves the format pointer forward. -/
theorem length_lt_of_conversion {d : UInt8} {c c' : Bytes} {st st' : FormatState}
    (h : conversion (d :: c) st = .ok (c', st')) : c'.length < (d :: c).length := by
  unfold conversion at h
  split at h
  · rename_i heq
    obtain ⟨⟨s, ap⟩, -, h⟩ := bind_eq_ok.mp h
    cases h
    simp [heq]
  · rename_i heq
    obtain ⟨⟨s, ap⟩, -, h⟩ := bind_eq_ok.mp h
    cases h
    simp [heq]
  · rename_i heq
    cases h
    simp [heq]
  · exact length_lt_of_printfConversion h

theorem formatLoop_fuel (fuel fuel' : ℕ) (c : Bytes) (st : FormatState)
    (h : c.length < fuel) (h' : c.length < fuel') :
    formatLoop fuel c st = formatLoop fuel' c st := by
  induction fuel generalizing fuel' c st with
  | zero => omega
  | succ fuel ih =>
      obtain ⟨fuel', rfl⟩ : ∃ n, fuel' = n + 1 := ⟨fuel' - 1, by omega⟩
      cases c with
      | nil => rfl
      | cons d c =>
          simp only [List.length_cons] at h h'
          rw [formatLoop, formatLoop]
          split_ifs with hd
          · exact ih fuel' c _ (by omega) (by omega)
          · rcases hconv : conversion (d :: c) st with e | ⟨c', st'⟩
            · rfl
            · have hlt := length_lt_of_conversion hconv
              simp only [List.length_cons] at hlt
              exact ih fuel' c' st' (by omega) (by omega)

/-- The loop over the format, from here on. -/
def formatFrom (c : Bytes) (st : FormatState) : Except FormatError FormatState :=
  formatLoop (c.length + 1) c st

@[simp] theorem formatFrom_nil (st : FormatState) : formatFrom [] st = .ok st := rfl

theorem formatFrom_literal {c : UInt8} {rest : Bytes} (h : c ≠ 37 ∨ rest = [])
    (st : FormatState) : formatFrom (c :: rest) st = formatFrom rest (literal c st) := by
  rw [formatFrom, List.length_cons, formatLoop, if_pos h, formatFrom]

theorem formatFrom_conversion {rest rest' : Bytes} {st st' : FormatState} (h : rest ≠ [])
    (hconv : conversion (37 :: rest) st = .ok (rest', st')) :
    formatFrom (37 :: rest) st = formatFrom rest' st' := by
  have hlt := length_lt_of_conversion hconv
  rw [formatFrom, List.length_cons, formatLoop, if_neg (by simp [h]), hconv]
  exact formatLoop_fuel _ _ _ _ (by simpa using hlt) (by omega)

theorem formatFrom_error {rest : Bytes} {st : FormatState} {e : FormatError} (h : rest ≠ [])
    (hconv : conversion (37 :: rest) st = .error e) :
    formatFrom (37 :: rest) st = .error e := by
  rw [formatFrom, List.length_cons, formatLoop, if_neg (by simp [h]), hconv]
  rfl

/-! ## Words and conversions separated by spaces -/

/-- A part of a format between two spaces, with the argument it interpolates. -/
inductive Item where
  | word (w : Bytes) (hne : w ≠ []) (hplain : ∀ c ∈ w, c ≠ 32 ∧ c ≠ 37)
  | str (s : CStr)
  | bin (b : Bytes)
  | int (n : ℤ)
  | double (d : Double)

namespace Item

/-- The item as the format has it. -/
def format : Item → Bytes
  | word w _ _ => w
  | str _ => ascii "%s"
  | bin _ => ascii "%b"
  | int _ => ascii "%d"
  | double _ => ascii "%f"

/-- The variadic arguments it takes. -/
def args : Item → List VaArg
  | word _ _ _ => []
  | str s => [.cstr s.bytes]
  | bin b => [.buffer b, .size b.length]
  | int n => [.int n]
  | double d => [.double d]

/-- The command argument it yields. -/
def text : Item → Bytes
  | word w _ _ => w
  | str s => s.bytes
  | bin b => b
  | int n => decimalInt n
  | double d => d.formatF

end Item

/-- The items, separated by single spaces. -/
def template : List Item → Bytes
  | [] => []
  | [i] => i.format
  | i :: is => i.format ++ 32 :: template is

/-- The state between two arguments: their sizes are added up in an `int`. -/
def FormatState.clean (argv : List Bytes) (ap : List VaArg) : FormatState where
  argv := argv
  totlen := toInt32 (argv.map fun a => bulklen a.length).sum
  ap := ap

@[simp] theorem FormatState.append_append (st : FormatState) (a b : Bytes) :
    (st.append a).append b = st.append (a ++ b) := by
  simp [append]

@[simp] theorem FormatState.touched_append (st : FormatState) (a : Bytes) :
    (st.append a).touched = true := rfl

@[simp] theorem FormatState.finish_append (st : FormatState) (a : Bytes) :
    (st.append a).finish = (st.append a).push := by
  rw [finish, touched_append, if_pos rfl]

theorem FormatState.push_append_clean (argv : List Bytes) (ap : List VaArg) (a : Bytes) :
    ((clean argv ap).append a).push = clean (argv ++ [a]) ap := by
  simp only [push, append, clean, List.nil_append, toInt32_add_toInt32, List.map_append,
    List.map_singleton, List.sum_append, List.sum_singleton, Nat.cast_add]

theorem formatFrom_space {st : FormatState} (ht : st.touched = true) (rest : Bytes) :
    formatFrom (32 :: rest) st = formatFrom rest st.push := by
  rw [formatFrom_literal (.inl (by decide)), literal, if_pos rfl, if_pos ht]

/-- Bytes that are neither space nor percent sign are taken as they are. -/
theorem formatFrom_word {w : Bytes} (hne : w ≠ []) (hplain : ∀ c ∈ w, c ≠ 32 ∧ c ≠ 37)
    (rest : Bytes) (st : FormatState) :
    formatFrom (w ++ rest) st = formatFrom rest (st.append w) := by
  induction w generalizing st with
  | nil => exact absurd rfl hne
  | cons c w ih =>
      have hc := hplain c List.mem_cons_self
      rw [List.cons_append, formatFrom_literal (.inl hc.2), literal, if_neg hc.1]
      cases w with
      | nil => rfl
      | cons d w =>
          rw [ih (by simp) (fun x hx => hplain x (List.mem_cons_of_mem c hx)),
            FormatState.append_append]
          rfl

/-- A conversion letter right behind the percent sign. -/
theorem printfConversion_letter {c : UInt8} (hflag : c ∉ ascii "#0-+ ")
    (hdigit : isDigit c = false) (hdot : c ≠ 46)
    (hletter : c ∈ ascii "diouxX" ∨ c ∈ ascii "eEfFgGaA") {rest : Bytes} {st : FormatState}
    {arg : VaArg} {ap : List VaArg} (hnum : vaNumber st.ap = .ok (arg, ap)) {text : Bytes}
    (htext : vsnprintf [37, c] arg = .ok text) :
    printfConversion (37 :: c :: rest) st = .ok (rest, { st with ap := ap }.append text) := by
  have hskip : skipModifiers (c :: rest) = c :: rest := by
    simp [skipModifiers, hflag, hdigit, hdot]
  have hscan : scanConversion (c :: rest) = some (c :: rest) := by
    rcases hletter with h | h <;> simp [scanConversion, strchr, h]
  have hl : (37 :: c :: rest).length - (c :: rest).length + 1 = 2 := by
    simp only [List.length_cons]
    omega
  rw [printfConversion, List.tail_cons, hskip, hscan]
  simp only [hnum, bind, Except.bind, hl]
  simp [htext, pure, Except.pure]

/-- One item is read into the current argument. -/
theorem formatFrom_item (i : Item) (rest : Bytes) {st : FormatState} {ap : List VaArg}
    (hap : st.ap = i.args ++ ap) :
    formatFrom (i.format ++ rest) st =
      formatFrom rest ({ st with ap := ap }.append i.text) := by
  cases i with
  | word w hne hplain =>
      simp only [Item.args, List.nil_append] at hap
      subst hap
      exact formatFrom_word hne hplain rest st
  | str s =>
      change formatFrom (37 :: 115 :: rest) st = _
      refine formatFrom_conversion (List.cons_ne_nil 115 rest) ?_
      simp [conversion, hap, Item.args, vaString, cString_eq_self s.nulFree, bind, Except.bind,
        pure, Except.pure, Item.text]
  | bin b =>
      change formatFrom (37 :: 98 :: rest) st = _
      refine formatFrom_conversion (List.cons_ne_nil 98 rest) ?_
      simp [conversion, hap, Item.args, vaBinary, bind, Except.bind, pure, Except.pure,
        Item.text]
  | int n =>
      change formatFrom (37 :: 100 :: rest) st = _
      refine formatFrom_conversion (List.cons_ne_nil 100 rest) ?_
      exact printfConversion_letter (c := 100) (by decide) (by decide) (by decide) (by decide)
        (by rw [hap]; rfl) rfl
  | double d =>
      change formatFrom (37 :: 102 :: rest) st = _
      refine formatFrom_conversion (List.cons_ne_nil 102 rest) ?_
      exact printfConversion_letter (c := 102) (by decide) (by decide) (by decide) (by decide)
        (by rw [hap]; rfl) rfl

/-- **A format of items yields one argument for each of them.** -/
theorem formatFrom_template {items : List Item} (hne : items ≠ []) (argv : List Bytes)
    (ap : List VaArg) :
    ∃ st, formatFrom (template items)
        (.clean argv ((items.map Item.args).flatten ++ ap)) = .ok st ∧
      st.finish = .clean (argv ++ items.map Item.text) ap := by
  induction items generalizing argv with
  | nil => exact absurd rfl hne
  | cons i items ih =>
      have hitem (rest : Bytes) :
          formatFrom (i.format ++ rest)
            (.clean argv (((i :: items).map Item.args).flatten ++ ap)) =
            formatFrom rest
              ((FormatState.clean argv ((items.map Item.args).flatten ++ ap)).append
                i.text) := by
        have hap : (FormatState.clean argv (((i :: items).map Item.args).flatten ++ ap)).ap =
            i.args ++ ((items.map Item.args).flatten ++ ap) := by
          simp [FormatState.clean]
        rw [formatFrom_item i rest hap]
        rfl
      cases items with
      | nil =>
          have hlast := hitem []
          rw [List.append_nil, formatFrom_nil] at hlast
          exact ⟨_, hlast, by
            rw [FormatState.finish_append, FormatState.push_append_clean]; simp⟩
      | cons j items =>
          obtain ⟨st, hst, hfin⟩ := ih (by simp) (argv ++ [i.text])
          refine ⟨st, ?_, by rw [hfin]; simp⟩
          rw [template, hitem, formatFrom_space rfl, FormatState.push_append_clean, hst]
          simp

/-- **The format encoder on items**: only the size of the frame decides. -/
theorem redisvFormatCommand_template {items : List Item} (hne : items ≠ []) :
    redisvFormatCommand (template items) (items.map Item.args).flatten =
      buildCommand (toInt32 (encodeCommand (items.map Item.text)).length)
        (items.map Item.text) := by
  obtain ⟨st, hst, hfin⟩ := formatFrom_template hne [] []
  have hclean : FormatState.clean [] ((items.map Item.args).flatten ++ []) =
      { ap := (items.map Item.args).flatten } := by
    simp [FormatState.clean, toInt32_eq_self]
  rw [hclean] at hst
  rw [redisvFormatCommand, ← formatFrom, hst]
  simp only [bind, Except.bind, hfin, List.nil_append]
  have htot : ((items.map Item.text).map fun a => bulklen a.length).sum +
      (1 + countDigits (items.map Item.text).length + 2) =
        (encodeCommand (items.map Item.text)).length := by
    rw [length_encodeCommand]
    omega
  rw [FormatState.clean, toInt32_add_toInt32, ← Nat.cast_add, htot]

end Hiredis
