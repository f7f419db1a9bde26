import RcppRedis.Redis.Pasted
import RcppRedis.Lib.Binary64Value
import Mathlib.Order.WithBot

/-!
# Deadlines

`expire` takes seconds and `pexpire` milliseconds.  Both round their duration, narrow it to an
`int32_t` and paste it behind the word EXPIRE.

* `leaves_iff` — the deadline that a key then has.
* `deadlines_iff` — exactly when it is the one that was asked for.
-/

namespace RcppRedis

open Bytes Resp Hiredis Interact Prog

variable {O : Type} {R : Runtime O} {σ α : Type}

/-! ## Timers -/

/-- The two methods, by the unit that they take. -/
inductive Timer where
  | expire
  | pexpire

namespace Timer

/-- The command word. -/
def word : Timer → Bytes
  | expire => ascii "EXPIRE"
  | pexpire => ascii "PEXPIRE"

/-- The unit, in milliseconds. -/
def unit : Timer → ℤ
  | expire => 1000
  | pexpire => 1

def method : Timer → CStr → Double → Method O
  | expire, key, seconds => .expire key seconds
  | pexpire, key, milliseconds => .pexpire key milliseconds

/-- The timer of a command word. -/
def ofWord (w : Bytes) : Option Timer :=
  if w = ascii "EXPIRE" then some expire
  else if w = ascii "PEXPIRE" then some pexpire
  else none

/-- The command that is asked for. -/
def command (t : Timer) (key : CStr) (d : Double) : List Bytes :=
  [t.word, key.bytes, decimalInt d.round]

end Timer

/-! ## The server -/

/-- The keys that exist, each with its deadline in milliseconds.  A key that is kept for good
has the deadline `⊤`; a deadline that has passed stays where it is. -/
abbrev Deadlines : Type := Keyspace (WithTop ℤ)

/-- Give a key a deadline, if it exists. -/
def setDeadline (key : Bytes) (ms : ℤ) (db : Deadlines) : Deadlines :=
  Function.update db key ((db key).map fun _ => (ms : WithTop ℤ))

/-- A server of deadlines, at a time. -/
def timers (now : ℤ) : Server Deadlines
  | [w, key, r], db =>
      match Timer.ofWord w, parseDecimalInt r with
      | some t, some n =>
          (.integer (if (db key).isSome then 1 else 0), setDeadline key (now + t.unit * n) db)
      | _, _ => (.error (ascii "ERR value is not an integer or out of range"), db)
  | _, db => (.error (ascii "ERR wrong number of arguments"), db)

theorem timers_expire (now : ℤ) (key : Bytes) (n : ℤ) (db : Deadlines) :
    (timers now [ascii "EXPIRE", key, decimalInt n] db).2 =
      setDeadline key (now + 1000 * n) db := by
  have hword : Timer.ofWord (ascii "EXPIRE") = some .expire := rfl
  rw [timers, hword, parseDecimalInt_decimalInt]
  rfl

/-! ## What the methods promise -/

/-- The method leaves the key with the deadline that many milliseconds from now. -/
def Leaves (R : Runtime O) (t : Timer) (key : CStr) (d : Double) (ms : ℤ) : Prop :=
  ∀ now db, ((Conn.env (timers now)).run ((t.method key d).code R)
    { server := db }).2.env.server =
    setDeadline key.bytes (now + ms) db

/-- The method sends the command of its unit, with the duration rounded, and the deadline is
that far from now. -/
structure SetsDeadline (R : Runtime O) (t : Timer) (key : CStr) (d : Double) : Prop where
  sends : Transmits ((t.method key d).code R) (t.command key d)
  leaves : Leaves R t key d (t.unit * d.round)

/-- One second is a thousand milliseconds: both methods leave the same deadline. -/
def SameDeadline (R : Runtime O) (key : CStr) (seconds milliseconds : Double) : Prop :=
  ∃ ms, Leaves R .expire key seconds ms ∧ Leaves R .pexpire key milliseconds ms

/-! ## What is sent -/

/-- An `int32_t` holds the rounded duration. -/
def InInt32 (d : Double) : Prop := d.isFinite = true ∧ -2 ^ 31 ≤ d.round ∧ d.round < 2 ^ 31

instance (d : Double) : Decidable (InInt32 d) := inferInstanceAs (Decidable (_ ∧ _ ∧ _))

/-- `static_cast<int32_t>(std::round(d))` -/
def narrowed (R : Runtime O) (d : Double) : ℤ :=
  if InInt32 d then d.round else (R.castOutOfRange d).toInt

theorem roundToString_eq (d : Double) : roundToString R d = decimalInt (narrowed R d) := by
  rw [roundToString, narrowed]
  by_cases h : InInt32 d
  · rw [if_pos h]
    exact if_pos h
  · rw [if_neg h]
    exact if_neg h

theorem narrowed_mem_int32 (R : Runtime O) (d : Double) :
    -2 ^ 31 ≤ narrowed R d ∧ narrowed R d < 2 ^ 31 := by
  rw [narrowed]
  split_ifs with h
  · exact h.2
  · exact ⟨(R.castOutOfRange d).le_toInt, (R.castOutOfRange d).toInt_lt⟩

/-- Nothing else than the duration in range is narrowed to itself. -/
theorem narrowed_eq_round_iff {d : Double} (hd : d.isFinite = true) :
    narrowed R d = d.round ↔ InInt32 d := by
  rw [narrowed]
  by_cases h : InInt32 d
  · rw [if_pos h]
    exact iff_of_true rfl h
  · rw [if_neg h]
    have hlow := (R.castOutOfRange d).le_toInt
    have hhigh := (R.castOutOfRange d).toInt_lt
    exact iff_of_false (fun heq => h ⟨hd, heq ▸ hlow, heq ▸ hhigh⟩) h

/-- The words that both methods paste. -/
def sent (R : Runtime O) (key : CStr) (d : Double) : List Bytes :=
  [ascii "EXPIRE", key.bytes, decimalInt (narrowed R d)]

theorem code_timer (t : Timer) (key : CStr) (d : Double) : (t.method key d).code R =
    requestNULLSafe (pastedRequest (sent R key d)) >>= Reader.code R .extract := by
  rw [sent, ← roundToString_eq]
  cases t with
  | expire => exact code_expire key d
  | pexpire => exact code_pexpire key d

/-- A key without spaces and percent signs. -/
def Clean (key : CStr) : Prop := (32 : UInt8) ∉ key.bytes ∧ (37 : UInt8) ∉ key.bytes

/-- The frame of what is sent fits. -/
def SentFits (R : Runtime O) (key : CStr) (d : Double) : Prop :=
  (encodeCommand (sent R key d)).length + 1 < 2 ^ 31

instance (key : CStr) (d : Double) : Decidable (SentFits R key d) :=
  inferInstanceAs (Decidable (_ < _))

theorem not_mem_decimalInt {c : UInt8} (hdigit : isDigit c = false) (hc : c ≠ 45) (n : ℤ) :
    c ∉ decimalInt n := by
  intro hmem
  have hdecimal : c ∉ decimal n.natAbs := fun h => by
    rw [isDigit_of_mem_decimal h] at hdigit
    cases hdigit
  rw [decimalInt] at hmem
  split_ifs at hmem with hn
  · exact (List.mem_cons.mp hmem).elim hc hdecimal
  · exact hdecimal hmem

variable {key : CStr} {t : Timer} {d d' : Double}

theorem not_mem_joined_sent (hkey : Clean key) (d : Double) :
    (37 : UInt8) ∉ (joined (sent R key d)).dropLast := by
  intro hmem
  have hline := List.mem_of_mem_dropLast hmem
  rw [sent, ← expire_format] at hline
  simp only [List.mem_append] at hline
  rcases hline with ((hword | hk) | hspace) | hn
  · exact absurd hword (by decide)
  · exact hkey.2 hk
  · exact absurd hspace (by decide)
  · exact not_mem_decimalInt (by decide) (by decide) _ hn

/-- The line is split into its words; an empty key is none of them. -/
theorem tokens_sent (hkey : Clean key) (d : Double) : Hiredis.tokens (joined (sent R key d)) =
    if key.bytes = [] then [ascii "EXPIRE", decimalInt (narrowed R d)] else sent R key d := by
  have hword : ascii "EXPIRE" ≠ [] := by decide
  have hnumber : decimalInt (narrowed R d) ≠ [] := by
    intro h
    have hread := parseDecimalInt_decimalInt (narrowed R d)
    rw [h] at hread
    cases hread
  have hne : sent R key d ≠ [] := List.cons_ne_nil _ _
  rw [tokens_joined hne]
  · by_cases h : key.bytes = []
    · rw [if_pos h, sent]
      simp [hword, hnumber, h]
    · rw [if_neg h, sent]
      simp [hword, hnumber, h]
  · simp only [sent, List.forall_mem_cons]
    exact ⟨by decide, hkey.1, not_mem_decimalInt (by decide) (by decide) _, by simp⟩

theorem tokens_sent_ne_nil (hkey : Clean key) (d : Double) :
    Hiredis.tokens (joined (sent R key d)) ≠ [] := by
  rw [tokens_sent hkey]
  split_ifs
  · exact List.cons_ne_nil _ _
  · exact List.cons_ne_nil _ _

/-- **A command of a timer** is sent exactly if it is the one with the word EXPIRE and the
narrowed number, the key is not empty, and the frame fits. -/
theorem transmits_timer_iff (hkey : Clean key) (t : Timer) (d : Double) :
    Transmits ((t.method key d).code R) (t.command key d) ↔
      t = .expire ∧ key.bytes ≠ [] ∧ narrowed R d = d.round ∧ SentFits R key d := by
  have hne : t.command key d ≠ [] := List.cons_ne_nil _ _
  rw [code_timer, transmits_iff (q := pastedRequest (sent R key d)) (by rintro ⟨⟩)
    (only_code .extract) hne]
  refine (parse_line_iff (not_mem_joined_sent hkey d) hne).trans ?_
  rw [tokens_sent hkey]
  constructor
  · rintro ⟨hwords, hlt⟩
    split_ifs at hwords with hempty
    · cases congrArg List.length hwords
    · have hnumber := congrArg parseDecimalInt (congrArg (fun l => l.getLastD []) hwords)
      have ht : t = .expire := by
        cases t with
        | expire => rfl
        | pexpire => exact absurd (List.cons.inj hwords).1 (by decide)
      rw [← hwords] at hlt
      simp only [sent, Timer.command, List.getLastD_cons, List.getLastD_nil,
        parseDecimalInt_decimalInt, Option.some.injEq] at hnumber
      exact ⟨ht, hempty, hnumber, hlt⟩
  · rintro ⟨rfl, hempty, hnumber, hlt⟩
    have hsent : sent R key d = Timer.expire.command key d := by
      rw [sent, hnumber]
      rfl
    rw [if_neg hempty, ← hsent]
    exact ⟨rfl, hlt⟩

/-! ## What is left -/

/-- A line without percent signs is a command if its frame fits, and nothing else is. -/
theorem server_after_line (S : Server σ) {line : Bytes}
    (hpercent : (37 : UInt8) ∉ line.dropLast) (hne : Hiredis.tokens line ≠ [])
    {k : Pointer → Code α} (hk : ∀ p, Only Instr.Frees (k p)) (s : σ) :
    ((Conn.env S).run (requestNULLSafe (.format line []) >>= k) { server := s }).2.env.server =
      if (encodeCommand (Hiredis.tokens line)).length + 1 <
        2 ^ 31 then (S (Hiredis.tokens line) s).2
      else s := by
  have hparse := parse_line_iff hpercent hne
  rw [Env.run, env_run_request _ hk, Conn.request_eq S (by rintro ⟨⟩), Request.encode]
  split_ifs with hlt
  · obtain ⟨cmd, hcmd, hwords⟩ := hparse.mpr ⟨rfl, hlt⟩
    rw [hcmd]
    exact congrArg (fun c => c.2.server) (Conn.receive_of_parse S hne hwords { server := s })
  · rcases hcmd : redisvFormatCommand line [] with e | cmd
    · cases e <;> rfl
    · rw [redisvFormatCommand_plain (formatFrom_literals hpercent { ap := [] }),
        argv_foldl_literal] at hcmd
      exact absurd (length_lt_of_buildCommand hcmd) hlt

/-- What a method does to the deadlines. -/
theorem server_after_timer (hkey : Clean key) (t : Timer) (d : Double) (now : ℤ)
    (db : Deadlines) :
    ((Conn.env (timers now)).run ((t.method key d).code R) { server := db }).2.env.server =
      if key.bytes ≠ [] ∧ SentFits R key d then
        setDeadline key.bytes (now + 1000 * narrowed R d) db
      else db := by
  rw [code_timer, server_after_line _ (not_mem_joined_sent hkey d) (tokens_sent_ne_nil hkey d)
    (only_code .extract), tokens_sent hkey]
  by_cases hempty : key.bytes = []
  · have hnot : ¬ (key.bytes ≠ [] ∧ SentFits R key d) := fun h => h.1 hempty
    rw [if_pos hempty, if_neg hnot]
    exact ite_self db
  · rw [if_neg hempty]
    by_cases hfits : SentFits R key d
    · have hboth : key.bytes ≠ [] ∧ SentFits R key d := ⟨hempty, hfits⟩
      rw [if_pos hboth]
      exact (if_pos hfits).trans (timers_expire now key.bytes _ db)
    · have hnot : ¬ (key.bytes ≠ [] ∧ SentFits R key d) := fun h => hfits h.2
      rw [if_neg hnot]
      exact if_neg hfits

theorem setDeadline_self (key : Bytes) (ms : ℤ) :
    setDeadline key ms (fun _ => some ⊤) key = some (ms : WithTop ℤ) := by
  rw [setDeadline, Function.update_self]
  rfl

/-- **The deadline** that a method leaves counts the narrowed number in seconds, whichever
method it is. -/
theorem leaves_iff (hkey : Clean key) (ms : ℤ) :
    Leaves R t key d ms ↔ key.bytes ≠ [] ∧ SentFits R key d ∧ ms = 1000 * narrowed R d := by
  constructor
  · intro h
    have hleft := congrFun (h 0 fun _ => some ⊤) key.bytes
    rw [server_after_timer hkey, setDeadline_self] at hleft
    split_ifs at hleft with hsent
    · rw [setDeadline_self, Option.some.injEq, WithTop.coe_inj] at hleft
      exact ⟨hsent.1, hsent.2, by omega⟩
    · cases Option.some.inj hleft
  · rintro ⟨hempty, hfits, rfl⟩ now db
    rw [server_after_timer hkey, if_pos ⟨hempty, hfits⟩]

/-- **The deadline asked for** is set by `expire` for a duration in the range of an `int32_t`,
and by nothing else. -/
theorem setsDeadline_iff (hkey : Clean key) (hd : d.isFinite = true) :
    SetsDeadline R t key d ↔
      t = .expire ∧ key.bytes ≠ [] ∧ InInt32 d ∧
      (encodeCommand (t.command key d)).length + 1 < 2 ^ 31 := by
  have hcommand : t = .expire → narrowed R d = d.round → sent R key d = t.command key d := by
    rintro rfl hnumber
    rw [sent, hnumber]
    rfl
  constructor
  · intro h
    obtain ⟨ht, hempty, hnumber, hfits⟩ := (transmits_timer_iff hkey t d).mp h.sends
    rw [SentFits, hcommand ht hnumber] at hfits
    exact ⟨ht, hempty, (narrowed_eq_round_iff hd).mp hnumber, hfits⟩
  · rintro ⟨ht, hempty, hrange, hlt⟩
    have hnumber := (narrowed_eq_round_iff (R := R) hd).mpr hrange
    rw [← hcommand ht hnumber] at hlt
    refine ⟨(transmits_timer_iff hkey t d).mpr ⟨ht, hempty, hnumber, hlt⟩, ?_⟩
    rw [leaves_iff hkey, ht, hnumber]
    exact ⟨hempty, hlt, rfl⟩

/-! ## Both methods -/

/-- The runtime with another cast.  What the cast makes of a double out of range is
undefined. -/
def Runtime.withCast (R : Runtime O) (castOutOfRange : Double → Int32) : Runtime O :=
  { R with castOutOfRange }

theorem exists_toInt_ne (n : ℤ) : ∃ c : Int32, c.toInt ≠ n := by
  by_cases hn : n = 0
  · exact ⟨1, by rw [hn]; decide⟩
  · exact ⟨0, Ne.symm hn⟩

/-- Durations that are rounded to different numbers are narrowed to different ones too by some
cast. -/
theorem exists_narrowed_ne (R : Runtime O) (hround : d.round ≠ d'.round) :
    ∃ cast, narrowed (R.withCast cast) d ≠ narrowed (R.withCast cast) d' := by
  by_cases h : InInt32 d
  · by_cases h' : InInt32 d'
    · refine ⟨fun _ => 0, ?_⟩
      rwa [narrowed, narrowed, if_pos h, if_pos h']
    · obtain ⟨c, hc⟩ := exists_toInt_ne d.round
      refine ⟨fun _ => c, ?_⟩
      rw [narrowed, narrowed, if_pos h, if_neg h']
      exact hc.symm
  · by_cases h' : InInt32 d'
    · obtain ⟨c, hc⟩ := exists_toInt_ne d'.round
      refine ⟨fun _ => c, ?_⟩
      rw [narrowed, narrowed, if_neg h, if_pos h']
      exact hc
    · refine ⟨fun x => if x = d then 1 else 0, ?_⟩
      have hne : d' ≠ d := by
        rintro rfl
        exact hround rfl
      rw [narrowed, narrowed, if_neg h, if_neg h', Runtime.withCast]
      dsimp only
      rw [if_pos rfl, if_neg hne]
      decide

/-- The frame of a timer for no time fits. -/
def ZeroFits (key : CStr) : Prop :=
  (encodeCommand [ascii "EXPIRE", key.bytes, ascii "0"]).length + 1 < 2 ^ 31

theorem sentFits_of_zero (hzero : narrowed R d = 0) : SentFits R key d ↔ ZeroFits key := by
  have hnumber : decimalInt 0 = ascii "0" := by decide
  rw [SentFits, sent, hzero, hnumber, ZeroFits]

theorem narrowed_of_round_zero (hd : d.isFinite = true) (hround : d.round = 0) :
    narrowed R d = 0 := by
  have hrange : InInt32 d := ⟨hd, by omega, by omega⟩
  rw [narrowed, if_pos hrange, hround]

/-- **The same deadline** is left by `n` seconds and `1000 * n` milliseconds, whatever the
cast, for no `n` but zero. -/
theorem sameDeadline_iff (hkey : Clean key) {n : ℤ} (hd : d.isFinite = true)
    (hd' : d'.isFinite = true) (hn : d.toRat = n) (hn' : d'.toRat = (1000 * n : ℤ)) :
    (∀ cast, SameDeadline (R.withCast cast) key d d') ↔
      n = 0 ∧ key.bytes ≠ [] ∧ ZeroFits key := by
  have hround := Double.round_of_toRat hn
  have hround' := Double.round_of_toRat hn'
  constructor
  · intro h
    have hzero : n = 0 := by
      by_contra hne
      have hrounds : d.round ≠ d'.round := by omega
      obtain ⟨cast, hcast⟩ := exists_narrowed_ne R hrounds
      obtain ⟨ms, hleft, hleft'⟩ := h cast
      have hms := ((leaves_iff hkey ms).mp hleft).2.2
      have hms' := ((leaves_iff hkey ms).mp hleft').2.2
      exact hcast (by omega)
    obtain ⟨ms, hleft, -⟩ := h R.castOutOfRange
    obtain ⟨hempty, hfits, -⟩ := (leaves_iff hkey ms).mp hleft
    exact ⟨hzero, hempty, (sentFits_of_zero (narrowed_of_round_zero hd (by omega))).mp hfits⟩
  · rintro ⟨rfl, hempty, hfits⟩ cast
    have hleaves {t : Timer} {x : Double} (hx : x.isFinite = true) (hzero : x.round = 0) :
        Leaves (R.withCast cast) t key x 0 := by
      have hnumber := narrowed_of_round_zero (R := R.withCast cast) hx hzero
      exact (leaves_iff hkey 0).mpr ⟨hempty, (sentFits_of_zero hnumber).mpr hfits, by omega⟩
    exact ⟨0, hleaves hd hround, hleaves hd' hround'⟩

/-- In the range of an `int32_t`, a longer duration leaves no earlier deadline. -/
theorem leaves_mono (hkey : Clean key) (hd : InInt32 d) (hd' : InInt32 d')
    (hle : d.toRat ≤ d'.toRat) {ms ms' : ℤ} (h : Leaves R t key d ms)
    (h' : Leaves R t key d' ms') : ms ≤ ms' := by
  have hms := ((leaves_iff hkey ms).mp h).2.2
  have hms' := ((leaves_iff hkey ms').mp h').2.2
  have hround := Double.round_mono hle
  rw [narrowed, if_pos hd] at hms
  rw [narrowed, if_pos hd'] at hms'
  omega

/-- The durations are narrowed to numbers in their order, whatever the cast: an `int32_t` holds
both, or they are one, or one is narrowed to a bound of the range and cannot be on the wrong
side. -/
def CastInOrder (d d' : Double) : Prop :=
  (InInt32 d ∧ InInt32 d') ∨ d = d' ∨ (InInt32 d ∧ d.round = -2 ^ 31) ∨
    (InInt32 d' ∧ d'.round = 2 ^ 31 - 1)

theorem narrowed_le_iff (R : Runtime O) (hle : d.toRat ≤ d'.toRat) :
    (∀ cast, narrowed (R.withCast cast) d ≤ narrowed (R.withCast cast) d') ↔
      CastInOrder d d' := by
  constructor
  · intro h
    by_cases hd : InInt32 d <;> by_cases hd' : InInt32 d'
    · exact .inl ⟨hd, hd'⟩
    · have hmin := h fun _ => Int32.minValue
      rw [narrowed, narrowed, if_pos hd, if_neg hd', Runtime.withCast,
        Int32.toInt_minValue] at hmin
      exact .inr (.inr (.inl ⟨hd, le_antisymm hmin hd.2.1⟩))
    · have hmax := h fun _ => Int32.maxValue
      rw [narrowed, narrowed, if_neg hd, if_pos hd', Runtime.withCast,
        Int32.toInt_maxValue] at hmax
      exact .inr (.inr (.inr ⟨hd', le_antisymm (Int.le_sub_one_of_lt hd'.2.2) hmax⟩))
    · -- two doubles out of range may be cast to any two numbers
      refine .inr (.inl (by_contra fun hne => ?_))
      have hcast := h fun x => if x = d then 1 else 0
      rw [narrowed, narrowed, if_neg hd, if_neg hd', Runtime.withCast] at hcast
      dsimp only at hcast
      rw [if_pos rfl, if_neg (Ne.symm hne)] at hcast
      exact absurd hcast (by decide)
  · intro h cast
    have hlow := narrowed_mem_int32 (R.withCast cast) d
    have hhigh := narrowed_mem_int32 (R.withCast cast) d'
    rcases h with ⟨hd, hd'⟩ | rfl | ⟨hd, hmin⟩ | ⟨hd', hmax⟩
    · rw [narrowed, narrowed, if_pos hd, if_pos hd']
      exact Double.round_mono hle
    · exact le_rfl
    · have hnumber : narrowed (R.withCast cast) d = -2 ^ 31 := by
        rw [narrowed, if_pos hd, hmin]
      omega
    · have hnumber : narrowed (R.withCast cast) d' = 2 ^ 31 - 1 := by
        rw [narrowed, if_pos hd', hmax]
      omega

/-- The frame of a timer for any number of seconds fits. -/
def EveryFits (key : CStr) : Prop := ∀ n : ℤ, -2 ^ 31 ≤ n → n < 2 ^ 31 →
  (encodeCommand [ascii "EXPIRE", key.bytes, decimalInt n]).length + 1 < 2 ^ 31

/-- **The order of the deadlines** is that of the durations, whatever the cast, exactly when
the durations are narrowed in order. -/
theorem deadlines_ordered_iff (hkey : Clean key) (hempty : key.bytes ≠ [])
    (hfits : EveryFits key) (hle : d.toRat ≤ d'.toRat) :
    (∀ cast ms ms', Leaves (R.withCast cast) t key d ms →
      Leaves (R.withCast cast) t key d' ms' →
      ms ≤ ms') ↔ CastInOrder d d' := by
  have hleaves (cast : Double → Int32) (x : Double) (ms : ℤ) :
      Leaves (R.withCast cast) t key x ms ↔ ms = 1000 * narrowed (R.withCast cast) x := by
    obtain ⟨hlow, hhigh⟩ := narrowed_mem_int32 (R.withCast cast) x
    rw [leaves_iff hkey, and_iff_right hempty]
    exact and_iff_right (hfits _ hlow hhigh)
  rw [← narrowed_le_iff R hle]
  refine forall_congr' fun cast => ?_
  simp only [hleaves]
  constructor
  · intro h
    have hms := h _ _ rfl rfl
    omega
  · rintro h _ _ rfl rfl
    omega

/-- **Deadlines.**  For a key without spaces and percent signs, the command that is asked for
is sent, and the deadline set, exactly by `expire` with a duration that an `int32_t` holds once
it is rounded.  `n` seconds and `1000 * n` milliseconds leave the same deadline for zero only,
and the deadlines of both methods are in the order of the durations as long as an `int32_t`
holds these, and else only where no cast can reverse them. -/
theorem deadlines_iff (R : Runtime O) {key : CStr} (hkey : Clean key) :
    (∀ t d, d.isFinite = true →
      (SetsDeadline R t key d ↔ t = .expire ∧ key.bytes ≠ [] ∧ InInt32 d ∧
      (encodeCommand (t.command key d)).length + 1 < 2 ^ 31)) ∧
    (∀ (n : ℤ) (d d' : Double), d.isFinite = true → d'.isFinite = true → d.toRat = n →
      d'.toRat = (1000 * n : ℤ) → ((∀ cast, SameDeadline (R.withCast cast) key d d') ↔
        n = 0 ∧ key.bytes ≠ [] ∧ ZeroFits key)) ∧
    (∀ t d d' ms ms', InInt32 d → InInt32 d' → d.toRat ≤ d'.toRat → Leaves R t key d ms →
      Leaves R t key d' ms' → ms ≤ ms') ∧
    ∀ t d d', key.bytes ≠ [] → EveryFits key → d.toRat ≤ d'.toRat →
      ((∀ cast ms ms', Leaves (R.withCast cast) t key d ms →
        Leaves (R.withCast cast) t key d' ms' →
        ms ≤ ms') ↔ CastInOrder d d') :=
  ⟨fun _ _ hd => setsDeadline_iff hkey hd,
    fun _ _ _ hd hd' hn hn' => sameDeadline_iff hkey hd hd' hn hn',
    fun _ _ _ _ _ hd hd' hle h h' => leaves_mono hkey hd hd' hle h h',
    fun _ _ _ hempty hfits hle => deadlines_ordered_iff hkey hempty hfits hle⟩

theorem clean_k : Clean (.ofAscii "k") := ⟨by decide, by decide⟩

/-- A minute in seconds is asked for and set. -/
theorem minute_setsDeadline :
    SetsDeadline Runtime.onlyNull .expire (.ofAscii "k") (.ofInt 60) := by
  have hfinite : (Double.ofInt 60).isFinite = true := by decide
  have hround : (Double.ofInt 60).round = 60 :=
    Double.round_of_toRat (Double.toRat_ofInt (by decide))
  have hrange : InInt32 (.ofInt 60) := ⟨hfinite, by omega, by omega⟩
  have hframe : (encodeCommand (Timer.expire.command (.ofAscii "k") (.ofInt 60))).length + 1 <
      2 ^ 31 := by
    rw [Timer.command, hround]
    decide
  exact ((deadlines_iff Runtime.onlyNull clean_k).1 .expire _ hfinite).mpr
    ⟨rfl, by decide, hrange, hframe⟩

/-- `pexpire` with 1500 milliseconds does not send PEXPIRE. -/
theorem pexpire_sends_expire :
    ¬ SetsDeadline Runtime.onlyNull .pexpire (.ofAscii "k") (.ofInt 1500) := by
  intro h
  cases ((transmits_timer_iff clean_k .pexpire _).mp h.sends).1

end RcppRedis
