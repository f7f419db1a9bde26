import RcppRedis.Redis.Connection
import RcppRedis.Hiredis.PlainSpec

/-!
# `exec` and `execv`

`exec` hands its string over as a format; `execv` sends an argument vector.

* `agrees_iff_tokenizes` — exactly when `exec` puts the frame of the tokens on the wire.
-/

namespace RcppRedis

open Bytes Resp Hiredis Interact Prog

variable {O : Type} {R : Runtime O} {α : Type}

/-! ## The wire -/

/-- A frame is put on the wire and replied to. -/
def put (reply : Bytes → Reply) (frames : List Bytes) : Except FormatError Cmd →
    Response Fault (Option Reply) × List Bytes
  | .error (.fault f) => (.fault (.format f), frames)
  | .error _ => (.answer none, frames)
  | .ok cmd => (.answer (some (reply cmd.bytes)), frames ++ [cmd.bytes])

/-- A connection that keeps the frames which are put on it, one for each request; what is
replied is a parameter. -/
def wire (reply : Bytes → Reply) : Env (List Bytes) where
  request q frames := put reply frames q.encode
  connect _ _ _ frames := (none, frames)

/-- A run puts this frame on the wire and nothing else, whatever is replied. -/
def PutsOnWire (p : Code α) (frame : Bytes) : Prop :=
  ∀ reply, ((wire reply).run p []).2.env = [frame]

theorem putsOnWire_iff {q : Request} {k : Pointer → Code α} (hk : ∀ p, Only Instr.Frees (k p))
    {frame : Bytes} :
    PutsOnWire (requestNULLSafe q >>= k) frame ↔ ∃ cmd, q.encode = .ok cmd ∧
    cmd.bytes = frame := by
  have hrun (reply : Bytes → Reply) :
      ((wire reply).run (requestNULLSafe q >>= k) []).2.env = (put reply [] q.encode).2 := by
    rw [Env.run, env_run_request q hk]
    rfl
  constructor
  · intro h
    have hframe := h fun _ => .nil
    rw [hrun] at hframe
    rcases hencode : q.encode with e | cmd
    · rw [hencode] at hframe
      cases e <;> cases hframe
    · rw [hencode] at hframe
      exact ⟨cmd, rfl, by simpa [put] using hframe⟩
  · rintro ⟨cmd, hencode, rfl⟩ reply
    rw [hrun, hencode]
    rfl

/-! ## Tokens of a command string -/

/-- The maximal runs of bytes other than spaces, in order. -/
def tokens (cmd : CStr) : List CStr := (Hiredis.tokens cmd.bytes).map CStr.ofBuffer

theorem map_bytes_tokens (cmd : CStr) :
    (tokens cmd).map CStr.bytes = Hiredis.tokens cmd.bytes := by
  have hnul : ∀ w ∈ Hiredis.tokens cmd.bytes, (0 : UInt8) ∉ w := fun w hw hzero =>
    cmd.nulFree (mem_of_mem_tokens hw hzero)
  rw [tokens, List.map_map]
  refine (List.map_congr_left fun w hw => ?_).trans (List.map_id _)
  exact cString_eq_self (hnul w hw)

/-- `exec` puts the frame on the wire that `execv` puts there for the tokens, and a server
reads the tokens from it. -/
def AgreesWithExecv (R : Runtime O) (cmd : CStr) : Prop :=
  ∃ frame, PutsOnWire (Method.code R (.exec cmd)) frame ∧
    PutsOnWire (Method.code R (.execv (tokens cmd))) frame ∧
    parseCommand frame = some ((tokens cmd).map CStr.bytes, [])

/-- There is a token, no percent sign stands before the last byte, and the frame of the tokens
fits. -/
def Tokenizes (cmd : CStr) : Prop :=
  tokens cmd ≠ [] ∧ (37 : UInt8) ∉ cmd.bytes.dropLast ∧
    (encodeCommand ((tokens cmd).map CStr.bytes)).length + 1 < 2 ^ 31

theorem putsOnWire_exec_iff (cmd : CStr) (frame : Bytes) :
    PutsOnWire (Method.code R (.exec cmd)) frame ↔
      ∃ c, redisvFormatCommand cmd.bytes [] = .ok c ∧ c.bytes = frame :=
  putsOnWire_iff (q := .format cmd.bytes []) (only_code (R := R) .extract)

theorem putsOnWire_execv_iff (words : List CStr) (frame : Bytes) :
    PutsOnWire (Method.code R (.execv words)) frame ↔
      ∃ c, redisFormatSdsCommandArgv (words.map CStr.bytes) = .ok c ∧ c.bytes = frame :=
  putsOnWire_iff (q := .argv (words.map CStr.bytes)) (only_code (R := R) .extract)

/-- **`exec` agrees with `execv` on the tokens** exactly when the command string is not blank,
has no percent sign before its last byte, and its frame fits. -/
theorem agrees_iff_tokenizes (cmd : CStr) : AgreesWithExecv R cmd ↔ Tokenizes cmd := by
  have hne : tokens cmd ≠ [] ↔ Hiredis.tokens cmd.bytes ≠ [] := by
    rw [tokens, ne_eq, List.map_eq_nil_iff]
  constructor
  · rintro ⟨frame, hexec, -, hparse⟩
    obtain ⟨c, hc, rfl⟩ := (putsOnWire_exec_iff cmd _).mp hexec
    rw [map_bytes_tokens] at hparse
    rw [Tokenizes, hne, map_bytes_tokens]
    exact tokens_of_parse hc hparse
  · intro h
    rw [Tokenizes, hne, map_bytes_tokens] at h
    obtain ⟨htokens, hpercent, hlt⟩ := h
    refine ⟨encodeCommand (Hiredis.tokens cmd.bytes), ?_, ?_, ?_⟩
    · exact (putsOnWire_exec_iff cmd _).mpr
        ⟨_, redisvFormatCommand_tokens htokens hpercent hlt, rfl⟩
    · rw [putsOnWire_execv_iff, map_bytes_tokens]
      exact ⟨_, redisFormatSdsCommandArgv_eq (by omega), rfl⟩
    · rw [map_bytes_tokens]
      exact parseCommand_encodeCommand_nil _

/-- `exec("SET rate 5%% off")` sends the word `5%`. -/
theorem exec_percent_alters :
    ¬ AgreesWithExecv Runtime.onlyNull (.ofAscii "SET rate 5%% off") := by
  rintro ⟨frame, hexec, -, hparse⟩
  obtain ⟨c, hc, rfl⟩ := (putsOnWire_exec_iff _ _).mp hexec
  have hframe : redisvFormatCommand (ascii "SET rate 5%% off") [] =
      .ok ⟨encodeCommand [ascii "SET", ascii "rate", ascii "5%", ascii "off"], false⟩ := by
      decide
  obtain rfl : _ = c := Except.ok.inj (hframe.symm.trans hc)
  rw [parseCommand_encodeCommand_nil] at hparse
  exact absurd hparse (by decide)

end RcppRedis
