import RcppRedis.Hiredis.Reader

/-!
# The bytes of a context

The functions of `hiredis.c` and `net.c` that move the bytes of a blocking context: what is to
be sent is in its output buffer, and what was received is in its reader.  Each of them makes at
most one system call, whose end is an argument.

The default `push_cb` frees a push that the loop of `redisGetReply` comes to.
-/

namespace Hiredis

open Bytes

/-! ## System calls -/

/-- An `errno`, as far as `net.c` tells them apart. -/
inductive Errno where
  /-- `EINTR` -/
  | interrupted
  /-- `ETIMEDOUT` -/
  | timedOut
  | other
  deriving DecidableEq, Repr

/-- How a `send` or a `recv` ends. -/
inductive SocketCall where
  /-- It moves so many bytes, but not more than there are. -/
  | moves (n : ℕ)
  /-- The stream has ended. -/
  | eof
  /-- It returns `-1`; the text is what `strerror_r` makes of the `errno`. -/
  | fails (errno : Errno) (strerror : Bytes)

/-- `redisNetRead`: the bytes it read, or an error that is set. -/
def redisNetRead (bufcap : ℕ) (incoming : Bytes) : SocketCall → Except Failure Bytes
  | .moves n => .ok (incoming.take (min n bufcap))
  | .eof => .error ⟨.eof, ascii "Server closed the connection"⟩
  | .fails .interrupted _ => .ok []
  | .fails .timedOut _ => .error ⟨.timeout, ascii "recv timeout"⟩
  | .fails _ strerror => .error ⟨.io, strerror⟩

/-- `redisNetWrite`: how many bytes it wrote, or `-1`, with an error that is set or without. -/
def redisNetWrite (obuf : Bytes) : SocketCall → Except (Option Failure) ℕ
  | .moves n => .ok (min n obuf.length)
  | .eof => .ok 0
  | .fails .interrupted _ => .error none
  | .fails _ strerror => .error (some ⟨.io, strerror⟩)

theorem redisNetWrite_fails {errno : Errno} (h : errno ≠ .interrupted)
    (obuf strerror : Bytes) :
    redisNetWrite obuf (.fails errno strerror) = .error (some ⟨.io, strerror⟩) := by
  rw [redisNetWrite]
  rintro rfl
  exact h rfl

theorem redisNetRead_fails {errno : Errno} (h : errno ≠ .interrupted) (bufcap : ℕ)
    (incoming strerror : Bytes) :
    ∃ e, redisNetRead bufcap incoming (.fails errno strerror) = .error e := by
  by_cases htimeout : errno = .timedOut
  · rw [htimeout]
    exact ⟨_, rfl⟩
  · rw [redisNetRead]
    · exact ⟨_, rfl⟩
    · exact h
    · exact htimeout

/-! ## The context -/

/-- A `redisContext`. -/
structure RedisContext where
  err : Option Failure := none
  obuf : Bytes := []
  reader : RedisReader := {}

/-- `__redisSetError` -/
def redisSetError (c : RedisContext) (e : Failure) :
    RedisContext := { c with err := some e.truncate }

/-- `redisBufferRead`: whether it is `REDIS_OK`, and the bytes that are still to come. -/
def redisBufferRead (call : SocketCall) (incoming : Bytes) (c : RedisContext) :
    Bool × Bytes × RedisContext :=
  if c.err.isSome then (false, incoming, c)
  else
    match redisNetRead (1024 * 16) incoming call with
    | .error e => (false, incoming, redisSetError c e)
    | .ok [] => (true, incoming, c)
    | .ok (b :: buf) =>
        let rest := incoming.drop (b :: buf).length
        match redisReaderFeed c.reader (b :: buf) with
        | (true, reader) => (true, rest, { c with reader := reader })
        | (false, reader) => (false, rest, { c with reader := reader, err := reader.err })

/-- `redisBufferWrite`: whether it is `REDIS_OK`, and the bytes that are sent. -/
def redisBufferWrite (call : SocketCall) (c : RedisContext) : Bool × Bytes × RedisContext :=
  if c.err.isSome then (false, [], c)
  else if c.obuf = [] then (true, [], c)
  else
    match redisNetWrite c.obuf call with
    | .error none => (false, [], c)
    | .error (some e) => (false, [], redisSetError c e)
    | .ok nwritten =>
        let obuf :=
          if nwritten = 0 then c.obuf
          else if nwritten = c.obuf.length then []
          else sdsrange c.obuf nwritten (-1)
        (true, c.obuf.take nwritten, { c with obuf := obuf })

/-- `redisHandledPushReply`, where `push_cb` is `redisPushAutoFree`. -/
def redisHandledPushReply : Object → Bool
  | .aggregate .push _ => true
  | _ => false

section Reader

variable (strtod : Bytes → Double × Bytes)

/-- `redisGetReplyFromReader`: `none` is `REDIS_ERR`. -/
def redisGetReplyFromReader (c : RedisContext) : Option (Option Object) × RedisContext :=
  match redisReaderGetReply strtod c.reader with
  | (none, reader) => (none, { c with reader := reader, err := reader.err })
  | (some reply, reader) => (some reply, { c with reader := reader })

/-- The innermost loop of `redisGetReply`: the next reply that is no push.  Every push takes at
least one byte, so the bytes bound the rounds. -/
def skipPushes : ℕ → RedisContext → Option (Option Object) × RedisContext
  | 0, c => (some none, c)
  | fuel + 1, c =>
      match redisGetReplyFromReader strtod c with
      | (some (some o), c) => if redisHandledPushReply o then skipPushes fuel c else
          (some (some o), c)
      | res => res

end Reader

end Hiredis
