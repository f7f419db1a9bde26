import RcppRedis.Hiredis.Context
import RcppRedis.Hiredis.Encode
import RcppRedis.Redis.Transport

/-!
# The connection, byte by byte

The same connection as in `Transport`, but a `recv` brings at most 16384 bytes, which are fed
to the reader, and a server writes its replies as bytes.  The bytes of a reply may come in any
pieces, and those of several replies in one.

* `Socket.redisGetReply` — the loops over bytes.
* `Socket.env` — the environment of a method.
-/

namespace RcppRedis

open Bytes Resp Hiredis Interact Prog Pieces Preorder

variable {O : Type} {R : Runtime O} {σ ε α : Type} {strtod : Bytes → Double × Bytes}

/-! ## The two ends -/

/-- What happens next. -/
inductive ByteTurn (ε : Type) where
  | call (c : SocketCall)
  | event (e : ε)

/-- The client's context, the server, and the bytes on their way between them. -/
structure Wire (σ : Type) where
  context : RedisContext := {}
  /-- the bytes of a command that is not complete yet -/
  inbound : Bytes := []
  /-- bytes on their way to the client -/
  outbound : Bytes := []
  server : σ

/-- A connection, and what will happen on it. -/
structure Socket (σ ε : Type) where
  turns : List (ByteTurn ε)
  wire : Wire σ

namespace Wire

/-- Bytes reach the server, and it answers what is complete. -/
def arrive (S : Server σ) (w : Wire σ) (sent : Bytes) : Wire σ :=
  let b := w.inbound ++ sent
  let (rest, rs, s) := serve S b.length b w.server
  { w with inbound := rest, outbound := w.outbound ++ encodeAll rs, server := s }

/-- Something happens at the server. -/
def event (P : Peer σ ε) (e : ε) (w : Wire σ) : Wire σ :=
  { w with
    outbound := w.outbound ++ encodeAll (P.event e w.server).1
    server := (P.event e w.server).2 }

end Wire

namespace Socket

/-! ## Writing and reading -/

/-- The answer with a reply, or without. -/
abbrev Answered (σ ε : Type) : Type := Response Fault (Option Object) × Socket σ ε

/-- The loop of `redisGetReply` that reads until there is a reply. -/
def readLoop (strtod : Bytes → Double × Bytes) (P : Peer σ ε) (turns : List (ByteTurn ε))
    (w : Wire σ) : Answered σ ε :=
  if w.context.err.isSome then (.answer none, ⟨turns, w⟩)
  else
    match turns with
    | [] => (.blocked, ⟨[], w⟩)
    | .event e :: turns => readLoop strtod P turns (w.event P e)
    | .call c :: turns =>
        match Hiredis.redisBufferRead c w.outbound w.context with
        | (false, rest, context) =>
            (.answer none, ⟨turns, { w with context := context, outbound := rest }⟩)
        | (true, rest, context) =>
            match skipPushes strtod (context.reader.rest.length + 1) context with
            | (none, context) =>
                (.answer none, ⟨turns, { w with context := context, outbound := rest }⟩)
            | (some none, context) =>
                readLoop strtod P turns { w with context := context, outbound := rest }
            | (some (some o), context) =>
                (.answer (some o), ⟨turns, { w with context := context, outbound := rest }⟩)

/-- The loop of `redisGetReply` that writes until the output buffer is empty, and what follows
it. -/
def writeLoop (strtod : Bytes → Double × Bytes) (P : Peer σ ε) (turns : List (ByteTurn ε))
    (w : Wire σ) : Answered σ ε :=
  if w.context.err.isSome then (.answer none, ⟨turns, w⟩)
  else if w.context.obuf = [] then readLoop strtod P turns w
  else
    match turns with
    | [] => (.blocked, ⟨[], w⟩)
    | .event e :: turns => writeLoop strtod P turns (w.event P e)
    | .call c :: turns =>
        match Hiredis.redisBufferWrite c w.context with
        | (false, _, context) => (.answer none, ⟨turns, { w with context := context }⟩)
        | (true, sent, context) =>
            writeLoop strtod P turns ({ w with context := context }.arrive P.command sent)

/-- `redisGetReply` -/
def redisGetReply (strtod : Bytes → Double × Bytes) (P : Peer σ ε) (n : Socket σ ε) :
    Answered σ ε :=
  match redisGetReplyFromReader strtod n.wire.context with
  | (none, context) => (.answer none, { n with wire := { n.wire with context := context } })
  | (some (some o), context) =>
      (.answer (some o), { n with wire := { n.wire with context := context } })
  | (some none, context) => writeLoop strtod P n.turns { n.wire with context := context }

/-- `redisvCommand` and `redisCommandArgv` once the frame is there, or is not. -/
def deliver (strtod : Bytes → Double × Bytes) (P : Peer σ ε) (n : Socket σ ε) :
    Except FormatError Cmd → Answered σ ε
  | .error (.fault f) => (.fault (.format f), n)
  | .error .oom =>
      (.answer none,
        { n with wire := { n.wire with context := redisSetError n.wire.context oomError } })
  | .error .format =>
      (.answer none, { n with wire := { n.wire with
        context := redisSetError n.wire.context ⟨.other, ascii "Invalid format string"⟩ } })
  | .ok cmd =>
      redisGetReply strtod P { n with wire := { n.wire with
        context := { n.wire.context with obuf := n.wire.context.obuf ++ cmd.bytes } } }

/-- The reply that is handed out.  A method would read a null pointer if an element were not
set. -/
def received : Answered σ ε → Response Fault (Option Reply) × Socket σ ε
  | (.answer none, n) => (.answer none, n)
  | (.answer (some o), n) =>
      match o.reply with
      | some r => (.answer (some r), n)
      | none => (.fault .unsetReply, n)
  | (.fault f, n) => (.fault f, n)
  | (.blocked, n) => (.blocked, n)

/-- A request. -/
def request (strtod : Bytes → Double × Bytes) (P : Peer σ ε) :
    Request → Socket σ ε → Response Fault (Option Reply) × Socket σ ε
  | .getReply, n => received (redisGetReply strtod P n)
  | q, n => received (deliver strtod P n q.encode)

/-- The environment of a method on this connection. -/
def env (strtod : Bytes → Double × Bytes) (P : Peer σ ε) : Env (Socket σ ε) where
  request := request strtod P
  connect _ _ _ n := (none, n)

theorem request_eq (P : Peer σ ε) {q : Request} (hq : q ≠ .getReply) (n : Socket σ ε) :
    (env strtod P).request q n = received (deliver strtod P n q.encode) := by
  cases q with
  | getReply => exact absurd rfl hq
  | _ => rfl

/-! ## The loops -/

section Loops

variable (P : Peer σ ε) {w : Wire σ}

theorem readLoop_of_err (turns : List (ByteTurn ε)) (h : w.context.err.isSome = true) :
    readLoop strtod P turns w = (.answer none, ⟨turns, w⟩) := by
  rw [readLoop.eq_def, if_pos h]

theorem readLoop_nil (h : w.context.err.isSome = false) :
    readLoop strtod P [] w = (.blocked, ⟨[], w⟩) := by
  rw [readLoop.eq_def, if_neg (by simp [h])]

theorem readLoop_event (h : w.context.err.isSome = false) (e : ε) (turns : List (ByteTurn ε)) :
    readLoop strtod P (.event e :: turns) w = readLoop strtod P turns (w.event P e) := by
  rw [readLoop.eq_def, if_neg (by simp [h])]

/-- A `recv` that sets an error. -/
theorem readLoop_call_false (h : w.context.err.isSome = false) {c : SocketCall} {rest : Bytes}
    {context : RedisContext}
    (hc : Hiredis.redisBufferRead c w.outbound w.context = (false, rest, context))
    (turns : List (ByteTurn ε)) :
    readLoop strtod P (.call c :: turns) w =
      (.answer none, ⟨turns, { w with context := context, outbound := rest }⟩) := by
  rw [readLoop.eq_def, if_neg (by simp [h])]
  simp only [hc]

/-- A `recv`, and what the reader makes of it. -/
theorem readLoop_call_true (h : w.context.err.isSome = false) {c : SocketCall} {rest : Bytes}
    {context : RedisContext}
    (hc : Hiredis.redisBufferRead c w.outbound w.context = (true, rest, context))
    (turns : List (ByteTurn ε)) :
    readLoop strtod P (.call c :: turns) w =
      match skipPushes strtod (context.reader.rest.length + 1) context with
      | (none, context) =>
          (.answer none, ⟨turns, { w with context := context, outbound := rest }⟩)
      | (some none, context) =>
          readLoop strtod P turns { w with context := context, outbound := rest }
      | (some (some o), context) =>
          (.answer (some o), ⟨turns, { w with context := context, outbound := rest }⟩) := by
  rw [readLoop.eq_def, if_neg (by simp [h])]
  simp only [hc]

theorem writeLoop_of_err (turns : List (ByteTurn ε)) (h : w.context.err.isSome = true) :
    writeLoop strtod P turns w = (.answer none, ⟨turns, w⟩) := by
  rw [writeLoop.eq_def, if_pos h]

theorem writeLoop_done (turns : List (ByteTurn ε)) (h : w.context.err.isSome = false)
    (hobuf : w.context.obuf = []) :
    writeLoop strtod P turns w = readLoop strtod P turns w := by
  rw [writeLoop.eq_def, if_neg (by simp [h]), if_pos hobuf]

theorem writeLoop_nil (h : w.context.err.isSome = false) (hobuf : w.context.obuf ≠ []) :
    writeLoop strtod P [] w = (.blocked, ⟨[], w⟩) := by
  rw [writeLoop.eq_def, if_neg (by simp [h]), if_neg hobuf]

theorem writeLoop_event (h : w.context.err.isSome = false) (hobuf : w.context.obuf ≠ [])
    (e : ε) (turns : List (ByteTurn ε)) :
    writeLoop strtod P (.event e :: turns) w = writeLoop strtod P turns (w.event P e) := by
  rw [writeLoop.eq_def, if_neg (by simp [h]), if_neg hobuf]

theorem writeLoop_call (h : w.context.err.isSome = false) (hobuf : w.context.obuf ≠ [])
    (c : SocketCall) (turns : List (ByteTurn ε)) :
    writeLoop strtod P (.call c :: turns) w =
      match Hiredis.redisBufferWrite c w.context with
      | (false, _, context) => (.answer none, ⟨turns, { w with context := context }⟩)
      | (true, sent, context) =>
          writeLoop strtod P turns ({ w with context := context }.arrive P.command sent) := by
  rw [writeLoop.eq_def, if_neg (by simp [h]), if_neg hobuf]

end Loops

/-! ## Pushes -/

theorem not_push_of_skipPushes {fuel : ℕ} {c c' : RedisContext} {o : Object}
    (h : skipPushes strtod fuel c = (some (some o), c')) :
    redisHandledPushReply o = false := by
  induction fuel generalizing c with
  | zero => cases h
  | succ fuel ih =>
      rw [skipPushes] at h
      split at h
      · split_ifs at h with hpush
        · exact ih h
        · cases h
          exact Bool.not_eq_true _ ▸ hpush
      · rename_i hnot
        exact absurd h (hnot o c')

section Pushes

variable {P : Peer σ ε} {o : Object}

/-- What the loop that reads hands out is no push. -/
theorem not_push_of_readLoop {turns : List (ByteTurn ε)} {w : Wire σ}
    (h : (readLoop strtod P turns w).1 = .answer (some o)) :
    redisHandledPushReply o = false := by
  induction turns generalizing w with
  | nil =>
      cases herr : w.context.err.isSome with
      | true =>
          rw [readLoop_of_err P _ herr] at h
          cases h
      | false =>
          rw [readLoop_nil P herr] at h
          cases h
  | cons turn turns ih =>
      cases herr : w.context.err.isSome with
      | true =>
          rw [readLoop_of_err P _ herr] at h
          cases h
      | false =>
          cases turn with
          | event e =>
              rw [readLoop_event P herr] at h
              exact ih h
          | call c =>
              rcases hread : Hiredis.redisBufferRead c w.outbound w.context with ⟨_ | _,
                rest, context⟩
              · rw [readLoop_call_false P herr hread] at h
                cases h
              · rw [readLoop_call_true P herr hread] at h
                rcases hskip : skipPushes strtod (context.reader.rest.length + 1) context with
                  ⟨_ | _ | o', context'⟩ <;> rw [hskip] at h
                · cases h
                · exact ih h
                · cases h
                  exact not_push_of_skipPushes hskip

/-- Nor is what the loop that writes hands out. -/
theorem not_push_of_writeLoop {turns : List (ByteTurn ε)} {w : Wire σ}
    (h : (writeLoop strtod P turns w).1 = .answer (some o)) :
    redisHandledPushReply o = false := by
  induction turns generalizing w with
  | nil =>
      cases herr : w.context.err.isSome with
      | true =>
          rw [writeLoop_of_err P _ herr] at h
          cases h
      | false =>
          by_cases hobuf : w.context.obuf = []
          · rw [writeLoop_done P _ herr hobuf] at h
            exact not_push_of_readLoop h
          · rw [writeLoop_nil P herr hobuf] at h
            cases h
  | cons turn turns ih =>
      cases herr : w.context.err.isSome with
      | true =>
          rw [writeLoop_of_err P _ herr] at h
          cases h
      | false =>
          by_cases hobuf : w.context.obuf = []
          · rw [writeLoop_done P _ herr hobuf] at h
            exact not_push_of_readLoop h
          · cases turn with
            | event e =>
                rw [writeLoop_event P herr hobuf] at h
                exact ih h
            | call c =>
                rw [writeLoop_call P herr hobuf] at h
                split at h
                · cases h
                · exact ih h

/-- **A push that is handed out as a reply** was in the reader before, and nothing is sent: a
command that was to be sent stays in the output buffer. -/
theorem redisGetReply_push {n : Socket σ ε}
    (h : (redisGetReply strtod P n).1 = .answer (some o))
    (hpush : redisHandledPushReply o = true) :
    (redisGetReplyFromReader strtod n.wire.context).1 = some (some o) ∧
      (redisGetReply strtod P n).2.turns = n.turns ∧
        (redisGetReply strtod P n).2.wire.context.obuf = n.wire.context.obuf := by
  have hobuf : (redisGetReplyFromReader strtod n.wire.context).2.obuf =
      n.wire.context.obuf := by
    rw [redisGetReplyFromReader]
    rcases redisReaderGetReply strtod n.wire.context.reader with ⟨_ | _, r⟩ <;> rfl
  rw [redisGetReply] at h ⊢
  rcases hfrom : redisGetReplyFromReader strtod n.wire.context with ⟨_ | _ | o', c⟩ <;>
    rw [hfrom] at h hobuf
  · cases h
  · rw [not_push_of_writeLoop h] at hpush
    cases hpush
  · cases h
    exact ⟨rfl, rfl, hobuf⟩

end Pushes

/-- A push is in the reader when a command is to be sent. -/
def pushed : Socket Unit Empty where
  turns := []
  wire :=
    { context :=
        { obuf := ascii "*1\r\n$4\r\nPING\r\n", reader := { buf := ascii ">1\r\n:7\r\n" } }
      server := () }

/-- The push is the reply to the command. -/
theorem pushed_answers :
    (redisGetReplyFromReader noNumber pushed.wire.context).1 =
        some (some (.aggregate .push [some (.number .integer 7)])) ∧
      (redisGetReply noNumber ⟨fun _ s => (.nil, s), fun e => e.elim⟩ pushed).2.turns =
        pushed.turns ∧
        (redisGetReply noNumber ⟨fun _ s => (.nil, s), fun e => e.elim⟩
          pushed).2.wire.context.obuf =
          pushed.wire.context.obuf :=
  redisGetReply_push rfl rfl

end Socket

end RcppRedis
