import RcppRedis.Redis.Connection

/-!
# The blocking connection

How `redisGetReply` writes and reads.  The client's context has an output buffer, an error that
is never cleared, and the replies that its reader has complete.  Each `send` and each `recv`
may do less than it was asked to, be interrupted, or fail; what the system calls do, and what
happens at the server between them, is a list of turns.  The client waits where the list ends.

A reply is handed out once all of its bytes are there, so what `recv` brings is counted in
replies.

* `redisGetReply` — the loop that writes until the buffer is empty, and the one that reads
  until there is a reply.
* `Net.env` — the environment of a method.
* `redisGetReply_of_err` — once the error is set, every request ends without a reply.
-/

namespace RcppRedis

open Bytes Resp Hiredis Interact Prog

variable {O : Type} {R : Runtime O} {σ ε α : Type}

/-! ## The two ends -/

/-- The client's context, the server, and what is on the way between them. -/
structure Link (σ : Type) where
  /-- `c->err` is set -/
  err : Bool := false
  /-- `c->obuf` -/
  obuf : Bytes := []
  /-- the replies that the reader has complete -/
  replies : List Reply := []
  /-- the bytes of a command that is not complete yet -/
  inbound : Bytes := []
  /-- replies on their way to the client -/
  outbound : List Reply := []
  server : σ

/-- A server, and what happens at it while no command is answered. -/
structure Peer (σ ε : Type) where
  command : Server σ
  event : ε → σ → List Reply × σ

/-- The server answers the complete commands in what it has read.  An array of no arguments is
skipped.  Every command shortens the bytes, so their number bounds the commands. -/
def serve (S : Server σ) : ℕ → Bytes → σ → Bytes × List Reply × σ
  | 0, b, s => (b, [], s)
  | fuel + 1, b, s =>
      match parseCommand b with
      | none => (b, [], s)
      | some ([], rest) => serve S fuel rest s
      | some (w :: args, rest) =>
          let (r, s) := S (w :: args) s
          let (rest, rs, s) := serve S fuel rest s
          (rest, r :: rs, s)

namespace Link

/-- Bytes reach the server, and it answers what is complete. -/
def arrive (S : Server σ) (l : Link σ) (sent : Bytes) : Link σ :=
  let b := l.inbound ++ sent
  let (rest, rs, s) := serve S b.length b l.server
  { l with inbound := rest, outbound := l.outbound ++ rs, server := s }

/-- `send` takes the first bytes of the output buffer. -/
def send (S : Server σ) (n : ℕ) (l : Link σ) : Link σ :=
  { l with obuf := l.obuf.drop n }.arrive S (l.obuf.take n)

/-- `recv` brings what completes the next replies. -/
def recv (n : ℕ) (l : Link σ) : Link σ :=
  { l with replies := l.replies ++ l.outbound.take n, outbound := l.outbound.drop n }

/-- Something happens at the server. -/
def event (P : Peer σ ε) (e : ε) (l : Link σ) : Link σ :=
  { l with outbound := l.outbound ++ (P.event e l.server).1, server := (P.event e l.server).2 }

/-- The error is set, and the reader has no reply left. -/
def Dead (l : Link σ) : Prop := l.err = true ∧ l.replies = []

end Link

/-! ## Writing and reading -/

/-- What a system call does. -/
inductive Syscall where
  /-- It moves so many bytes, or completes so many replies, but not more than there are. -/
  | moves (n : ℕ)
  /-- It fails with `EINTR`. -/
  | interrupted
  /-- It fails otherwise, or finds the end of the stream. -/
  | fails
  deriving DecidableEq, Repr

/-- What happens next. -/
inductive Turn (ε : Type) where
  | call (c : Syscall)
  | event (e : ε)

/-- A connection, and what will happen on it. -/
structure Net (σ ε : Type) where
  turns : List (Turn ε)
  link : Link σ

/-- `redisBufferWrite`, whose buffer is not empty, with `redisNetWrite`: whether it is
`REDIS_OK`.  An interrupted `send` yields `-1` and sets no error. -/
def redisBufferWrite (S : Server σ) : Syscall → Link σ → Bool × Link σ
  | .moves n, l => (true, l.send S n)
  | .interrupted, l => (false, l)
  | .fails, l => (false, { l with err := true })

/-- `redisBufferRead` with `redisNetRead`.  An interrupted `recv` yields `0`. -/
def redisBufferRead : Syscall → Link σ → Bool × Link σ
  | .moves n, l => (true, l.recv n)
  | .interrupted, l => (true, l)
  | .fails, l => (false, { l with err := true })

/-- The answer with a reply, or without. -/
abbrev Answered (σ ε : Type) : Type := Response Fault (Option Reply) × Net σ ε

/-- The loop of `redisGetReply` that reads until there is a reply. -/
def readLoop (P : Peer σ ε) (turns : List (Turn ε)) (l : Link σ) : Answered σ ε :=
  if l.err then (.answer none, ⟨turns, l⟩)
  else
    match turns with
    | [] => (.blocked, ⟨[], l⟩)
    | .event e :: turns => readLoop P turns (l.event P e)
    | .call c :: turns =>
        match redisBufferRead c l with
        | (false, l) => (.answer none, ⟨turns, l⟩)
        | (true, l) =>
            match l.replies with
            | [] => readLoop P turns l
            | r :: rs => (.answer (some r), ⟨turns, { l with replies := rs }⟩)

/-- The loop of `redisGetReply` that writes until the output buffer is empty, and what follows
it. -/
def writeLoop (P : Peer σ ε) (turns : List (Turn ε)) (l : Link σ) : Answered σ ε :=
  if l.err then (.answer none, ⟨turns, l⟩)
  else if l.obuf = [] then readLoop P turns l
  else
    match turns with
    | [] => (.blocked, ⟨[], l⟩)
    | .event e :: turns => writeLoop P turns (l.event P e)
    | .call c :: turns =>
        match redisBufferWrite P.command c l with
        | (false, l) => (.answer none, ⟨turns, l⟩)
        | (true, l) => writeLoop P turns l

/-- `redisGetReply` -/
def redisGetReply (P : Peer σ ε) (n : Net σ ε) : Answered σ ε :=
  match n.link.replies with
  | r :: rs => (.answer (some r), { n with link := { n.link with replies := rs } })
  | [] => writeLoop P n.turns n.link

namespace Net

/-- `redisvCommand` and `redisCommandArgv` once the frame is there, or is not. -/
def deliver (P : Peer σ ε) (n : Net σ ε) : Except FormatError Cmd → Answered σ ε
  | .error (.fault f) => (.fault (.format f), n)
  | .error _ => (.answer none, { n with link := { n.link with err := true } })
  | .ok cmd => redisGetReply P
      { n with link := { n.link with obuf := n.link.obuf ++ cmd.bytes } }

/-- A request. -/
def request (P : Peer σ ε) : Request → Net σ ε → Answered σ ε
  | .getReply, n => redisGetReply P n
  | q, n => deliver P n q.encode

/-- The environment of a method on this connection. -/
def env (P : Peer σ ε) : Env (Net σ ε) where
  request := request P
  connect _ _ _ n := (none, n)

theorem request_eq (P : Peer σ ε) {q : Request} (hq : q ≠ .getReply) (n : Net σ ε) :
    (env P).request q n = deliver P n q.encode := by
  cases q with
  | getReply => exact absurd rfl hq
  | _ => rfl

end Net

/-! ## The loops -/

section Loops

variable (P : Peer σ ε) {l : Link σ}

theorem readLoop_of_err (turns : List (Turn ε)) (h : l.err = true) :
    readLoop P turns l = (.answer none, ⟨turns, l⟩) := by
  rw [readLoop.eq_def, if_pos h]

theorem readLoop_nil (h : l.err = false) : readLoop P [] l = (.blocked, ⟨[], l⟩) := by
  rw [readLoop.eq_def, if_neg (by simp [h])]

theorem readLoop_event (h : l.err = false) (e : ε) (turns : List (Turn ε)) :
    readLoop P (.event e :: turns) l = readLoop P turns (l.event P e) := by
  rw [readLoop.eq_def, if_neg (by simp [h])]

theorem readLoop_call (h : l.err = false) (c : Syscall) (turns : List (Turn ε)) :
    readLoop P (.call c :: turns) l =
      match redisBufferRead c l with
      | (false, l) => (.answer none, ⟨turns, l⟩)
      | (true, l) =>
          match l.replies with
          | [] => readLoop P turns l
          | r :: rs => (.answer (some r), ⟨turns, { l with replies := rs }⟩) := by
  rw [readLoop.eq_def, if_neg (by simp [h])]

theorem writeLoop_of_err (turns : List (Turn ε)) (h : l.err = true) :
    writeLoop P turns l = (.answer none, ⟨turns, l⟩) := by
  rw [writeLoop.eq_def, if_pos h]

theorem writeLoop_done (turns : List (Turn ε)) (h : l.err = false) (hobuf : l.obuf = []) :
    writeLoop P turns l = readLoop P turns l := by
  rw [writeLoop.eq_def, if_neg (by simp [h]), if_pos hobuf]

theorem writeLoop_nil (h : l.err = false) (hobuf : l.obuf ≠ []) :
    writeLoop P [] l = (.blocked, ⟨[], l⟩) := by
  rw [writeLoop.eq_def, if_neg (by simp [h]), if_neg hobuf]

theorem writeLoop_event (h : l.err = false) (hobuf : l.obuf ≠ []) (e : ε)
    (turns : List (Turn ε)) :
    writeLoop P (.event e :: turns) l = writeLoop P turns (l.event P e) := by
  rw [writeLoop.eq_def, if_neg (by simp [h]), if_neg hobuf]

theorem writeLoop_call (h : l.err = false) (hobuf : l.obuf ≠ []) (c : Syscall)
    (turns : List (Turn ε)) :
    writeLoop P (.call c :: turns) l =
      match redisBufferWrite P.command c l with
      | (false, l) => (.answer none, ⟨turns, l⟩)
      | (true, l) => writeLoop P turns l := by
  rw [writeLoop.eq_def, if_neg (by simp [h]), if_neg hobuf]

theorem readLoop_ne_fault (turns : List (Turn ε)) (l : Link σ) (f : Fault) :
    (readLoop P turns l).1 ≠ .fault f := by
  induction turns generalizing l with
  | nil =>
      cases h : l.err with
      | true => rw [readLoop_of_err P _ h]; rintro ⟨⟩
      | false => rw [readLoop_nil P h]; rintro ⟨⟩
  | cons turn turns ih =>
      cases h : l.err with
      | true => rw [readLoop_of_err P _ h]; rintro ⟨⟩
      | false =>
          cases turn with
          | event e =>
              rw [readLoop_event P h]
              exact ih _
          | call c =>
              rw [readLoop_call P h]
              split
              · rintro ⟨⟩
              · split
                · exact ih _
                · rintro ⟨⟩

theorem writeLoop_ne_fault (turns : List (Turn ε)) (l : Link σ) (f : Fault) :
    (writeLoop P turns l).1 ≠ .fault f := by
  induction turns generalizing l with
  | nil =>
      cases h : l.err with
      | true => rw [writeLoop_of_err P _ h]; rintro ⟨⟩
      | false =>
          by_cases hobuf : l.obuf = []
          · rw [writeLoop_done P _ h hobuf]
            exact readLoop_ne_fault P _ _ f
          · rw [writeLoop_nil P h hobuf]
            rintro ⟨⟩
  | cons turn turns ih =>
      cases h : l.err with
      | true => rw [writeLoop_of_err P _ h]; rintro ⟨⟩
      | false =>
          by_cases hobuf : l.obuf = []
          · rw [writeLoop_done P _ h hobuf]
            exact readLoop_ne_fault P _ _ f
          · cases turn with
            | event e =>
                rw [writeLoop_event P h hobuf]
                exact ih _
            | call c =>
                rw [writeLoop_call P h hobuf]
                split
                · rintro ⟨⟩
                · exact ih _

/-- The loops have no undefined behaviour. -/
theorem redisGetReply_ne_fault (n : Net σ ε) (f : Fault) :
    (redisGetReply P n).1 ≠ .fault f := by
  rw [redisGetReply]
  split
  · rintro ⟨⟩
  · exact writeLoop_ne_fault P _ _ f

/-- **Once the error is set**, and the reader has no reply left, every request ends without a
reply and without a system call. -/
theorem redisGetReply_of_err {n : Net σ ε} (herr : n.link.err = true)
    (hreplies : n.link.replies = []) : redisGetReply P n = (.answer none, n) := by
  rw [redisGetReply, hreplies]
  exact writeLoop_of_err P n.turns herr

end Loops

end RcppRedis
